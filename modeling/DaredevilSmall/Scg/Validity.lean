import DaredevilSmall.Scg.Driver
import DaredevilSmall.Mmio.Interleave

/-!
# Valid clocks

The clock generator beside `configure_spll_clock`. An oscillator that has been
enabled becomes valid at some later time, and so does the PLL; the system clock
follows `RCCR` once the source it asks for is valid. `Settles` is any of these
moves, possible between any two accesses.

The driver has to wait for the oscillator before it sets up the PLL, and for the
PLL before it runs from it. Both loops of the source wait as long as the flag is
set, so each is left at a read that finds it clear.

Ghost fields keep a log of the accesses, each with the flags at that time, and
say for either flag whether it has risen since its register was last accessed.

1. `configure_outline`: what holds at every point of the driver.
2. `clocks_valid_iff`: the driver moves on to valid clocks exactly in the runs in
   which each flag rises after the wait for it and just in time.
3. `clocks_notYetValid`: a run in which the oscillator is slower than that.
-/

namespace Scg

open Mmio

/-! ## The clock generator -/

/-- One access: the value written, if it was a write, whether the register was
locked, and the flags at that time. -/
structure Access where
  reg : ScgReg
  written : Option Word
  locked : Bool
  soscvld : Bool
  spllvld : Bool
  soscRose : Bool
  spllRose : Bool
  deriving DecidableEq, Repr

/-- The state of the clock generator. `scs` is the source the system clock runs
from. -/
structure Clocks where
  regs : ScgReg → Word
  soscvld : Bool
  spllvld : Bool
  scs : Word
  soscRose : Bool
  spllRose : Bool
  log : List Access

/-- `SOSCEN` of `SOSCCSR` and `SPLLEN` of `SPLLCSR`. -/
def enabled (v : Word) : Bool := getField v 0 1 == 1

/-- The field `SCS` of `RCCR`. -/
def scsOf (v : Word) : Word := getField v 24 4

namespace Clocks

/-- The lock bit of a register that has one. -/
def locked (s : Clocks) (r : ScgReg) : Bool :=
  match r with
  | .sosccsr => lkIs1 (s.regs .sosccsr)
  | .spllcsr => lkIs1 (s.regs .spllcsr)
  | _ => false

/-- What a register reads as. -/
def value (s : Clocks) (r : ScgReg) : Word :=
  match r with
  | .sosccsr => setField (s.regs .sosccsr) 24 1 (if s.soscvld then 1 else 0)
  | .spllcsr => setField (s.regs .spllcsr) 24 1 (if s.spllvld then 1 else 0)
  | .csr => setField (s.regs .csr) 24 4 s.scs
  | r => s.regs r

/-- An access to `r` is logged. -/
def access (s : Clocks) (r : ScgReg) (written : Option Word) : Clocks :=
  { s with
    soscRose := s.soscRose && r != .sosccsr
    spllRose := s.spllRose && r != .spllcsr
    log := s.log ++
      [⟨r, written, s.locked r, s.soscvld, s.spllvld, s.soscRose, s.spllRose⟩] }

/-- A write of `v` to `r`. A clock that is disabled is no longer valid. -/
def store (s : Clocks) (r : ScgReg) (v : Word) : Clocks :=
  { s.access r (some v) with
    regs := Function.update s.regs r v
    soscvld := s.soscvld && (r != .sosccsr || enabled v)
    spllvld := s.spllvld && (r != .spllcsr || enabled v) }

/-- The oscillator becomes valid. -/
def riseSosc (s : Clocks) : Clocks := { s with soscvld := true, soscRose := true }

/-- The PLL becomes valid. -/
def riseSpll (s : Clocks) : Clocks := { s with spllvld := true, spllRose := true }

/-- The system clock follows `RCCR`. -/
def switch (s : Clocks) : Clocks := { s with scs := scsOf (s.regs .rccr) }

end Clocks

/-- The clock generator as a peripheral with registers. -/
def scgHw : Hw ScgReg Clocks where
  read r s := (s.value r, s.access r none)
  write r v s := s.store r v
  patience _ _ := 0

/-- A move of the clock generator on its own. -/
inductive Settles : Clocks → Clocks → Prop
  | sosc {s : Clocks} : enabled (s.regs .sosccsr) = true → s.soscvld = false →
      Settles s s.riseSosc
  | spll {s : Clocks} : enabled (s.regs .spllcsr) = true → s.spllvld = false →
      Settles s s.riseSpll
  | switch {s : Clocks} : (scsOf (s.regs .rccr) = 1 → s.soscvld = true) →
      (scsOf (s.regs .rccr) = 6 → s.spllvld = true) → Settles s s.switch

/-! ## What the driver should wait for -/

/-- The first access to `SPLLCSR`. -/
def firstSpllcsr (log : List Access) : Option Access := log.find? fun e => e.reg == .spllcsr

/-- `SPLLCSR` is first accessed with a valid oscillator, `RCCR` asks for the PLL
only when that is valid, and no register is written while it is locked. -/
structure ValidClocks (log : List Access) : Prop where
  sosc : ∀ e, firstSpllcsr log = some e → e.soscvld = true
  spll : ∀ e ∈ log, e.reg = .rccr → ∀ v, e.written = some v → scsOf v = 6 → e.spllvld = true
  unlocked : ∀ e ∈ log, e.written.isSome → e.locked = false

/-- `SOSCVLD` rises between the last access to `SOSCCSR` and the first one to
`SPLLCSR`, and `SPLLVLD` between the last access to `SPLLCSR` and the write to
`RCCR` that asks for the PLL. -/
structure RisesInTime (log : List Access) : Prop where
  sosc : ∀ e, firstSpllcsr log = some e → e.soscRose = true
  spll : ∀ e ∈ log, e.reg = .rccr → ∀ v, e.written = some v → scsOf v = 6 → e.spllRose = true

instance (log : List Access) : Decidable (ValidClocks log) :=
  decidable_of_iff ((∀ e ∈ firstSpllcsr log, e.soscvld = true) ∧
      (∀ e ∈ log, e.reg = .rccr → ∀ v ∈ e.written, scsOf v = 6 → e.spllvld = true) ∧
      ∀ e ∈ log, e.written.isSome → e.locked = false)
    ⟨fun h => ⟨h.1, h.2.1, h.2.2⟩, fun h => ⟨h.sosc, h.spll, h.unlocked⟩⟩

instance (log : List Access) : Decidable (RisesInTime log) :=
  decidable_of_iff ((∀ e ∈ firstSpllcsr log, e.soscRose = true) ∧
      ∀ e ∈ log, e.reg = .rccr → ∀ v ∈ e.written, scsOf v = 6 → e.spllRose = true)
    ⟨fun h => ⟨h.1, h.2⟩, fun h => ⟨h.sosc, h.spll⟩⟩

/-- At the accesses that need a valid clock, its flag is set exactly when it has
risen since its register was last accessed. -/
structure Matched (log : List Access) : Prop where
  sosc : ∀ e, firstSpllcsr log = some e → e.soscvld = e.soscRose
  spll : ∀ e ∈ log, e.reg = .rccr → e.written.isSome → e.spllvld = e.spllRose
  unlocked : ∀ e ∈ log, e.written.isSome → e.locked = false

theorem Matched.validClocks_iff {log : List Access} (h : Matched log) :
    ValidClocks log ↔ RisesInTime log := by
  have hspll (e : Access) (he : e ∈ log) (hreg : e.reg = .rccr) (v : Word)
      (hv : e.written = some v) : e.spllvld = e.spllRose := by
    refine h.spll e he hreg ?_
    rw [hv]
    rfl
  constructor
  · intro hvalid
    refine ⟨fun e he => ?_, fun e he hreg v hv hscs => ?_⟩
    · exact (h.sosc e he).symm.trans (hvalid.sosc e he)
    · exact (hspll e he hreg v hv).symm.trans (hvalid.spll e he hreg v hv hscs)
  · intro hrises
    refine ⟨fun e he => ?_, fun e he hreg v hv hscs => ?_, h.unlocked⟩
    · exact (h.sosc e he).trans (hrises.sosc e he)
    · exact (hspll e he hreg v hv).trans (hrises.spll e he hreg v hv hscs)

/-- The driver has got to the PLL. -/
def Entered (s : Clocks) : Prop := (firstSpllcsr s.log).isSome

namespace ValidityLemmas

theorem firstSpllcsr_append (log : List Access) (e : Access) :
    firstSpllcsr (log ++ [e]) =
      (firstSpllcsr log).or (if e.reg == .spllcsr then some e else none) := by
  unfold firstSpllcsr
  rw [List.find?_append, List.find?_singleton]

theorem matched_nil : Matched [] := by
  refine ⟨fun e he => ?_, fun e he => ?_, fun e he => ?_⟩
  · cases he
  · cases he
  · cases he

theorem matched_append {log : List Access} (h : Matched log) {e : Access}
    (hsosc : e.reg = .spllcsr → (firstSpllcsr log).isSome ∨ e.soscvld = e.soscRose)
    (hspll : e.reg = .rccr → e.written.isSome → e.spllvld = e.spllRose)
    (hlock : e.written.isSome → e.locked = false) : Matched (log ++ [e]) := by
  refine ⟨fun e' he' => ?_, fun e' he' => ?_, fun e' he' => ?_⟩
  · rw [firstSpllcsr_append] at he'
    cases hfound : firstSpllcsr log with
    | some e₀ =>
      rw [hfound, Option.some_or] at he'
      cases he'
      exact h.sosc _ hfound
    | none =>
      rw [hfound, Option.none_or] at he'
      split at he'
      · next hreg =>
        cases he'
        refine (hsosc (eq_of_beq hreg)).resolve_left ?_
        rw [hfound]
        exact Bool.false_ne_true
      · cases he'
  · cases List.mem_append.mp he' with
    | inl hold => exact h.spll e' hold
    | inr hnew =>
      obtain rfl := List.mem_singleton.mp hnew
      exact hspll
  · cases List.mem_append.mp he' with
    | inl hold => exact h.unlocked e' hold
    | inr hnew =>
      obtain rfl := List.mem_singleton.mp hnew
      exact hlock

variable {s : Clocks} {r : ScgReg}

theorem entered_access (h : Entered s) (written : Option Word) : Entered (s.access r written) := by
  have hsome : (firstSpllcsr s.log).isSome = true := h
  unfold Entered Clocks.access
  rw [firstSpllcsr_append, Option.isSome_or, hsome]
  rfl

theorem entered_spllcsr (written : Option Word) : Entered (s.access .spllcsr written) := by
  unfold Entered Clocks.access
  rw [firstSpllcsr_append, Option.isSome_or]
  exact Bool.or_true _

theorem matched_read (h : Matched s.log)
    (hsosc : r = .spllcsr → Entered s ∨ s.soscvld = s.soscRose) :
    Matched (s.access r none).log :=
  matched_append h hsosc (fun _ hwrite => absurd hwrite Bool.false_ne_true)
    fun hwrite => absurd hwrite Bool.false_ne_true

theorem matched_store (h : Matched s.log) (v : Word) (hsosc : r = .spllcsr → Entered s)
    (hspll : r = .rccr → s.spllvld = s.spllRose) (hlock : s.locked r = false) :
    Matched (s.store r v).log :=
  matched_append h (fun hr => Or.inl (hsosc hr)) (fun hr _ => hspll hr) fun _ => hlock

theorem lkIs1_setField (w v : Word) : lkIs1 (setField w 24 1 v) = lkIs1 w := by
  unfold lkIs1
  rw [getField_setField_of_disjoint _ _ (by decide) (Or.inl (by decide))]

theorem vldIs1_setField (w : Word) (b : Bool) :
    vldIs1 (setField w 24 1 (if b then 1 else 0)) = b := by
  unfold vldIs1
  rw [getField_setField _ _ (by decide)]
  cases b <;> rfl

/-- The flags and the lock bit, as a read finds them. -/
theorem soscvld_of_read (s : Clocks) : vldIs1 (s.value .sosccsr) = s.soscvld :=
  vldIs1_setField _ _

theorem spllvld_of_read (s : Clocks) : vldIs1 (s.value .spllcsr) = s.spllvld :=
  vldIs1_setField _ _

theorem sosc_locked_of_read (s : Clocks) : lkIs1 (s.value .sosccsr) = s.locked .sosccsr :=
  lkIs1_setField _ _

theorem spll_locked_of_read (s : Clocks) : lkIs1 (s.value .spllcsr) = s.locked .spllcsr :=
  lkIs1_setField _ _

end ValidityLemmas

open ValidityLemmas

/-! ## What is known at each point -/

/-- The log so far. -/
def logged : Assertion Settles fun s => Matched s.log where
  holds s := Matched s.log
  stable := by
    rintro s _ (⟨_, _⟩ | ⟨_, _⟩ | ⟨_, _⟩) h
    all_goals exact h
  safe _ h := h

/-- A register is not locked. Locks change by writes only. -/
def unlocked (r : ScgReg) : Assertion Settles fun s => Matched s.log :=
  logged.and (fun s => s.locked r = false) (by
    rintro s _ (⟨_, _⟩ | ⟨_, _⟩ | ⟨_, _⟩) h
    all_goals exact h)

/-- `SOSCVLD` has been found clear, and is set by now if it has risen. -/
def soscWaited : Assertion Settles fun s => Matched s.log :=
  logged.and (fun s => Entered s ∨ s.soscvld = s.soscRose) (by
    rintro s _ (⟨_, _⟩ | ⟨_, _⟩ | ⟨_, _⟩) h
    · exact Or.inr rfl
    · exact h
    · exact h)

/-- The PLL is being set up. -/
def entered : Assertion Settles fun s => Matched s.log :=
  logged.and Entered (by
    rintro s _ (⟨_, _⟩ | ⟨_, _⟩ | ⟨_, _⟩) h
    all_goals exact h)

/-- The PLL is being set up, and its register is not locked. -/
def enteredUnlocked : Assertion Settles fun s => Matched s.log :=
  entered.and (fun s => s.locked .spllcsr = false) (by
    rintro s _ (⟨_, _⟩ | ⟨_, _⟩ | ⟨_, _⟩) h
    all_goals exact h)

/-- `SPLLVLD` has been found clear, and is set by now if it has risen. -/
def spllWaited : Assertion Settles fun s => Matched s.log :=
  logged.and (fun s => s.spllvld = s.spllRose) (by
    rintro s _ (⟨_, _⟩ | ⟨_, _⟩ | ⟨_, _⟩) h
    · exact h
    · rfl
    · exact h)

namespace ValidityLemmas

variable {s : Clocks} {r : ScgReg}

theorem logged_read (h : logged.holds s) (hspllcsr : r ≠ .spllcsr) :
    logged.holds (s.access r none) :=
  matched_read h fun hr => absurd hr hspllcsr

theorem logged_store (h : logged.holds s) (v : Word) (hspllcsr : r ≠ .spllcsr) (hrccr : r ≠ .rccr)
    (hlock : s.locked r = false) : logged.holds (s.store r v) :=
  matched_store h v (fun hr => absurd hr hspllcsr) (fun hr => absurd hr hrccr) hlock

theorem entered_store (h : entered.holds s) (v : Word) (hrccr : r ≠ .rccr)
    (hlock : s.locked r = false) : entered.holds (s.store r v) :=
  ⟨matched_store h.1 v (fun _ => h.2) (fun hr => absurd hr hrccr) hlock,
    entered_access h.2 (some v)⟩

/-- The wait that should be for a valid oscillator ends when it is not. -/
theorem soscWaited_read (h : logged.holds s) (hclear : vldIs1 (s.value .sosccsr) = false) :
    soscWaited.holds (s.access .sosccsr none) := by
  rw [soscvld_of_read] at hclear
  refine ⟨logged_read h (by decide), Or.inr ?_⟩
  exact hclear.trans (Bool.and_false _).symm

/-- So does the one for a valid PLL. -/
theorem spllWaited_read (h : entered.holds s) (hclear : vldIs1 (s.value .spllcsr) = false) :
    spllWaited.holds (s.access .spllcsr none) := by
  rw [spllvld_of_read] at hclear
  refine ⟨matched_read h.1 fun _ => Or.inl h.2, ?_⟩
  exact hclear.trans (Bool.and_false _).symm

/-- The first read of `SPLLCSR` comes right after the wait for the oscillator. -/
theorem entered_read (h : soscWaited.holds s) : entered.holds (s.access .spllcsr none) :=
  ⟨matched_read h.1 fun _ => h.2, entered_spllcsr none⟩

end ValidityLemmas

/-- `configure_spll_clock`, from any state of the clock generator. -/
theorem configure_outline (reset : ScgReg → Word) :
    Outline scgHw (fun _ => logged) logged (configureSpllClock reset) := by
  -- SOSC_init_8Mhz
  refine .write logged (fun s hs => logged_store hs _ (by decide) (by decide) rfl) ?_
  refine .write logged (fun s hs => logged_store hs _ (by decide) (by decide) rfl) ?_
  refine .poll logged (unlocked .sosccsr) (fun s hs => hs)
    (fun s hs _ => logged_read hs (by decide))
    (fun s hs hlk => ⟨logged_read hs (by decide), (sosc_locked_of_read s).symm.trans hlk⟩) ?_
  refine .write logged (fun s hs => logged_store hs.1 _ (by decide) (by decide) hs.2) ?_
  refine .poll logged soscWaited (fun s hs => hs)
    (fun s hs _ => logged_read hs (by decide)) (fun s hs => soscWaited_read hs) ?_
  -- SPLL_init_160Mhz
  refine .poll soscWaited enteredUnlocked (fun s hs => hs)
    (fun s hs _ => ⟨(entered_read hs).1, Or.inl (entered_read hs).2⟩)
    (fun s hs hlk => ⟨entered_read hs, (spll_locked_of_read s).symm.trans hlk⟩) ?_
  refine .write entered (fun s hs => entered_store hs.1 _ (by decide) hs.2) ?_
  refine .write entered (fun s hs => entered_store hs _ (by decide) rfl) ?_
  refine .write entered (fun s hs => entered_store hs _ (by decide) rfl) ?_
  refine .poll entered enteredUnlocked (fun s hs => hs)
    (fun s hs _ => entered_read ⟨hs.1, Or.inl hs.2⟩)
    (fun s hs hlk => ⟨entered_read ⟨hs.1, Or.inl hs.2⟩, (spll_locked_of_read s).symm.trans hlk⟩) ?_
  refine .write entered (fun s hs => entered_store hs.1 _ (by decide) hs.2) ?_
  refine .poll entered spllWaited (fun s hs => hs)
    (fun s hs _ => entered_read ⟨hs.1, Or.inl hs.2⟩) (fun s hs => spllWaited_read hs) ?_
  -- NormalRUNmode_80Mhz
  refine .read (fun _ => spllWaited) (fun s hs => ?_) fun v => ?_
  · exact ⟨logged_read hs.1 (by decide), hs.2.trans (Bool.and_true _).symm⟩
  refine .write logged (fun s hs => ?_) ?_
  · exact matched_store hs.1 _ (fun hr => absurd hr (by decide)) (fun _ => hs.2) rfl
  refine .poll logged logged (fun s hs => hs)
    (fun s hs _ => logged_read hs (by decide)) (fun s hs _ => logged_read hs (by decide)) ?_
  exact .done fun s hs => hs

/-- In every run of the driver, from any state of the clock generator and however
its moves fall between the accesses: clocks are valid when they are needed exactly
if their flags rise in time. -/
theorem clocks_valid_iff (reset : ScgReg → Word) (s s' : Clocks) (hlog : s.log = [])
    (p : Driver Unit) (h : Run scgHw Settles (configureSpllClock reset, s) (p, s')) :
    ValidClocks s'.log ↔ RisesInTime s'.log := by
  have hstart : logged.holds s := by
    exact (congrArg Matched hlog).mpr matched_nil
  exact ((configure_outline reset).sound hstart h).1.validClocks_iff

/-- The clock generator after a cold start. -/
def Clocks.cold : Clocks := ⟨fun _ => 0, false, false, 0, false, false, []⟩

/-- The oscillator becomes valid in front of the first access to `SPLLCSR`. -/
theorem clocks_valid_inTime :
    ∃ s' : Clocks, (firstSpllcsr s'.log).isSome = true ∧ ValidClocks s'.log := by
  have hsosc := (run_advance scgHw Settles 5 (configureSpllClock fun _ => 0) .cold).tail
    (.tick (.sosc (by decide +kernel) (by decide +kernel)))
  have hrun := hsosc.trans (run_advance scgHw Settles 1 _ _)
  exact ⟨_, by decide +kernel, (clocks_valid_iff (fun _ => 0) .cold _ rfl _ hrun).mpr
    (by decide +kernel)⟩

/-- No clock has become valid yet when the driver goes on to the PLL. -/
theorem clocks_notYetValid :
    ∃ (reset : ScgReg → Word) (s s' : Clocks) (p : Driver Unit), s.log = [] ∧
      Run scgHw Settles (configureSpllClock reset, s) (p, s') ∧ ¬ ValidClocks s'.log := by
  have hrun := run_advance scgHw Settles 6 (configureSpllClock fun _ => 0) .cold
  refine ⟨fun _ => 0, .cold, _, _, rfl, hrun, ?_⟩
  decide +kernel

end Scg
