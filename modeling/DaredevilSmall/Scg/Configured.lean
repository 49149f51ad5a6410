import DaredevilSmall.Scg.Validity

/-!
# When the driver returns

The waits of `configure_spll_clock` for the oscillator and for the PLL do not wait
for them. The last one, for the system clock, is right. So the driver need not
return, but what a caller sees when it has is what it asked for.

1. `configure_returns_iff`: the driver can return exactly if the oscillator is not
   valid yet when it starts, and no register it waits for is locked.
2. `configured_of_returns`: when the driver has returned, the system clock runs from
   a valid PLL, with the dividers and the factor of the source.
-/

namespace Scg

open Mmio ValidityLemmas

/-! ## Whether it returns -/

namespace ConfiguredLemmas

variable {s s' : Clocks}

theorem mask_scsOf (w : Word) : scsOf w &&& 0xf = scsOf w := by
  unfold scsOf getField
  rw [BitVec.and_assoc]
  rfl

/-- The source of the system clock, as a read finds it. -/
theorem source_of_read (s : Clocks) : getField (s.value .csr) 24 4 = s.scs &&& 0xf :=
  getField_setField _ _ (by decide)

theorem scsIsNot6_switch (s : Clocks) :
    scsIsNot6 (s.switch.value .csr) = (scsOf (s.regs .rccr) != 6) := by
  unfold scsIsNot6
  rw [source_of_read]
  exact congrArg (· != 6) (mask_scsOf _)

/-- What the driver asks for. -/
theorem scsOf_rccr (w : Word) :
    scsOf (setField (setField (setField (setField w 24 4 6) 16 4 0b01) 4 4 0b01) 0 4 0b10) =
      6 := by
  simp (disch := decide) only [scsOf, getField_setField_of_disjoint, getField_setField]
  rfl

end ConfiguredLemmas

open ConfiguredLemmas

/-- A clock generator on which the driver can return: the oscillator is not valid
yet, and neither `SOSCCSR` nor `SPLLCSR` is locked or becomes so. -/
structure Passable (reset : ScgReg → Word) (s : Clocks) : Prop where
  sosc : s.soscvld = false
  sosccsr : lkIs1 (s.regs .sosccsr) = false
  spllcsr : lkIs1 (s.regs .spllcsr) = false
  reset : lkIs1 (reset .spllcsr) = false

/-- What is known of the start, of the registers, and of an oscillator that was valid
at the start. -/
def knowing (facts : Prop) (registers : (ScgReg → Word) → Prop) (valid : Bool) :
    Assertion Settles fun _ => True where
  holds s := facts ∧ registers s.regs ∧ (valid = true → s.soscvld = true)
  stable := by
    rintro s s' ht ⟨hfacts, hregs, hvalid⟩
    cases ht with
    | sosc _ _ => exact ⟨hfacts, hregs, fun _ => rfl⟩
    | spll _ _ => exact ⟨hfacts, hregs, hvalid⟩
    | switch _ _ => exact ⟨hfacts, hregs, hvalid⟩
  safe _ _ := trivial

namespace ConfiguredLemmas

variable {s : Clocks} {r : ScgReg} {facts facts' : Prop} {P Q : (ScgReg → Word) → Prop}
  {valid : Bool}

theorem soscvld_store (h : s.soscvld = true) {v : Word} (hkeep : r ≠ .sosccsr ∨ enabled v = true) :
    (s.store r v).soscvld = true := by
  have hsoscvld : (s.store r v).soscvld = (s.soscvld && (r != .sosccsr || enabled v)) := rfl
  rw [hsoscvld, h, Bool.true_and, Bool.or_eq_true]
  exact hkeep.imp_left bne_iff_ne.mpr

/-- What a write leaves as it was, and what it sets. -/
theorem knowing_store (h : (knowing facts P valid).holds s) {v : Word}
    (hkeep : r ≠ .sosccsr ∨ enabled v = true)
    (hregs : ∀ regs, P regs → Q (Function.update regs r v)) :
    (knowing facts Q valid).holds (s.store r v) :=
  ⟨h.1, hregs _ h.2.1, fun hv => soscvld_store (h.2.2 hv) hkeep⟩

/-- What is learned from a read that ends a wait. -/
theorem knowing_read (h : (knowing facts P valid).holds s) (r : ScgReg) (hfacts : facts') :
    (knowing facts' P valid).holds (s.access r none) :=
  ⟨hfacts, h.2⟩

end ConfiguredLemmas

/-- At the start. -/
def atStart (s₀ : Clocks) : Assertion Settles fun _ => True :=
  knowing True (fun regs => regs .sosccsr = s₀.regs .sosccsr ∧ regs .spllcsr = s₀.regs .spllcsr)
    s₀.soscvld

/-- With the PLL disabled. -/
def atPll (reset : ScgReg → Word) (s₀ : Clocks) : Assertion Settles fun _ => True :=
  knowing (s₀.soscvld = false ∧ lkIs1 (s₀.regs .sosccsr) = false ∧
    lkIs1 (s₀.regs .spllcsr) = false) (fun regs => regs .spllcsr = setField (reset .spllcsr) 0 1 0)
    false

/-- Behind the last lock. -/
def atEnd (reset : ScgReg → Word) (s₀ : Clocks) : Assertion Settles fun _ => True :=
  knowing (Passable reset s₀) (fun _ => True) false

namespace ConfiguredLemmas

theorem enabled_setField (w : Word) : enabled (setField w 0 1 1) = true := by
  unfold enabled
  rw [getField_setField _ _ (by decide)]
  decide

theorem not_enabled_setField (w : Word) : enabled (setField w 0 1 0) = false := by
  unfold enabled
  rw [getField_setField _ _ (by decide)]
  decide

theorem lkIs1_enable (w v : Word) : lkIs1 (setField w 0 1 v) = lkIs1 w := by
  unfold lkIs1
  rw [getField_setField_of_disjoint _ _ (by decide) (Or.inr (by decide))]

end ConfiguredLemmas

/-- `configure_spll_clock`, as far as it gets. -/
theorem configure_waits (reset : ScgReg → Word) (s₀ : Clocks) :
    Outline scgHw (fun _ => atEnd reset s₀) (atStart s₀) (configureSpllClock reset) := by
  -- SOSC_init_8Mhz
  refine .write (atStart s₀) (fun s hs => knowing_store hs (Or.inl (by decide)) fun _ h => h) ?_
  refine .write (atStart s₀) (fun s hs => knowing_store hs (Or.inl (by decide)) fun _ h => h) ?_
  refine .poll (atStart s₀) (knowing (lkIs1 (s₀.regs .sosccsr) = false)
      (fun regs => regs .sosccsr = s₀.regs .sosccsr ∧ regs .spllcsr = s₀.regs .spllcsr) s₀.soscvld)
    (fun s hs => hs) (fun s hs _ => hs) (fun s hs hlk => knowing_read hs _ ?_) ?_
  · rw [← hs.2.1.1]
    exact (lkIs1_setField _ _).symm.trans hlk
  refine .write (knowing (lkIs1 (s₀.regs .sosccsr) = false)
      (fun regs => regs .spllcsr = s₀.regs .spllcsr) s₀.soscvld)
    (fun s hs => knowing_store hs (Or.inr (enabled_setField _)) fun _ h => h.2) ?_
  refine .poll _ (knowing (s₀.soscvld = false ∧ lkIs1 (s₀.regs .sosccsr) = false)
      (fun regs => regs .spllcsr = s₀.regs .spllcsr) s₀.soscvld)
    (fun s hs => hs) (fun s hs _ => hs) (fun s hs hvld => knowing_read hs _ ⟨?_, hs.1⟩) ?_
  · -- an oscillator that was valid at the start still is
    have hclear : s.soscvld = false := (soscvld_of_read s).symm.trans hvld
    rw [Bool.eq_false_iff]
    intro hstart
    rw [hs.2.2 hstart] at hclear
    cases hclear
  -- SPLL_init_160Mhz
  refine .poll _ (knowing (s₀.soscvld = false ∧ lkIs1 (s₀.regs .sosccsr) = false ∧
      lkIs1 (s₀.regs .spllcsr) = false) (fun _ => True) false)
    (fun s hs => hs) (fun s hs _ => hs)
    (fun s hs hlk => ⟨⟨hs.1.1, hs.1.2, ?_⟩, trivial, fun hv => by cases hv⟩) ?_
  · rw [← hs.2.1]
    exact (lkIs1_setField _ _).symm.trans hlk
  refine .write (atPll reset s₀)
    (fun s hs => knowing_store hs (Or.inl (by decide)) fun _ _ => Function.update_self _ _ _) ?_
  refine .write (atPll reset s₀)
    (fun s hs => knowing_store hs (Or.inl (by decide)) fun _ h => h) ?_
  refine .write (atPll reset s₀)
    (fun s hs => knowing_store hs (Or.inl (by decide)) fun _ h => h) ?_
  refine .poll (atPll reset s₀) (atEnd reset s₀) (fun s hs => hs) (fun s hs _ => hs)
    (fun s hs hlk => ⟨⟨hs.1.1, hs.1.2.1, hs.1.2.2, ?_⟩, trivial, fun hv => by cases hv⟩) ?_
  · rw [← lkIs1_enable (reset .spllcsr) 0, ← hs.2.1]
    exact (lkIs1_setField _ _).symm.trans hlk
  refine .write (atEnd reset s₀)
    (fun s hs => knowing_store hs (Or.inl (by decide)) fun _ h => h) ?_
  refine .poll (atEnd reset s₀) (atEnd reset s₀) (fun s hs => hs) (fun s hs _ => hs)
    (fun s hs _ => hs) ?_
  -- NormalRUNmode_80Mhz
  refine .read (fun _ => atEnd reset s₀) (fun s hs => hs) fun w => ?_
  refine .write (atEnd reset s₀)
    (fun s hs => knowing_store hs (Or.inl (by decide)) fun _ h => h) ?_
  exact .poll (atEnd reset s₀) (atEnd reset s₀) (fun s hs => hs) (fun s hs _ => hs)
    (fun s hs _ => hs) (.done fun s hs => hs)

/-- The end of the driver. The PLL becomes valid behind the wait for it, and the
system clock follows. -/
theorem switch_mayReturn {s : Clocks} (henabled : enabled (s.regs .spllcsr) = true)
    (hclear : s.spllvld = false) :
    MayReturn scgHw Settles (do
      modifyReg .configureSpllClock .rccr fun w =>
        setField (setField (setField (setField w 24 4 6) 16 4 0b01) 4 4 0b01) 0 4 0b10
      pollReg .configureSpllClock .csr scsIsNot6 : Driver Unit) s := by
  refine .of_read (.of_write (.of_tick (.spll henabled ?_) (.of_tick (.switch ?_ fun _ => rfl)
    (.of_leave ?_ .of_done))))
  · simp [scgHw, Clocks.store, Clocks.access, hclear]
  · intro hsosc
    cases (scsOf_rccr _).symm.trans hsosc
  · refine (scsIsNot6_switch _).trans (bne_eq_false_iff_eq.mpr ?_)
    exact scsOf_rccr _

theorem configure_mayReturn {reset : ScgReg → Word} {s : Clocks} (h : Passable reset s) :
    MayReturn scgHw Settles (configureSpllClock reset) s := by
  have hreset : lkIs1 (setField (reset .spllcsr) 0 1 0) = false := by
    rw [lkIs1_enable]
    exact h.reset
  have hdisabled : enabled (setField (reset .spllcsr) 0 1 0#32) = false := not_enabled_setField _
  -- SOSC_init_8Mhz
  refine .of_write (.of_write (.of_leave ?_ (.of_write (.of_leave ?_ ?_))))
  · exact (sosc_locked_of_read _).trans h.sosccsr
  · refine (soscvld_of_read _).trans ?_
    simp [scgHw, Clocks.store, Clocks.access, h.sosc]
  -- SPLL_init_160Mhz
  refine .of_leave ?_ (.of_write (.of_write (.of_write (.of_leave ?_ (.of_write
    (.of_leave ?_ ?_))))))
  · exact (spll_locked_of_read _).trans h.spllcsr
  · exact (spll_locked_of_read _).trans hreset
  · refine (spllvld_of_read _).trans ?_
    simp [scgHw, Clocks.store, Clocks.access, hdisabled]
  -- NormalRUNmode_80Mhz
  refine switch_mayReturn (enabled_setField (reset .spllcsr)) ?_
  simp [scgHw, Clocks.store, Clocks.access, hdisabled]

/-- From any state, and however the moves of the clock generator fall between the
accesses: there is a run in which the driver returns exactly if the oscillator is not
valid at the start, and neither control register is locked then or by the value
that disables the PLL. From any other state it waits forever. -/
theorem configure_returns_iff (reset : ScgReg → Word) (s : Clocks) :
    MayReturn scgHw Settles (configureSpllClock reset) s ↔ Passable reset s := by
  constructor
  · rintro ⟨u, s', hrun⟩
    have hstart : (atStart s).holds s := ⟨trivial, ⟨rfl, rfl⟩, fun h => h⟩
    exact (((configure_waits reset s).sound hstart hrun).2 u rfl).1
  · exact configure_mayReturn

/-! ## What the driver has set up -/

/-- The system clock runs from the PLL, and the registers hold what the driver is
there to set. `hgo` is the gain of the oscillator. -/
structure Configured (hgo : Word) (s : Clocks) : Prop where
  source : getField (s.value .csr) 24 4 = 6
  pll : s.spllvld = true
  soscdiv : getField (s.regs .soscdiv) 0 3 = 0b001 ∧ getField (s.regs .soscdiv) 8 3 = 0b001
  sosccfg : getField (s.regs .sosccfg) 4 2 = 0b10 ∧ getField (s.regs .sosccfg) 3 1 = hgo ∧
    getField (s.regs .sosccfg) 2 1 = 1
  sosccsr : enabled (s.regs .sosccsr) = true
  splldiv : getField (s.regs .splldiv) 0 3 = 0b010 ∧ getField (s.regs .splldiv) 8 3 = 0b011
  spllcfg : getField (s.regs .spllcfg) 16 5 = 0b11000
  spllcsr : enabled (s.regs .spllcsr) = true
  rccr : scsOf (s.regs .rccr) = 6 ∧ getField (s.regs .rccr) 16 4 = 0b01 ∧
    getField (s.regs .rccr) 4 4 = 0b01 ∧ getField (s.regs .rccr) 0 4 = 0b10

/-- The values that have been written to the registers so far. -/
abbrev Written := ScgReg → Option Word

/-- The registers hold them. -/
def Written.Held (f : Written) (s : Clocks) : Prop := ∀ r v, f r = some v → s.regs r = v

/-- The system clock does not run from the PLL, and is not asked to. -/
structure Elsewhere (s : Clocks) : Prop where
  source : scsIsNot6 (s.value .csr) = true
  asked : scsOf (s.regs .rccr) ≠ 6

namespace ConfiguredLemmas

variable {s s' : Clocks}

theorem held_tick {f : Written} (h : Settles s s') (hheld : f.Held s) : f.Held s' := by
  cases h with
  | sosc _ _ => exact hheld
  | spll _ _ => exact hheld
  | switch _ _ => exact hheld

theorem elsewhere_tick (h : Settles s s') (hs : Elsewhere s) : Elsewhere s' := by
  cases h with
  | sosc _ _ => exact ⟨hs.source, hs.asked⟩
  | spll _ _ => exact ⟨hs.source, hs.asked⟩
  | switch _ _ =>
    refine ⟨?_, hs.asked⟩
    rw [scsIsNot6_switch]
    exact bne_iff_ne.mpr hs.asked

theorem held_store {f : Written} (h : f.Held s) (r : ScgReg) (v : Word) :
    Written.Held (Function.update f r (some v)) (s.store r v) := by
  intro r' v' hv'
  by_cases hr : r' = r
  · subst hr
    rw [Function.update_self] at hv'
    exact (Function.update_self _ _ _).trans (Option.some.inj hv')
  · rw [Function.update_of_ne hr] at hv'
    exact (Function.update_of_ne hr _ _).trans (h r' v' hv')

theorem elsewhere_store (h : Elsewhere s) {r : ScgReg} (hcsr : r ≠ .csr) (hrccr : r ≠ .rccr)
    (v : Word) : Elsewhere (s.store r v) := by
  have hrccr' : (s.store r v).regs .rccr = s.regs .rccr := Function.update_of_ne hrccr.symm _ _
  have hcsr' : (s.store r v).regs .csr = s.regs .csr := Function.update_of_ne hcsr.symm _ _
  refine ⟨?_, ?_⟩
  · have hvalue : (s.store r v).value .csr = s.value .csr :=
      congrArg (setField · 24 4 s.scs) hcsr'
    rw [hvalue]
    exact h.source
  · rw [hrccr']
    exact h.asked

end ConfiguredLemmas

/-- The registers written so far, before the system clock is switched. -/
def before (f : Written) : Assertion Settles fun _ => True where
  holds s := f.Held s ∧ Elsewhere s
  stable _ _ ht h := ⟨held_tick ht h.1, elsewhere_tick ht h.2⟩
  safe _ _ := trivial

/-- The same, after it. The clock generator does not switch to a PLL that is not
valid. -/
def after (f : Written) : Assertion Settles fun _ => True where
  holds s := f.Held s ∧ scsOf (s.regs .rccr) = 6 ∧
    (scsIsNot6 (s.value .csr) = false → s.spllvld = true)
  stable := by
    rintro s s' ht ⟨hheld, hasked, hvalid⟩
    refine ⟨held_tick ht hheld, ?_⟩
    cases ht with
    | sosc _ _ => exact ⟨hasked, hvalid⟩
    | spll _ _ => exact ⟨hasked, fun _ => rfl⟩
    | switch _ hspll => exact ⟨hasked, fun _ => hspll hasked⟩
  safe _ _ := trivial

/-- What the driver returns with. -/
def configured (hgo : Word) : Assertion Settles fun _ => True where
  holds := Configured hgo
  stable := by
    intro s s' ht h
    cases ht with
    | sosc _ _ => exact { h with }
    | spll _ _ => exact { h with pll := rfl }
    | switch _ _ =>
      refine { h with source := ?_ }
      rw [source_of_read]
      exact (mask_scsOf _).trans h.rccr.1
  safe _ _ := trivial

namespace ConfiguredLemmas

variable {s : Clocks} {f : Written} {r : ScgReg}

theorem before_read (h : (before f).holds s) (r : ScgReg) : (before f).holds (s.access r none) :=
  ⟨h.1, h.2.source, h.2.asked⟩

theorem before_store (h : (before f).holds s) (v : Word) (hcsr : r ≠ .csr) (hrccr : r ≠ .rccr) :
    (before (Function.update f r (some v))).holds (s.store r v) :=
  ⟨held_store h.1 r v, elsewhere_store h.2 hcsr hrccr v⟩

theorem after_store (h : (before f).holds s) {v : Word} (hv : scsOf v = 6) :
    (after (Function.update f .rccr (some v))).holds (s.store .rccr v) := by
  refine ⟨held_store h.1 .rccr v, hv, fun hsource => ?_⟩
  have hvalue : (s.store .rccr v).value .csr = s.value .csr := rfl
  rw [hvalue, h.2.source] at hsource
  cases hsource

end ConfiguredLemmas

/-- `configure_spll_clock`, while the system clock runs from another source. -/
theorem configure_before (reset : ScgReg → Word) :
    Outline scgHw (fun _ => configured 1) (before fun _ => none) (configureSpllClock reset) := by
  -- SOSC_init_8Mhz
  refine .write _ (fun s hs => before_store hs _ (by decide) (by decide)) ?_
  refine .write _ (fun s hs => before_store hs _ (by decide) (by decide)) ?_
  refine .poll _ _ (fun s hs => hs) (fun s hs _ => before_read hs _)
    (fun s hs _ => before_read hs _) ?_
  refine .write _ (fun s hs => before_store hs _ (by decide) (by decide)) ?_
  refine .poll _ _ (fun s hs => hs) (fun s hs _ => before_read hs _)
    (fun s hs _ => before_read hs _) ?_
  -- SPLL_init_160Mhz
  refine .poll _ _ (fun s hs => hs) (fun s hs _ => before_read hs _)
    (fun s hs _ => before_read hs _) ?_
  refine .write _ (fun s hs => before_store hs _ (by decide) (by decide)) ?_
  refine .write _ (fun s hs => before_store hs _ (by decide) (by decide)) ?_
  refine .write _ (fun s hs => before_store hs _ (by decide) (by decide)) ?_
  refine .poll _ _ (fun s hs => hs) (fun s hs _ => before_read hs _)
    (fun s hs _ => before_read hs _) ?_
  refine .write _ (fun s hs => before_store hs _ (by decide) (by decide)) ?_
  refine .poll _ _ (fun s hs => hs) (fun s hs _ => before_read hs _)
    (fun s hs _ => before_read hs _) ?_
  -- NormalRUNmode_80Mhz
  refine .read (fun _ => _) (fun s hs => before_read hs _) fun w => ?_
  refine .write (after _) (fun s hs => after_store hs (scsOf_rccr w)) ?_
  refine .poll _ (configured 1) (fun s hs => hs) (fun s hs _ => hs) ?_ (.done fun s hs => hs)
  rintro s ⟨hheld, _, hvalid⟩ hsource
  have hconfigured : Configured 1 s := by
    constructor
    case source => exact bne_eq_false_iff_eq.mp hsource
    case pll => exact hvalid hsource
    case soscdiv =>
      rw [hheld .soscdiv _ rfl]
      simp (disch := decide) only [getField_setField_of_disjoint, getField_setField]
      decide
    case sosccfg =>
      rw [hheld .sosccfg _ rfl]
      simp (disch := decide) only [getField_setField_of_disjoint, getField_setField]
      decide
    case sosccsr =>
      rw [hheld .sosccsr _ rfl]
      simp (disch := decide) only [enabled, getField_setField]
      decide
    case splldiv =>
      rw [hheld .splldiv _ rfl]
      simp (disch := decide) only [getField_setField_of_disjoint, getField_setField]
      decide
    case spllcfg =>
      rw [hheld .spllcfg _ rfl]
      simp (disch := decide) only [getField_setField]
      decide
    case spllcsr =>
      rw [hheld .spllcsr _ rfl]
      simp (disch := decide) only [enabled, getField_setField]
      decide
    case rccr =>
      rw [hheld .rccr _ rfl]
      simp (disch := decide) only [scsOf, getField_setField_of_disjoint, getField_setField]
      decide
  exact { hconfigured with }

/-- For every run, however the moves of the clock generator fall between the accesses
of the driver, from any state in which the system clock runs from another source and
is not asked to run from the PLL: when the driver has returned, the system clock runs
from the PLL, which is valid, and every field is set. -/
theorem configured_of_returns (reset : ScgReg → Word) (s s' : Clocks) (u : Unit)
    (hsource : scsIsNot6 (s.value .csr) = true) (hasked : scsOf (s.regs .rccr) ≠ 6)
    (h : Run scgHw Settles (configureSpllClock reset, s) (.done u, s')) : Configured 1 s' := by
  have hstart : (before fun _ => none).holds s :=
    ⟨fun _ _ hv => (Option.some_ne_none _ hv.symm).elim, hsource, hasked⟩
  exact ((configure_before reset).sound hstart h).2 u rfl

theorem configured_of_returns_cold : ∃ s' : Clocks,
    Run scgHw Settles (configureSpllClock fun _ => 0, .cold) (.done (), s') ∧ Configured 1 s' := by
  have hpassable : Passable (fun _ => 0) .cold := ⟨rfl, by decide, by decide, by decide⟩
  obtain ⟨u, s', hrun⟩ := configure_mayReturn hpassable
  exact ⟨s', hrun, configured_of_returns _ _ _ u (by decide +kernel) (by decide +kernel) hrun⟩

end Scg
