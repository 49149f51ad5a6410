import DaredevilSmall.Scg.Configured

/-!
# The reference of the clock configuration

`SOSC_init_8MHz`, `SPLL_init_160MHz` and `NormalRUNmode_80MHz` of the reference
example for CAN FD, which `configure_spll_clock` is a port of. The same registers
are written in the same order. But the reference waits for the clocks to become
valid.

1. `reference_returns_iff`: the reference can return from every state in which no
   register is locked, also when the oscillator is valid already.
2. `reference_valid`: every run moves on to valid clocks, and one that has returned
   has set up what the port sets up, but for the gain of the oscillator.
-/

namespace Scg

namespace Reference

open Mmio ValidityLemmas ConfiguredLemmas

/-! ## The functions -/

inductive Site where
  | soscInit8MHz | spllInit160MHz | normalRunMode80MHz
  deriving DecidableEq, Repr

/-- A program of the reference. -/
abbrev Driver := Prog ScgReg Site

/-- `SOSCCSR & SCG_SOSCCSR_LK_MASK`, and the same of `SPLLCSR`. -/
def lkIsSet (v : Word) : Bool := v &&& 0x800000 != 0

/-- `!(SOSCCSR & SCG_SOSCCSR_SOSCVLD_MASK)`, and the same of `SPLLCSR`. -/
def vldIsClear (v : Word) : Bool := v &&& 0x1000000 == 0

/-- `((CSR & SCG_CSR_SCS_MASK) >> SCG_CSR_SCS_SHIFT) != 6`. -/
def scsIsNot6 (v : Word) : Bool := (v &&& 0xF000000) >>> 24 != 6

/-- `SOSC_init_8MHz`. -/
def soscInit8MHz : Driver Unit := do
  writeReg .soscInit8MHz .soscdiv 0x00000101 -- SOSCDIV1 & SOSCDIV2 =1: divide by 1
  writeReg .soscInit8MHz .sosccfg 0x00000024 -- Range=2, HGO=0, EREFS=1
  pollReg .soscInit8MHz .sosccsr lkIsSet -- Ensure SOSCCSR unlocked
  writeReg .soscInit8MHz .sosccsr 0x00000001 -- SOSCEN=1: Enable oscillator
  pollReg .soscInit8MHz .sosccsr vldIsClear -- Wait for sys OSC clk valid

/-- `SPLL_init_160MHz`. -/
def spllInit160MHz : Driver Unit := do
  pollReg .spllInit160MHz .spllcsr lkIsSet -- Ensure SPLLCSR unlocked
  writeReg .spllInit160MHz .spllcsr 0x00000000 -- SPLLEN=0: SPLL is disabled (default)
  writeReg .spllInit160MHz .splldiv 0x00000302 -- SPLLDIV1 divide by 2; SPLLDIV2 divide by 4
  writeReg .spllInit160MHz .spllcfg 0x00180000 -- PREDIV=0, MULT=24
  pollReg .spllInit160MHz .spllcsr lkIsSet -- Ensure SPLLCSR unlocked
  writeReg .spllInit160MHz .spllcsr 0x00000001 -- SPLLEN=1: Enable SPLL
  pollReg .spllInit160MHz .spllcsr vldIsClear -- Wait for SPLL valid

/-- `NormalRUNmode_80MHz`. -/
def normalRunMode80MHz : Driver Unit := do
  writeReg .normalRunMode80MHz .rccr
    ((6 : Word) <<< 24 ||| (0b01 : Word) <<< 16 ||| (0b01 : Word) <<< 4 ||| 0b10)
  pollReg .normalRunMode80MHz .csr scsIsNot6 -- Wait for sys clk src = SPLL

/-- The three calls of `main`. -/
def clocks : Driver Unit := do
  soscInit8MHz
  spllInit160MHz
  normalRunMode80MHz

namespace ReferenceLemmas

/-- A bit of a register, as the reference tests it and as the port does. -/
theorem bit_eq (v : Word) {i : Nat} (hi : i < 32) :
    (v &&& BitVec.twoPow 32 i != 0) = (getField v i 1 == 1) := by
  have hone : (v >>> i) &&& 1 = BitVec.setWidth 32 (BitVec.ofBool ((v >>> i).getLsbD 0)) :=
    BitVec.and_one_eq_setWidth_ofBool_getLsbD
  have hfield : getField v i 1 = (v >>> i) &&& 1 := rfl
  rw [hfield, hone, BitVec.getLsbD_ushiftRight, Nat.add_zero, BitVec.and_twoPow]
  cases v.getLsbD i with
  | false => rfl
  | true =>
    have hbit : BitVec.twoPow 32 i ≠ 0 := by
      intro h
      have hset := congrArg (BitVec.getLsbD · i) h
      simp [hi] at hset
    simpa using hbit

theorem lkIsSet_eq (v : Word) : lkIsSet v = lkIs1 v := bit_eq v (show 23 < 32 by decide)

theorem vldIsClear_eq (v : Word) : vldIsClear v = !vldIs1 v := by
  unfold vldIs1
  rw [← bit_eq v (show 24 < 32 by decide)]
  exact (Bool.not_not _).symm

theorem scsIsNot6_eq (v : Word) : scsIsNot6 v = Scg.scsIsNot6 v := by
  unfold scsIsNot6 Scg.scsIsNot6
  rw [BitVec.ushiftRight_and_distrib]
  rfl

end ReferenceLemmas

open ReferenceLemmas

/-! ## Whether it returns -/

namespace ReferenceLemmas

/-- The part behind the oscillator. The PLL becomes valid during the wait for it. -/
theorem spll_mayReturn {s : Clocks} (hlock : lkIs1 (s.regs .spllcsr) = false) :
    MayReturn scgHw Settles (do
      spllInit160MHz
      normalRunMode80MHz : Driver Unit) s := by
  have hunlocked : lkIs1 0 = false := by decide
  have hdisabled : enabled 0#32 = false := by decide
  have henabled : enabled 1 = true := by decide
  have hpll : scsOf 0x06010012 = 6 := by decide
  refine .of_leave ?_ (.of_write (.of_write (.of_write (.of_leave ?_ (.of_write
    (.of_tick (.spll ?_ ?_) (.of_leave ?_ ?_)))))))
  · rw [lkIsSet_eq]
    exact (spll_locked_of_read _).trans hlock
  · rw [lkIsSet_eq]
    exact (spll_locked_of_read _).trans hunlocked
  · exact henabled
  · simp [scgHw, Clocks.store, Clocks.access, hdisabled]
  · rw [vldIsClear_eq, Bool.not_eq_false']
    exact spllvld_of_read _
  refine .of_write (.of_tick (.switch (fun hsosc => ?_) fun _ => ?_) (.of_leave ?_ .of_done))
  · cases hpll.symm.trans hsosc
  · rfl
  · rw [scsIsNot6_eq]
    exact (scsIsNot6_switch _).trans (bne_eq_false_iff_eq.mpr hpll)

theorem clocks_mayReturn {s : Clocks} (hsosc : lkIs1 (s.regs .sosccsr) = false)
    (hspll : lkIs1 (s.regs .spllcsr) = false) : MayReturn scgHw Settles clocks s := by
  refine .of_write (.of_write (.of_leave ?_ (.of_write ?_)))
  · rw [lkIsSet_eq]
    exact (sosc_locked_of_read _).trans hsosc
  have henabled : enabled 1 = true := by decide
  cases hvld : s.soscvld with
  | true =>
    refine .of_leave ?_ (spll_mayReturn hspll)
    rw [vldIsClear_eq, Bool.not_eq_false']
    refine (soscvld_of_read _).trans ?_
    simpa [scgHw, Clocks.store, Clocks.access, hvld] using henabled
  | false =>
    refine .of_tick (.sosc henabled ?_) (.of_leave ?_ (spll_mayReturn hspll))
    · simp [scgHw, Clocks.store, Clocks.access, hvld]
    · rw [vldIsClear_eq, Bool.not_eq_false']
      exact soscvld_of_read _

/-- The reference, as far as it gets. -/
theorem clocks_waits (s₀ : Clocks) :
    Outline scgHw
      (fun _ => knowing (lkIs1 (s₀.regs .sosccsr) = false ∧ lkIs1 (s₀.regs .spllcsr) = false)
        (fun _ => True) false)
      (knowing True (fun regs => regs .sosccsr = s₀.regs .sosccsr ∧
        regs .spllcsr = s₀.regs .spllcsr) false) clocks := by
  -- SOSC_init_8MHz
  refine .write (knowing True (fun regs => regs .sosccsr = s₀.regs .sosccsr ∧
      regs .spllcsr = s₀.regs .spllcsr) false)
    (fun s hs => knowing_store hs (Or.inl (by decide)) fun _ h => h) ?_
  refine .write (knowing True (fun regs => regs .sosccsr = s₀.regs .sosccsr ∧
      regs .spllcsr = s₀.regs .spllcsr) false)
    (fun s hs => knowing_store hs (Or.inl (by decide)) fun _ h => h) ?_
  refine .poll _ (knowing (lkIs1 (s₀.regs .sosccsr) = false)
      (fun regs => regs .sosccsr = s₀.regs .sosccsr ∧ regs .spllcsr = s₀.regs .spllcsr) false)
    (fun s hs => hs) (fun s hs _ => hs) (fun s hs hlk => knowing_read hs _ ?_) ?_
  · rw [lkIsSet_eq] at hlk
    rw [← hs.2.1.1]
    exact (lkIs1_setField _ _).symm.trans hlk
  refine .write (knowing (lkIs1 (s₀.regs .sosccsr) = false)
      (fun regs => regs .spllcsr = s₀.regs .spllcsr) false)
    (fun s hs => knowing_store hs (Or.inr (by decide)) fun _ h => h.2) ?_
  refine .poll _ (knowing (lkIs1 (s₀.regs .sosccsr) = false)
      (fun regs => regs .spllcsr = s₀.regs .spllcsr) false)
    (fun s hs => hs) (fun s hs _ => hs) (fun s hs _ => hs) ?_
  -- SPLL_init_160MHz
  refine .poll _ (knowing (lkIs1 (s₀.regs .sosccsr) = false ∧ lkIs1 (s₀.regs .spllcsr) = false)
      (fun _ => True) false)
    (fun s hs => hs) (fun s hs _ => hs) (fun s hs hlk => ⟨⟨hs.1, ?_⟩, trivial, hs.2.2⟩) ?_
  · rw [lkIsSet_eq] at hlk
    rw [← hs.2.1]
    exact (lkIs1_setField _ _).symm.trans hlk
  -- nothing is learned from here on
  exact Outline.frame
    (show Prog.Within (fun r : ScgReg => r ≠ .sosccsr) _ from ⟨by decide, by decide, by decide,
      by decide, by decide, by decide, by decide, by decide, trivial⟩)
    (fun r s _ hs => hs) fun r v s hr hs => knowing_store hs (Or.inl hr) fun _ h => h

end ReferenceLemmas

/-- From any state: there is a run in which the reference returns exactly if neither
control register is locked at the start. -/
theorem reference_returns_iff (s : Clocks) :
    MayReturn scgHw Settles clocks s ↔
      lkIs1 (s.regs .sosccsr) = false ∧ lkIs1 (s.regs .spllcsr) = false := by
  constructor
  · rintro ⟨u, s', hrun⟩
    have hstart : (knowing True (fun regs => regs .sosccsr = s.regs .sosccsr ∧
        regs .spllcsr = s.regs .spllcsr) false).holds s :=
      ⟨trivial, ⟨rfl, rfl⟩, fun h => absurd h Bool.false_ne_true⟩
    exact (((clocks_waits s).sound hstart hrun).2 u rfl).1
  · rintro ⟨hsosc, hspll⟩
    exact clocks_mayReturn hsosc hspll

/-! ## What is known at each point -/

/-- So far every clock has been valid when it was needed. Of the oscillator and of
the PLL it is known whether they are valid by now, and of one register that it is
not locked. -/
def reached (f : Written) (sosc spll : Bool) (free : ScgReg) :
    Assertion Settles fun s => ValidClocks s.log where
  holds s := ValidClocks s.log ∧ f.Held s ∧ (sosc = true → s.soscvld = true) ∧
    (spll = true → s.spllvld = true) ∧ s.locked free = false
  stable := by
    rintro s s' ht ⟨hvalid, hheld, hsosc, hspll, hfree⟩
    refine ⟨?_, held_tick ht hheld, ?_⟩
    · cases ht with
      | sosc _ _ => exact hvalid
      | spll _ _ => exact hvalid
      | switch _ _ => exact hvalid
    · cases ht with
      | sosc _ _ => exact ⟨fun _ => rfl, hspll, hfree⟩
      | spll _ _ => exact ⟨hsosc, fun _ => rfl, hfree⟩
      | switch _ _ => exact ⟨hsosc, hspll, hfree⟩
  safe _ h := h.1

namespace ReferenceLemmas

variable {s : Clocks} {f : Written} {sosc spll : Bool} {free r : ScgReg}

theorem validClocks_nil : ValidClocks [] := by
  refine ⟨fun e he => ?_, fun e he => ?_, fun e he => ?_⟩
  · cases he
  · cases he
  · cases he

theorem firstSpllcsr_snoc {log : List Access} {e e' : Access}
    (h : firstSpllcsr (log ++ [e]) = some e') :
    firstSpllcsr log = some e' ∨ e.reg = .spllcsr ∧ e' = e := by
  rw [firstSpllcsr_append] at h
  cases hfound : firstSpllcsr log with
  | some e₀ =>
    rw [hfound, Option.some_or] at h
    exact Or.inl h
  | none =>
    rw [hfound, Option.none_or] at h
    split at h
    · next hreg => exact Or.inr ⟨eq_of_beq hreg, (Option.some.inj h).symm⟩
    · cases h

theorem validClocks_append {log : List Access} (h : ValidClocks log) {e : Access}
    (hsosc : e.reg = .spllcsr → e.soscvld = true)
    (hspll : e.reg = .rccr → e.spllvld = true)
    (hlock : e.written.isSome → e.locked = false) : ValidClocks (log ++ [e]) := by
  refine ⟨fun e' he' => ?_, fun e' he' => ?_, fun e' he' => ?_⟩
  · cases firstSpllcsr_snoc he' with
    | inl hold => exact h.sosc e' hold
    | inr hnew =>
      obtain ⟨hreg, rfl⟩ := hnew
      exact hsosc hreg
  · cases List.mem_append.mp he' with
    | inl hold => exact h.spll e' hold
    | inr hnew =>
      obtain rfl := List.mem_singleton.mp hnew
      exact fun hreg _ _ _ => hspll hreg
  · cases List.mem_append.mp he' with
    | inl hold => exact h.unlocked e' hold
    | inr hnew =>
      obtain rfl := List.mem_singleton.mp hnew
      exact hlock

/-- A read, of a register that needs no more than is known to be valid. -/
theorem reached_read (h : (reached f sosc spll free).holds s) (hsosc : r = .spllcsr → sosc = true)
    (hrccr : r ≠ .rccr) : (reached f sosc spll free).holds (s.access r none) := by
  obtain ⟨hvalid, hheld, hs, hp, hfree⟩ := h
  refine ⟨validClocks_append hvalid (fun hr => hs (hsosc hr)) (fun hr => absurd hr hrccr)
    (fun hwrite => absurd hwrite Bool.false_ne_true), hheld, hs, hp, hfree⟩

/-- So is a write. The clock that it configures is not known to be valid any more. -/
theorem reached_store (h : (reached f sosc spll free).holds s) (v : Word)
    (hsosc : r = .spllcsr → sosc = true) (hspll : r = .rccr → spll = true)
    (hlock : s.locked r = false) :
    (reached (Function.update f r (some v)) (sosc && r != .sosccsr) (spll && r != .spllcsr)
      .soscdiv).holds (s.store r v) := by
  obtain ⟨hvalid, hheld, hs, hp, _⟩ := h
  refine ⟨validClocks_append hvalid (fun hr => hs (hsosc hr)) (fun hr => hp (hspll hr))
    (fun _ => hlock), held_store hheld r v, fun ha => ?_, fun hb => ?_, rfl⟩
  · obtain ⟨hknown, hkeep⟩ := Bool.and_eq_true_iff.mp ha
    exact soscvld_store (hs hknown) (Or.inl (bne_iff_ne.mp hkeep))
  · obtain ⟨hknown, hkeep⟩ := Bool.and_eq_true_iff.mp hb
    have hspllvld : (s.store r v).spllvld = (s.spllvld && (r != .spllcsr || enabled v)) := rfl
    rw [hspllvld, hp hknown, hkeep]
    rfl

end ReferenceLemmas

/-- What the reference returns with. -/
def returned : Assertion Settles fun s => ValidClocks s.log where
  holds s := ValidClocks s.log ∧ s.soscvld = true ∧ Configured 0 s
  stable := by
    rintro s s' ht ⟨hvalid, hsosc, hconfigured⟩
    have hconfigured' : Configured 0 s' := (configured 0).stable _ _ ht hconfigured
    cases ht with
    | sosc _ _ => exact ⟨hvalid, rfl, hconfigured'⟩
    | spll _ _ => exact ⟨hvalid, hsosc, hconfigured'⟩
    | switch _ _ => exact ⟨hvalid, hsosc, hconfigured'⟩
  safe _ h := h.1

namespace ReferenceLemmas

variable {f : Written} {sosc spll : Bool} {free r : ScgReg} {k : Driver Unit} {site : Site}

theorem outline_write {v : Word} (hsosc : r = .spllcsr → sosc = true)
    (hspll : r = .rccr → spll = true)
    (hlock : ∀ s : Clocks, s.locked free = false → s.locked r = false)
    (hk : Outline scgHw (fun _ => returned) (reached (Function.update f r (some v))
      (sosc && r != .sosccsr) (spll && r != .spllcsr) .soscdiv) k) :
    Outline scgHw (fun _ => returned) (reached f sosc spll free) (.write site r v k) :=
  .write _ (fun s hs => reached_store hs v hsosc hspll (hlock s hs.2.2.2.2)) hk

/-- The wait for a register that is locked. -/
theorem outline_unlock (hr : r = .sosccsr ∨ r = .spllcsr) (hsosc : r = .spllcsr → sosc = true)
    (hk : Outline scgHw (fun _ => returned) (reached f sosc spll r) k) :
    Outline scgHw (fun _ => returned) (reached f sosc spll free) (.poll site r lkIsSet k) := by
  have hrccr : r ≠ .rccr := by
    rcases hr with rfl | rfl <;> decide
  refine .poll _ (reached f sosc spll r) (fun s hs => hs)
    (fun s hs _ => reached_read hs hsosc hrccr) (fun s hs hlk => ?_) hk
  obtain ⟨hvalid, hheld, hs', hp, _⟩ := reached_read hs hsosc hrccr
  refine ⟨hvalid, hheld, hs', hp, ?_⟩
  rw [lkIsSet_eq] at hlk
  rcases hr with rfl | rfl
  · exact (sosc_locked_of_read s).symm.trans hlk
  · exact (spll_locked_of_read s).symm.trans hlk

/-- The wait for the oscillator. -/
theorem outline_sosc (hk : Outline scgHw (fun _ => returned) (reached f true spll free) k) :
    Outline scgHw (fun _ => returned) (reached f sosc spll free)
      (.poll site .sosccsr vldIsClear k) := by
  have hread (s : Clocks) (hs : (reached f sosc spll free).holds s) :
      (reached f sosc spll free).holds (s.access .sosccsr none) :=
    reached_read hs (fun hr => by cases hr) (by decide)
  refine .poll _ (reached f true spll free) (fun s hs => hs) (fun s hs _ => hread s hs)
    (fun s hs hvld => ?_) hk
  obtain ⟨hvalid, hheld, _, hp, hfree⟩ := hread s hs
  rw [vldIsClear_eq, Bool.not_eq_false'] at hvld
  exact ⟨hvalid, hheld, fun _ => (soscvld_of_read s).symm.trans hvld, hp, hfree⟩

/-- The wait for the PLL. -/
theorem outline_spll (hsosc : sosc = true)
    (hk : Outline scgHw (fun _ => returned) (reached f sosc true free) k) :
    Outline scgHw (fun _ => returned) (reached f sosc spll free)
      (.poll site .spllcsr vldIsClear k) := by
  have hread (s : Clocks) (hs : (reached f sosc spll free).holds s) :
      (reached f sosc spll free).holds (s.access .spllcsr none) :=
    reached_read hs (fun _ => hsosc) (by decide)
  refine .poll _ (reached f sosc true free) (fun s hs => hs) (fun s hs _ => hread s hs)
    (fun s hs hvld => ?_) hk
  obtain ⟨hvalid, hheld, hs', _, hfree⟩ := hread s hs
  rw [vldIsClear_eq, Bool.not_eq_false'] at hvld
  exact ⟨hvalid, hheld, hs', fun _ => (spllvld_of_read s).symm.trans hvld, hfree⟩

end ReferenceLemmas

/-- The reference, from any state of the clock generator. -/
theorem clocks_outline :
    Outline scgHw (fun _ => returned) (reached (fun _ => none) false false .soscdiv) clocks := by
  have hsame (r : ScgReg) (s : Clocks) (h : s.locked r = false) : s.locked r = false := h
  have hnever (r : ScgReg) (hr : r ≠ .sosccsr ∧ r ≠ .spllcsr) (s : Clocks) :
      s.locked r = false := by
    cases r <;> simp_all [Clocks.locked]
  -- SOSC_init_8MHz
  refine outline_write (by decide) (by decide) (fun s _ => hnever _ (by decide) s) ?_
  refine outline_write (by decide) (by decide) (fun s _ => hnever _ (by decide) s) ?_
  refine outline_unlock (Or.inl rfl) (by decide) ?_
  refine outline_write (by decide) (by decide) (hsame _) ?_
  refine outline_sosc ?_
  -- SPLL_init_160MHz
  refine outline_unlock (Or.inr rfl) (fun _ => rfl) ?_
  refine outline_write (fun _ => rfl) (by decide) (hsame _) ?_
  refine outline_write (by decide) (by decide) (fun s _ => hnever _ (by decide) s) ?_
  refine outline_write (by decide) (by decide) (fun s _ => hnever _ (by decide) s) ?_
  refine outline_unlock (Or.inr rfl) (fun _ => rfl) ?_
  refine outline_write (fun _ => rfl) (by decide) (hsame _) ?_
  refine outline_spll rfl ?_
  -- NormalRUNmode_80MHz
  refine outline_write (by decide) (fun _ => rfl) (fun s _ => hnever _ (by decide) s) ?_
  refine .poll _ returned (fun s hs => hs)
    (fun s hs _ => reached_read hs (fun hr => by cases hr) (by decide)) (fun s hs hsource => ?_)
    (.done fun s hs => hs)
  obtain ⟨hvalid, hheld, hsosc, hspll, _⟩ := reached_read (r := .csr) hs (fun hr => by cases hr)
    (by decide)
  rw [scsIsNot6_eq] at hsource
  refine ⟨hvalid, hsosc rfl, (?_ : Configured 0 (s.access .csr none))⟩
  constructor
  case source => exact bne_eq_false_iff_eq.mp hsource
  case pll => exact hspll rfl
  case soscdiv => rw [hheld .soscdiv _ rfl]; decide
  case sosccfg => rw [hheld .sosccfg _ rfl]; decide
  case sosccsr => rw [hheld .sosccsr _ rfl]; decide
  case splldiv => rw [hheld .splldiv _ rfl]; decide
  case spllcfg => rw [hheld .spllcfg _ rfl]; decide
  case spllcsr => rw [hheld .spllcsr _ rfl]; decide
  case rccr => rw [hheld .rccr _ rfl]; decide

/-- In every run of the reference, from any state of the clock generator and however
its moves fall between the accesses: no clock is used before it is valid and no
locked register is written. When it has returned, the system clock runs from the
valid PLL, with the fields that the port sets, but for the gain of the oscillator. -/
theorem reference_valid (s s' : Clocks) (hlog : s.log = []) (p : Driver Unit)
    (h : Run scgHw Settles (clocks, s) (p, s')) :
    ValidClocks s'.log ∧ ∀ u, p = .done u → s'.soscvld = true ∧ Configured 0 s' := by
  have hstart : (reached (fun _ => none) false false .soscdiv).holds s := by
    refine ⟨?_, fun _ _ hv => (Option.some_ne_none _ hv.symm).elim,
      fun ha => absurd ha Bool.false_ne_true, fun hb => absurd hb Bool.false_ne_true, rfl⟩
    rw [hlog]
    exact validClocks_nil
  obtain ⟨hvalid, hreturned⟩ := clocks_outline.sound hstart h
  exact ⟨hvalid, fun u hu => (hreturned u hu).2⟩

/-- A run that returns, after a cold start. -/
theorem reference_valid_cold : ∃ s' : Clocks,
    Run scgHw Settles (clocks, .cold) (.done (), s') ∧ ValidClocks s'.log ∧ Configured 0 s' := by
  obtain ⟨u, s', hrun⟩ := clocks_mayReturn (s := .cold) (by decide) (by decide)
  obtain ⟨hvalid, hreturned⟩ := reference_valid .cold s' rfl _ hrun
  exact ⟨s', hrun, hvalid, (hreturned u rfl).2⟩

end Reference

end Scg
