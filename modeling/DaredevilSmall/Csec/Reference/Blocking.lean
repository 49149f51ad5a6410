import DaredevilSmall.Csec.Reference.Mac
import DaredevilSmall.Csec.Reference.Cbc

/-!
# Blocking calls

A blocking call of the reference driver waits for one command after the other, and reads
the clock after each. Engine and clock are arbitrary here.

1. `ends_mac` and `ends_cbcCall`: a call comes to its end whatever the engine answers.
2. `exec_blocking`: it returns what its chain of commands ends with if every reading of the
   clock has been in time, and a timeout otherwise.
3. `exec_single`: a function of one command.
-/

namespace Csec

namespace Reference

open Mmio StepsLemmas MacChainLemmas CbcChainLemmas

variable {ε : Type}

/-! ## The end of a call -/

section Ends

variable (E : Engine ε) {c : Point ε}

/-- A MAC call ends, whatever the engine answers. -/
theorem ends_mac {kind : MacKind} (hstate : MacState kind c.1) (hbusy : c.busy = true) :
    ∃ n c', n ≤ c.left + 1 ∧ Ends Point.busy (Point.step E) n c c' := by
  refine Ends.total (fun c => MacState kind c.1) Point.left (fun c hbusy h hnext => ?_) hbusy hstate
  by_cases hok : Status.ofErrorBits (status (c.core E).1) = .success
  · by_cases hgoes : FollowedUp kind c.1.rest.length
    · have hstep : (c.step E).1 = c.1.onward := h.answered_onward hbusy hgoes hok
      have hpos : 0 < c.1.rest.length := by
        cases kind with
        | generate => exact Nat.zero_lt_of_lt hgoes
        | verify _ => exact Nat.zero_lt_of_lt hgoes
      rw [Point.left, hstep, h.rest_onward, List.length_drop]
      exact ⟨h.onward hgoes, Nat.sub_lt hpos (by decide)⟩
    · -- the last command has been answered
      exfalso
      cases kind with
      | generate =>
        have hstep := h.answered_generated (Nat.not_lt.mp hgoes) hok
        rw [Point.busy, Point.step, hstep] at hnext
        exact absurd hnext Bool.false_ne_true
      | verify _ =>
        have hstep := h.answered_verified (Nat.not_lt.mp hgoes) hok
        rw [Point.busy, Point.step, hstep] at hnext
        exact absurd hnext Bool.false_ne_true
  · rw [Point.busy, Point.step, answered_failure hok] at hnext
    exact absurd hnext Bool.false_ne_true

/-- So does a CBC call. -/
theorem ends_cbcState {direction : Direction} (hstate : CbcState direction c.1)
    (hbusy : c.busy = true) :
    ∃ n c', n ≤ c.left + 1 ∧ Ends Point.busy (Point.step E) n c c' := by
  refine Ends.total (fun c => CbcState direction c.1) Point.left (fun c hbusy h hnext => ?_) hbusy
    hstate
  by_cases hok : Status.ofErrorBits (status (c.core E).1) = .success
  · obtain ⟨bytes, hbytes⟩ : ∃ bytes,
        slice (c.core E).1 (partOffset c.1.seq) c.1.numBytes.toNat = bytes := ⟨_, rfl⟩
    have hstep := h.answered hok
    rw [hbytes] at hstep
    have hindex := h.index_collected bytes
    have hrest := h.rest_collected bytes
    by_cases hover : (c.1.collected bytes).index ≥ (c.1.collected bytes).fullSize
    · rw [Point.busy, Point.step, hstep] at hnext
      simp only [hover, if_true] at hnext
      exact absurd hnext Bool.false_ne_true
    · have hmore : (c.1.collected bytes).index.toNat < c.1.fullSize.toNat := Nat.not_le.mp hover
      have hnow : (c.step E).1 = c.1.collected bytes := by
        rw [Point.step, hstep]
        exact if_neg hover
      have hlen := h.rest_length
      have hpages := h.pages
      have hpages' := h.indexPages
      have hpart := h.numBytes
      have havail : 6 ≤ handleCbc.availPages c.1.seq := by cases c.1.seq <;> decide
      rw [Point.left, hnow, hrest, List.length_drop]
      refine ⟨h.collected bytes, ?_⟩
      rw [Point.left]
      omega
  · rw [Point.busy, Point.step, answered_failure hok] at hnext
    exact absurd hnext Bool.false_ne_true

end Ends

/-! ## The host -/

/-- `FCNFG`, and what the clock says each time it is read. -/
structure Host where
  fcnfg : Word
  clock : Nat → Word
  readings : Nat

def hostHw : Hw HostReg Host where
  read
    | .fcnfg, h => (h.fcnfg, h)
    | .millis, h => (h.clock h.readings, { h with readings := h.readings + 1 })
  write
    | .fcnfg, v, h => { h with fcnfg := v }
    | .millis, _, h => h
  patience _ _ := 0

/-- The peripheral and the host. -/
def systemHw (E : Engine ε) : Hw (CseReg ⊕ HostReg) (Cse ε × Host) := (cseHw E).prod hostHw

/-- The next `n` readings of the clock are no later than the timeout allows. -/
def Host.Allows (h : Host) (startTime timeout : Word) (n : Nat) : Prop :=
  ∀ i < n, ¬ h.clock (h.readings + i) > startTime + timeout

/-- A blocking call that reads the clock now, and then in each of `n` rounds, is in time. -/
def Host.InTime (h : Host) (timeout : Word) (n : Nat) : Prop :=
  ∀ i < n, ¬ h.clock (h.readings + 1 + i) > h.clock h.readings + timeout

/-- A state with no call in progress, for the examples. -/
def State.sample : State where
  cmdInProgress := false
  cmd := .encCbc
  inputBuff := []
  outputBuff := []
  index := 0
  fullSize := 0
  partSize := 0
  keyId := .secretKey
  errCode := .success
  iv := Vector.replicate 16 0
  seq := .first
  msgLen := 0
  verifStatus := false
  macWritten := false
  mac := Vector.replicate 16 0
  macLen := 0
  callback := false
  called := []

section Exec

variable {E : Engine ε} {st : State} {s : Cse ε} {h : Host}

theorem exec_onCsec {α : Type} (p : Access α) (s : Cse ε) (h : Host) :
    exec (systemHw E) (onCsec p) (s, h) =
      ((exec (cseHw E) p s).1, (exec (cseHw E) p s).2, h) :=
  exec_onLeft _ _ id p s h

theorem exec_onCsec_of {α : Type} {p : Access α} {a : α} {s s' : Cse ε} (h : Host)
    (hexec : exec (cseHw E) p s = (.done a, s')) :
    exec (systemHw E) (onCsec p) (s, h) = (.done a, s', h) := by
  rw [exec_onCsec, hexec]

theorem exec_getMilliseconds :
    exec (systemHw E) getMilliseconds (s, h) =
      (.done (h.clock h.readings), s, { h with readings := h.readings + 1 }) := rfl

theorem exec_setInterrupt (enable : Bool) :
    exec (systemHw E) (setInterrupt enable) (s, h) =
      (.done (), s, { h with fcnfg := setField h.fcnfg 7 1 (if enable then 1 else 0) }) := rfl

theorem ccif_ready : ccifIsClear ccif = false := by decide

/-- The wait returns at once when no command is in progress. -/
theorem exec_wait_idle (hidle : s.running = none) :
    exec (cseHw E) waitCommandCompletion s = (.done (), s) := by
  have hread : (cseHw E).read .fstat s = (ccif, s) := by simp only [cseHw, hidle]
  have hspin : (cseHw E).spin .fstat ccifIsClear ((cseHw E).patience .fstat s + 1) s =
      (true, s) := by
    rw [Hw.spin_ready _ (by rw [hread]; exact ccif_ready), hread]
  simp only [waitCommandCompletion, pollReg, exec, hspin]

/-- A cancelled call is no longer in progress. -/
theorem exec_cancelCommand (hbusy : st.cmdInProgress = true) (hidle : s.running = none) :
    ∃ s' h', exec (systemHw E) (cancelCommand st) (s, h) =
      (.done { st with cmdInProgress := false }, s', h') ∧ h'.clock = h.clock ∧
        h'.readings = h.readings := by
  unfold cancelCommand
  rw [if_pos hbusy, exec_bind_of _ (exec_setInterrupt false),
    exec_bind_of _ (exec_onCsec_of _ (exec_wait_idle hidle))]
  by_cases hmore : st.fullSize ≠ st.partSize
  · obtain ⟨s₁, hheader, hflight⟩ :=
      exec_writeCommandHeader (E := E) (s := s) st.cmd .first st.keyId
    obtain ⟨s₂, hwait, _⟩ := exec_waitCommandCompletion hflight
    rw [if_pos hmore, exec_bind_of _ (exec_onCsec_of _ hheader),
      exec_bind_of _ (exec_onCsec_of _ hwait)]
    exact ⟨_, _, rfl, rfl, rfl⟩
  · rw [if_neg hmore]
    exact ⟨_, _, rfl, rfl, rfl⟩

/-- What a blocking call returns, in time or not, when its chain of commands ends at `c'`. -/
def Returns (c' : Point ε) (inTime : Prop) (st' : State) (s' : Cse ε) : Prop :=
  (inTime ∧ st' = c'.1 ∧ Answered c'.2 s') ∨
    (¬ inTime ∧ st'.errCode = .timeout ∧ st'.cmdInProgress = false)

/-- The first reading decides, or the others do. -/
theorem allows_succ (startTime timeout : Word) (n : Nat) :
    h.Allows startTime timeout (n + 1) ↔ ¬ h.clock h.readings > startTime + timeout ∧
      Host.Allows { h with readings := h.readings + 1 } startTime timeout n := by
  constructor
  · intro hallows
    refine ⟨hallows 0 (Nat.succ_pos n), fun i hi => ?_⟩
    have hlater := hallows (i + 1) (Nat.succ_lt_succ hi)
    rwa [Nat.add_comm i 1, ← Nat.add_assoc] at hlater
  · rintro ⟨hfirst, hothers⟩ i hi
    cases i with
    | zero => exact hfirst
    | succ i =>
      have hlater := hothers i (Nat.lt_of_succ_lt_succ hi)
      rwa [Nat.add_comm i 1, ← Nat.add_assoc]

/-- The loop of a blocking call, in no more rounds than there are commands. -/
theorem exec_loop (call : Call) (startTime timeout : Word) {n : Nat} {c c' : Point ε}
    (hends : Ends Point.busy (Point.step E) n c c') (hcmd : Chained c.1.cmd)
    (hresume : ∀ st', st'.cmd = c.1.cmd → call.resume st' = continueCmd st') {k : Nat}
    (hstands : Stands E c k st s) (h : Host) {fuel : Nat} (hfuel : n ≤ fuel) :
    ∃ m st' s' h', exec (systemHw E) (call.loop startTime timeout fuel st) (s, h) =
        (.done (some st'), s', h') ∧
      (c.busy = true → 0 < m) ∧ m ≤ n ∧ h'.clock = h.clock ∧ h'.readings = h.readings + m ∧
      Returns c' (h.Allows startTime timeout m) st' s' := by
  induction hends generalizing st s k h fuel with
  | @rest c hrest =>
    obtain ⟨rfl, hanswered⟩ := hstands.answered hrest
    have hover : c.1.cmdInProgress = false := hrest
    have hnone : h.Allows startTime timeout 0 := fun i hi => absurd hi (Nat.not_lt_zero i)
    refine ⟨0, _, s, h, ?_, fun hbusy => ?_, Nat.le_refl 0, rfl, rfl,
      Or.inl ⟨hnone, rfl, hanswered⟩⟩
    case refine_2 => exact absurd (hrest.symm.trans hbusy) Bool.false_ne_true
    cases fuel with
    | zero =>
      rw [Call.loop, hover]
      rfl
    | succ fuel =>
      rw [Call.loop, hover]
      rfl
  | @more n c c' hbusy _ ih =>
    obtain ⟨rfl, hflight⟩ := hstands.inFlight hbusy
    cases fuel with
    | zero => exact absurd hfuel (Nat.not_succ_le_zero n)
    | succ fuel =>
      obtain ⟨s₁, hwait, hanswered⟩ := exec_waitCommandCompletion hflight
      have hlaunched : c.1.launched.cmdInProgress = true := hbusy
      rw [Call.loop, if_pos hlaunched, exec_bind_of _ (exec_onCsec_of _ hwait),
        exec_bind_of _ exec_getMilliseconds]
      by_cases hlate : h.clock h.readings > startTime + timeout
      · obtain ⟨s', h', hcancel, hclock, hreadings⟩ := exec_cancelCommand (E := E)
          (h := { h with readings := h.readings + 1 }) hlaunched hanswered.running
        rw [if_pos hlate, exec_bind_of _ hcancel]
        have hnot : ¬ h.Allows startTime timeout 1 := fun hallows =>
          ((allows_succ startTime timeout 0).mp hallows).1 hlate
        exact ⟨1, _, s', h', rfl, fun _ => Nat.one_pos, Nat.succ_le_succ (Nat.zero_le n), hclock,
          hreadings, Or.inr ⟨hnot, rfl, rfl⟩⟩
      · obtain ⟨st₂, s₂, hcontinue, hnext⟩ := exec_continue_stands hcmd hbusy hanswered
        have hsame : (c.step E).1.cmd = c.1.cmd := (same_step E c).cmd
        obtain ⟨m, st', s', h', hloop, _, hle, hclock, hreadings, hreturns⟩ :=
          ih (by rwa [hsame]) (fun st' hst' => hresume st' (hst'.trans hsame)) hnext
            { h with readings := h.readings + 1 } (Nat.le_of_succ_le_succ hfuel)
        rw [if_neg hlate, hresume c.1.launched rfl, exec_bind_of _ (exec_onCsec_of _ hcontinue)]
        refine ⟨m + 1, st', s', h', hloop, fun _ => Nat.succ_pos m, Nat.succ_le_succ hle, hclock,
          ?_, ?_⟩
        · rw [hreadings, Nat.add_assoc, Nat.add_comm 1 m]
        · rwa [allows_succ, and_iff_right hlate]

/-- The functions of a call are those that its command stands for. -/
structure Call.Regular (call : Call) : Prop where
  chained : ∀ st, Chained (call.init st).cmd
  busy : ∀ st, (call.init st).cmdInProgress = true
  keyId : ∀ st, (call.init st).keyId = .ramKey
  start : ∀ st, call.start (call.init st) = startCmd (call.init st)
  resume : ∀ st st', st'.cmd = (call.init st).cmd → call.resume st' = continueCmd st'

theorem regular_cbcCall (direction : Direction) (input output : List Byte) (length : Word)
    (iv : Block) : (cbcCall direction .ramKey input length iv output).Regular := by
  cases direction with
  | enc =>
    refine ⟨fun _ => Or.inl rfl, fun _ => rfl, fun _ => rfl, fun _ => rfl, fun st st' h => ?_⟩
    have hcmd : st'.cmd = .encCbc := h
    rw [continueCmd, hcmd]
    rfl
  | dec =>
    refine ⟨fun _ => Or.inr (Or.inl rfl), fun _ => rfl, fun _ => rfl, fun _ => rfl,
      fun st st' h => ?_⟩
    have hcmd : st'.cmd = .decCbc := h
    rw [continueCmd, hcmd]
    rfl

theorem regular_generateMac (message cmac : List Byte) (msgLen : Word) :
    (generateMac .ramKey message msgLen cmac).Regular := by
  refine ⟨fun _ => Or.inr (Or.inr (Or.inl rfl)), fun _ => rfl, fun _ => rfl, fun _ => rfl,
    fun st st' h => ?_⟩
  have hcmd : st'.cmd = .generateMac := h
  rw [continueCmd, hcmd]
  rfl

theorem regular_verifyMac (message : List Byte) (msgLen : Word) (mac : Block)
    (macLen : Halfword) : (verifyMac .ramKey message msgLen mac macLen).Regular := by
  refine ⟨fun _ => Or.inr (Or.inr (Or.inr rfl)), fun _ => rfl, fun _ => rfl, fun _ => rfl,
    fun st st' h => ?_⟩
  have hcmd : st'.cmd = .verifyMac := h
  rw [continueCmd, hcmd]
  rfl

/-- A blocking call returns what its chain of commands ends with if it is in time, and a
timeout otherwise. -/
theorem exec_blocking {call : Call} (hregular : call.Regular) (hfree : st.cmdInProgress = false)
    (timeout : Word) {n : Nat} {c' : Point ε}
    (hends : Ends Point.busy (Point.step E) n (call.init st, s.pram, s.engine) c') {fuel : Nat}
    (hfuel : n ≤ fuel) :
    ∃ m st' s' h', exec (systemHw E) (call.blocking timeout fuel st) (s, h) =
        (.done (some (st'.errCode, st')), s', h') ∧
      0 < m ∧ m ≤ n ∧ h'.clock = h.clock ∧ h'.readings = h.readings + 1 + m ∧
      Returns c' (h.InTime timeout m) st' s' := by
  obtain ⟨s₁, hstart, hstands⟩ := exec_start_stands (E := E) (s := s) (hregular.chained st)
    (hregular.busy st)
  obtain ⟨m, st', s', h', hloop, hpos, hle, hclock, hreadings, hreturns⟩ := exec_loop call
    (h.clock h.readings) timeout hends (hregular.chained st) (hregular.resume st) hstands
    { h with readings := h.readings + 1 } hfuel
  refine ⟨m, st', s', h', ?_, hpos (hregular.busy st), hle, hclock, hreadings, hreturns⟩
  unfold Call.blocking
  rw [if_neg (by rw [hfree]; decide), exec_bind_of _ exec_getMilliseconds, hregular.start,
    exec_bind_of _ (exec_onCsec_of _ hstart), exec_bind_of _ hloop]
  rfl

/-! ## Functions of one command -/

/-- A function of one command: what the engine makes of the parameters, and what is read
from its reply after a success. -/
theorem exec_single {α : Type} {parameters : Access Unit} {result : Access α} (cmd : Command)
    (key : KeyID) {p : Pram} {value : Pram → α} (hfree : st.cmdInProgress = false)
    {words : List (Fin 32)}
    (hparameters : exec (cseHw E) parameters s = (.done (), s.store words p))
    (hresult : ∀ s : Cse ε, exec (cseHw E) result s = (.done (value s.pram), s)) :
    ∃ s', Answered (E.run s.engine (Function.update p 0 (headerWord cmd .copy .first key))) s' ∧
      exec (systemHw E) (single parameters cmd key result st) (s, h) =
        (.done ((Status.ofErrorBits (status s'.pram),
          if Status.ofErrorBits (status s'.pram) = .success then some (value s'.pram) else none),
          st), s', h) := by
  obtain ⟨s₁, hheader, hflight⟩ := exec_writeCommandHeader (E := E) (s := s.store words p) cmd
    .first key
  obtain ⟨s₂, hwait, hanswered⟩ := exec_waitCommandCompletion hflight
  have hfree' : { st with cmdInProgress := false } = st := by rw [← hfree]
  refine ⟨s₂, hanswered, ?_⟩
  unfold single
  rw [if_neg (by rw [hfree]; decide), exec_bind_of _ (exec_onCsec_of _ hparameters),
    exec_bind_of _ (exec_onCsec_of _ hheader), exec_bind_of _ (exec_onCsec_of _ hwait),
    exec_bind_of _ (exec_onCsec_of _ exec_readErrorBits)]
  by_cases hok : Status.ofErrorBits (status s₂.pram) = .success
  · rw [if_pos hok, if_pos hok, exec_bind_of _ (exec_onCsec_of _ (hresult s₂)), hfree']
    rfl
  · rw [if_neg hok, if_neg hok, hfree']
    rfl

end Exec

end Reference

end Csec
