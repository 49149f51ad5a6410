import DaredevilSmall.Csec.Reference.Orders
import DaredevilSmall.Mmio.Component

/-!
# Asynchronous calls

The application calls an asynchronous function and goes on. The interrupt handler takes
the call from command to command, and the application asks for its status now and then,
or tries to make another call. Here these actions come in any order, and the handler also
runs when the engine is still busy, or when nothing is in progress.

An asynchronous function enables the interrupt with its last access, so the handler does
not run in the middle of it.

`Underway` is a call in progress, with the number of runs of the handler that it still
takes. `call_accepted` is how it starts, and `interrupt_underway` is one run of the handler.
The engine is arbitrary here.
-/

namespace Csec

namespace Reference

open Mmio Data She

variable {ε : Type}

/-! ## The system -/

/-- The driver, the peripheral and the host. -/
abbrev World (ε : Type) := State × Cse ε × Host

/-- What may happen next. -/
inductive Action where
  | call (o : Order)
  | getStatus
  | interrupt

/-- The program that runs then, with what it returns to the application. -/
def Action.program (st : State) : Action → Driver (Option Status × State)
  | call o => do
    let (status, st) ← o.call.async st
    pure (some status, st)
  | getStatus => pure (some (getAsyncCmdStatus st), st)
  | interrupt => do
    let st ← ftfcIrqHandler st
    pure (none, st)

/-- The driver on an engine. -/
def system (E : Engine ε) : Component Action (Option Status) (World ε) := fun a w =>
  match exec (systemHw E) (a.program w.1) w.2 with
  | (.done (reply, st), w') => (.done reply, st, w')
  | (.panicked p, w') => (.panicked p, w.1, w')
  | (.hung, w') => (.hung, w.1, w')

theorem system_of_exec {E : Engine ε} {a : Action} {w : World ε} {reply : Option Status}
    {st : State} {w' : Cse ε × Host}
    (h : exec (systemHw E) (a.program w.1) w.2 = (.done (reply, st), w')) :
    system E a w = (.done reply, st, w') := by
  unfold system
  rw [h]

/-- The interrupt is enabled. -/
def Host.enabled (h : Host) : Bool := getField h.fcnfg 7 1 == 1

theorem enabled_setInterrupt (h : Host) (enable : Bool) :
    Host.enabled { h with fcnfg := setField h.fcnfg 7 1 (if enable then 1 else 0) } = enable := by
  unfold Host.enabled
  rw [getField_setField _ _ (by decide)]
  cases enable with
  | true => decide
  | false => decide

/-! ## A call in progress -/

/-- How often the handler runs in `n` commands, when the engine is busy as long as it says. -/
def work (E : Engine ε) : Nat → Point ε → Nat
  | 0, _ => 0
  | n + 1, c => c.delay E + 1 + work E n (c.step E)

theorem work_le {E : Engine ε} {bound : Nat} (h : ∀ e p, E.latency e p ≤ bound) (n : Nat)
    (c : Point ε) : work E n c ≤ n * (bound + 1) := by
  induction n generalizing c with
  | zero => exact Nat.zero_le _
  | succ n ih =>
    have hdelay : c.delay E ≤ bound := by
      unfold Point.delay
      split
      · exact h _ _
      · exact Nat.zero_le _
    calc c.delay E + 1 + work E n (c.step E)
        ≤ bound + 1 + n * (bound + 1) :=
          Nat.add_le_add (Nat.add_le_add_right hdelay 1) (ih (c.step E))
      _ = (n + 1) * (bound + 1) := (Nat.succ_mul n (bound + 1)).symm ▸ Nat.add_comm _ _

/-- A call that will end at `c'` is in progress, and takes so many more runs of the handler. -/
inductive Underway (E : Engine ε) (c' : Point ε) (runs : Nat) (w : World ε) : Prop
  | intro {c : Point ε} {k n : Nat} (busy : c.busy = true) (chained : Chained c.1.cmd)
    (stands : Stands E c k w.1 w.2.1) (ends : Ends Point.busy (Point.step E) n (c.step E) c')
    (enabled : w.2.2.enabled = true) (runs_eq : runs = k + 1 + work E n (c.step E))

/-- The call is over: the callback has been called, if there is one, and the interrupt is
disabled. -/
structure Over (c' : Point ε) (w : World ε) : Prop where
  state : w.1 = { c'.1 with
    called := if c'.1.callback then c'.1.called ++ [c'.1.cmd] else c'.1.called }
  answered : Answered c'.2 w.2.1
  disabled : w.2.2.enabled = false

section Steps

variable {E : Engine ε} {c' : Point ε} {m : Nat} {w : World ε}

theorem Underway.inProgress (hw : Underway E c' m w) : w.1.cmdInProgress = true := by
  obtain ⟨hbusy, _, hstands, _, _, _⟩ := hw
  exact hstands.cmdInProgress.trans hbusy

theorem Underway.called (hw : Underway E c' m w) : w.1.called = c'.1.called := by
  obtain ⟨hbusy, _, hstands, hends, _, _⟩ := hw
  obtain ⟨hst, _⟩ := hstands.inFlight hbusy
  rw [hst]
  exact ((same_step E _).trans (same_ends hends)).called.symm

theorem Underway.pos (hw : Underway E c' m w) : 0 < m := by
  obtain ⟨_, _, _, _, _, hruns⟩ := hw
  rw [hruns]
  exact Nat.add_pos_left (Nat.succ_pos _) _

/-- A call is accepted when none is in progress. -/
theorem call_accepted (hfree : w.1.cmdInProgress = false) (o : Order) {n : Nat}
    (hends : Ends Point.busy (Point.step E) n (o.call.init w.1, w.2.1.pram, w.2.1.engine) c') :
    ∃ w', system E (.call o) w = (.done (some .success), w') ∧
      0 < work E n (o.call.init w.1, w.2.1.pram, w.2.1.engine) ∧
      Underway E c' (work E n (o.call.init w.1, w.2.1.pram, w.2.1.engine)) w' := by
  obtain ⟨st, s, h⟩ := w
  have hregular := regular_order o
  have hbusy : Point.busy (o.call.init st, s.pram, s.engine) = true := hregular.busy st
  obtain ⟨n, rfl, hnext⟩ := hends.advance hbusy
  obtain ⟨s', hstart, hstands⟩ := exec_start_stands (E := E) (s := s) (hregular.chained st) hbusy
  have hasync : exec (systemHw E) (o.call.async st) (s, h) =
      (.done (.success, (o.call.init st).launched), s',
        { h with fcnfg := setField h.fcnfg 7 1 1 }) := by
    unfold Call.async
    rw [if_neg (by rw [hfree]; decide), hregular.start, exec_bind_of _ (exec_onCsec_of _ hstart),
      exec_bind_of _ (exec_setInterrupt true)]
    rfl
  refine ⟨_, system_of_exec (exec_bind_of _ hasync), ?_, ?_⟩
  · rw [work]
    exact Nat.add_pos_left (Nat.succ_pos _) _
  · refine ⟨hbusy, hregular.chained st, hstands, hnext, enabled_setInterrupt h true, ?_⟩
    rw [work, Point.delay, if_pos hbusy]

/-- A call is refused while another one is in progress. -/
theorem call_refused (hbusy : w.1.cmdInProgress = true) (o : Order) :
    system E (.call o) w = (.done (some .busy), w) := by
  have hasync : exec (systemHw E) (o.call.async w.1) w.2 = (.done (.busy, w.1), w.2) := by
    unfold Call.async
    rw [if_pos hbusy]
    rfl
  refine system_of_exec ?_
  unfold Action.program
  exact exec_bind_of _ hasync

theorem getStatus_busy (hbusy : w.1.cmdInProgress = true) :
    system E .getStatus w = (.done (some .busy), w) := by
  refine system_of_exec ?_
  unfold Action.program getAsyncCmdStatus
  rw [hbusy]
  rfl

theorem getStatus_free (hfree : w.1.cmdInProgress = false) :
    system E .getStatus w = (.done (some w.1.errCode), w) := by
  refine system_of_exec ?_
  unfold Action.program getAsyncCmdStatus
  rw [hfree]
  rfl

/-- The handler finds the engine busy. -/
theorem exec_handler_busy {st : State} {s : Cse ε} {h : Host}
    (hread : ((cseHw E).read .fstat s).1 = 0) :
    exec (systemHw E) (ftfcIrqHandler st) (s, h) =
      (.done st, ((cseHw E).read .fstat s).2, h) := by
  have hreg : exec (systemHw E) (readReg Site.ftfcIrqHandler (.inl .fstat)) (s, h) =
      (.done 0, ((cseHw E).read .fstat s).2, h) := by
    rw [← hread]
    rfl
  unfold ftfcIrqHandler
  rw [exec_bind_of _ hreg, if_neg (by simp)]
  rfl

/-- It finds the command complete, and takes the call to the next one. -/
theorem exec_handler_next {st st₂ : State} {s s₂ : Cse ε} {h : Host}
    (hread : ((cseHw E).read .fstat s).1 = ccif) (hbusy : st.cmdInProgress = true)
    (hcontinue : exec (cseHw E) (continueCmd st) ((cseHw E).read .fstat s).2 = (.done st₂, s₂))
    (hmore : st₂.cmdInProgress = true) :
    exec (systemHw E) (ftfcIrqHandler st) (s, h) = (.done st₂, s₂, h) := by
  have hreg : exec (systemHw E) (readReg Site.ftfcIrqHandler (.inl .fstat)) (s, h) =
      (.done ccif, ((cseHw E).read .fstat s).2, h) := by
    rw [← hread]
    rfl
  have hset : ccif &&& ccif ≠ 0 := by decide
  unfold ftfcIrqHandler
  rw [exec_bind_of _ hreg, if_pos ⟨hset, hbusy⟩, exec_bind_of _ (exec_onCsec_of h hcontinue), hmore]
  rfl

/-- Or to its end. -/
theorem exec_handler_last {st st₂ : State} {s s₂ : Cse ε} {h : Host}
    (hread : ((cseHw E).read .fstat s).1 = ccif) (hbusy : st.cmdInProgress = true)
    (hcontinue : exec (cseHw E) (continueCmd st) ((cseHw E).read .fstat s).2 = (.done st₂, s₂))
    (hover : st₂.cmdInProgress = false) :
    exec (systemHw E) (ftfcIrqHandler st) (s, h) =
      (.done { st₂ with called := if st₂.callback then st₂.called ++ [st₂.cmd] else st₂.called },
        s₂, { h with fcnfg := setField h.fcnfg 7 1 0 }) := by
  have hreg : exec (systemHw E) (readReg Site.ftfcIrqHandler (.inl .fstat)) (s, h) =
      (.done ccif, ((cseHw E).read .fstat s).2, h) := by
    rw [← hread]
    rfl
  have hset : ccif &&& ccif ≠ 0 := by decide
  unfold ftfcIrqHandler
  rw [exec_bind_of _ hreg, if_pos ⟨hset, hbusy⟩, exec_bind_of _ (exec_onCsec_of h hcontinue)]
  simp only [hover, Bool.not_false, if_true]
  rw [exec_bind_of _ (exec_setInterrupt false)]
  rfl

theorem interrupt_of_handler {st : State} {w' : Cse ε × Host}
    (h : exec (systemHw E) (ftfcIrqHandler w.1) w.2 = (.done st, w')) :
    system E .interrupt w = (.done none, st, w') := by
  refine system_of_exec ?_
  unfold Action.program
  rw [exec_bind_of _ h]
  rfl

/-- The handler does nothing when no call is in progress. -/
theorem interrupt_free (hfree : w.1.cmdInProgress = false) (hidle : w.2.1.running = none) :
    system E .interrupt w = (.done none, w) := by
  obtain ⟨st, s, h⟩ := w
  have hread : (cseHw E).read .fstat s = (ccif, s) := by
    simp only [cseHw, show s.running = none from hidle]
  have hreg : exec (systemHw E) (readReg Site.ftfcIrqHandler (.inl .fstat)) (s, h) =
      (.done ccif, s, h) := by
    change (Outcome.done ((cseHw E).read .fstat s).1, ((cseHw E).read .fstat s).2, h) = _
    rw [hread]
  refine interrupt_of_handler ?_
  unfold ftfcIrqHandler
  rw [exec_bind_of _ hreg, if_neg fun hwork => Bool.false_ne_true (hfree.symm.trans hwork.2)]
  rfl

/-- A run of the handler. -/
theorem interrupt_underway (hw : Underway E c' (m + 1) w) :
    ∃ w', system E .interrupt w = (.done none, w') ∧
      (m = 0 ∧ Over c' w' ∨ 0 < m ∧ Underway E c' m w') := by
  obtain ⟨st, s, h⟩ := w
  have hprogress := hw.inProgress
  obtain ⟨hbusy, hcmd, hstands, hends, henabled, hruns⟩ := hw
  rename_i c k n
  obtain ⟨hst, hflight⟩ := hstands.inFlight hbusy
  obtain rfl : st = c.1.launched := hst
  cases k with
  | succ k =>
    obtain ⟨hread, hflight'⟩ := hflight.read_busy
    refine ⟨_, interrupt_of_handler (exec_handler_busy hread), Or.inr ⟨by omega, ?_⟩⟩
    exact ⟨hbusy, hcmd, .running hbusy hflight', hends, henabled, by omega⟩
  | zero =>
    obtain ⟨hread, hanswered⟩ := hflight.read_ready
    obtain ⟨st₂, s₂, hcontinue, hnext⟩ := exec_continue_stands hcmd hbusy hanswered
    have hst₂ := hnext.cmdInProgress
    cases hmore : (c.step E).busy with
    | true =>
      obtain ⟨n', rfl, hends'⟩ := hends.advance hmore
      have hcmd' : Chained (c.step E).1.cmd := by rwa [(same_step E c).cmd]
      have hhandler := exec_handler_next (h := h) hread hprogress hcontinue (hst₂.trans hmore)
      rw [work] at hruns
      refine ⟨_, interrupt_of_handler hhandler, Or.inr ⟨by omega, ?_⟩⟩
      exact ⟨hmore, hcmd', hnext, hends', henabled, by omega⟩
    | false =>
      obtain ⟨rfl, rfl⟩ := hends.eq_of_rest hmore
      obtain ⟨rfl, hanswered'⟩ := hnext.answered hmore
      have hhandler := exec_handler_last (h := h) hread hprogress hcontinue hmore
      rw [work] at hruns
      refine ⟨_, interrupt_of_handler hhandler, Or.inl ⟨by omega, ?_⟩⟩
      exact ⟨rfl, hanswered', enabled_setInterrupt h false⟩

end Steps

end Reference

end Csec
