import DaredevilSmall.Csec.Reference.Async

/-!
# A ledger of orders

What an application may rely on that makes asynchronous calls, whatever else it does
meanwhile. `Ledger.Step` says what each action may answer, and what becomes of the orders
that have been accepted: they are served one after the other. `Serves` relates a ledger to
the driver on the engine `guarded`, and `refines` is one action.

1. `async_serial`: in every run of actions no order that has been accepted is lost, and none
   is served twice or out of turn.
2. `async_delivered`: an order that has been accepted is delivered after as many runs of the
   interrupt handler as its commands take.
-/

namespace Csec

namespace Reference

open Mmio Data She StepsLemmas

/-! ## The specification -/

/-- The orders that have been served, and the one in progress with the number of runs of the
handler that it still takes. -/
structure Ledger where
  served : List Order
  current : Option (Order × Nat)

namespace Ledger

/-- All orders that have been accepted. -/
def orders (l : Ledger) : List Order := l.served ++ l.current.toList.map Prod.fst

/-- What the application is told between two calls: the status of the last one. -/
def lastStatus (initial : Status) (ramKey : Option Block) (served : List Order) : Status :=
  match served.getLast? with
  | none => initial
  | some o => o.status ramKey

/-- What an action may answer, and what is in the ledger afterwards. -/
inductive Step (initial : Status) (ramKey : Option Block) :
    Ledger → Action → Option Status → Ledger → Prop
  | accept {served : List Order} {o : Order} {n : Nat} : 0 < n →
    Step initial ramKey ⟨served, none⟩ (.call o) (some .success) ⟨served, some (o, n)⟩
  | refuse {served : List Order} {current : Order × Nat} {o : Order} :
    Step initial ramKey ⟨served, some current⟩ (.call o) (some .busy) ⟨served, some current⟩
  | report {served : List Order} :
    Step initial ramKey ⟨served, none⟩ .getStatus (some (lastStatus initial ramKey served))
      ⟨served, none⟩
  | busy {served : List Order} {current : Order × Nat} :
    Step initial ramKey ⟨served, some current⟩ .getStatus (some .busy) ⟨served, some current⟩
  | spurious {served : List Order} :
    Step initial ramKey ⟨served, none⟩ .interrupt none ⟨served, none⟩
  | work {served : List Order} {o : Order} {n : Nat} : 0 < n →
    Step initial ramKey ⟨served, some (o, n + 1)⟩ .interrupt none ⟨served, some (o, n)⟩
  | finish {served : List Order} {o : Order} :
    Step initial ramKey ⟨served, some (o, 1)⟩ .interrupt none ⟨served ++ [o], none⟩

end Ledger

/-- A call that has been answered with a success is an order that has been accepted. -/
def Action.accepted : Action → Option Status → List Order
  | .call o, some .success => [o]
  | _, _ => []

/-- The orders that have been accepted in a run. -/
def accepted (actions : List Action) (replies : List (Option Status)) : List Order :=
  (List.zipWith Action.accepted actions replies).flatten

variable {initial : Status} {ramKey : Option Block} {l l' : Ledger} {action : Action}
  {reply : Option Status} {actions : List Action} {replies : List (Option Status)}

theorem Ledger.Step.orders (h : Ledger.Step initial ramKey l action reply l') :
    l'.orders = l.orders ++ action.accepted reply := by
  cases h with
  | accept _ => simp [Ledger.orders, Action.accepted]
  | refuse => simp [Action.accepted]
  | report => simp [Action.accepted]
  | busy => simp [Action.accepted]
  | spurious => simp [Action.accepted]
  | work _ => simp [Ledger.orders, Action.accepted]
  | finish => simp [Ledger.orders, Action.accepted]

/-- Along a path of the specification, an order comes into the ledger when it is accepted and
stays in its place. -/
theorem orders_path (h : Path (Ledger.Step initial ramKey) l actions replies l') :
    l'.orders = l.orders ++ accepted actions replies := by
  induction h with
  | nil => exact (List.append_nil _).symm
  | cons hstep _ ih =>
    rw [ih, hstep.orders, List.append_assoc]
    rfl

/-! ## The driver -/

section Driver

variable (P : Primitives) (latency : Guarded → Pram → Nat) (w₀ : World Guarded)

/-- The commands that the callback has been called for. -/
def history (served : List Order) : List Command :=
  if w₀.1.callback then w₀.1.called ++ served.map Order.command else w₀.1.called

/-- What the call for an order ends with, when the orders `served` have come before it. -/
structure Brings (served : List Order) (o : Order) (c' : Point Guarded) : Prop where
  rest : c'.busy = false
  delivered : o.Delivered P w₀.2.1.engine.ramKey c'.1
  engine : c'.2.2 = w₀.2.1.engine
  callback : c'.1.callback = w₀.1.callback
  called : c'.1.called = history w₀ served

/-- The world implements a ledger: at the start, during a call, and after one. -/
inductive Serves : Ledger → World Guarded → Prop
  | fresh : Serves ⟨[], none⟩ w₀
  | working {served : List Order} {o : Order} {n : Nat} {c' : Point Guarded} {w : World Guarded} :
    Underway (guarded P latency) c' n w → Brings P w₀ served o c' →
    Serves ⟨served, some (o, n)⟩ w
  | resting {served : List Order} {o : Order} {c' : Point Guarded} {w : World Guarded} :
    Over c' w → Brings P w₀ served o c' → Serves ⟨served ++ [o], none⟩ w

/-- No call is in progress. -/
structure Between (served : List Order) (w : World Guarded) : Prop where
  free : w.1.cmdInProgress = false
  running : w.2.1.running = none
  engine : w.2.1.engine = w₀.2.1.engine
  callback : w.1.callback = w₀.1.callback
  called : w.1.called = history w₀ served
  status : w.1.errCode = Ledger.lastStatus w₀.1.errCode w₀.2.1.engine.ramKey served
  delivered : ∀ o, served.getLast? = some o → o.Delivered P w₀.2.1.engine.ramKey w.1

variable {P latency w₀} {w : World Guarded} {served : List Order}

theorem history_snoc (served : List Order) (o : Order) :
    history w₀ (served ++ [o]) =
      if w₀.1.callback then history w₀ served ++ [o.command] else history w₀ served := by
  unfold history
  cases w₀.1.callback with
  | false => rfl
  | true => simp

theorem Serves.between (hfree : w₀.1.cmdInProgress = false) (hrunning : w₀.2.1.running = none)
    (h : Serves P latency w₀ ⟨served, none⟩ w) : Between P w₀ served w := by
  cases h with
  | fresh =>
    refine ⟨hfree, hrunning, rfl, rfl, ?_, rfl, fun o ho => ?_⟩
    · simp [history]
    · cases ho
  | @resting served o c' w hover hbrings =>
    have hlast : (served ++ [o]).getLast? = some o := List.getLast?_concat
    have hdelivered : o.Delivered P w₀.2.1.engine.ramKey w.1 := by
      obtain ⟨hcmd, hstatus, houtput, hverdict⟩ := hbrings.delivered
      rw [hover.state]
      exact ⟨hcmd, hstatus, houtput, hverdict⟩
    refine ⟨?_, hover.answered.running, ?_, ?_, ?_, ?_, fun o' ho' => ?_⟩
    · rw [hover.state]
      exact hbrings.rest
    · rw [hover.answered.engine, hbrings.engine]
    · rw [hover.state]
      exact hbrings.callback
    · rw [hover.state, history_snoc]
      simp only [hbrings.callback, hbrings.called, hbrings.delivered.cmd]
    · rw [Ledger.lastStatus, hlast]
      exact hdelivered.status
    · obtain rfl := Option.some.inj (hlast.symm.trans ho')
      exact hdelivered

/-- From the first order on, the interrupt is enabled while one is in progress. -/
theorem Serves.enabled {l : Ledger} (h : Serves P latency w₀ l w) (horders : l.orders ≠ []) :
    w.2.2.enabled = l.current.isSome := by
  cases h with
  | fresh => exact absurd rfl horders
  | working hunderway _ =>
    obtain ⟨_, _, _, _, henabled, _⟩ := hunderway
    exact henabled
  | resting hover _ => exact hover.disabled

theorem init_called (o : Order) (st : State) :
    (o.call.init st).callback = st.callback ∧ (o.call.init st).called = st.called := by
  cases o with
  | cbc direction =>
    cases direction with
    | enc => exact ⟨rfl, rfl⟩
    | dec => exact ⟨rfl, rfl⟩
  | generateMac => exact ⟨rfl, rfl⟩
  | verifyMac => exact ⟨rfl, rfl⟩

/-- An order is accepted between two calls. -/
theorem accept (hidle : w₀.2.1.engine.job = .idle) (hw : Between P w₀ served w) (o : Order) :
    ∃ n m c' w', n ≤ o.size + 1 ∧
      m = work (guarded P latency) n (o.call.init w.1, w.2.1.pram, w.2.1.engine) ∧ 0 < m ∧
      system (guarded P latency) (.call o) w = (.done (some .success), w') ∧
      Underway (guarded P latency) c' m w' ∧ Brings P w₀ served o c' := by
  have hidle' : w.2.1.engine.job = .idle := by rw [hw.engine, hidle]
  obtain ⟨n, c', hn, hends, hsame, hdelivered, hengine⟩ := ends_order latency (P := P) o w.1
    w.2.1.pram hidle'
  obtain ⟨w', hcall, hpos, hunderway⟩ := call_accepted hw.free o hends
  obtain ⟨hcallback, hcalled⟩ := init_called o w.1
  refine ⟨n, _, c', w', hn, rfl, hpos, hcall, hunderway, ?_⟩
  rw [hw.engine] at hdelivered
  exact ⟨hends.not_busy, hdelivered, hengine.trans hw.engine,
    hsame.callback.trans (hcallback.trans hw.callback),
    hsame.called.trans (hcalled.trans hw.called)⟩

/-- One action. -/
theorem refines (hfree : w₀.1.cmdInProgress = false) (hrunning : w₀.2.1.running = none)
    (hidle : w₀.2.1.engine.job = .idle) :
    Refines (Ledger.Step w₀.1.errCode w₀.2.1.engine.ramKey) (system (guarded P latency))
      (Serves P latency w₀) := by
  rintro action ⟨served, current⟩ w h
  cases current with
  | none =>
    have hw := h.between hfree hrunning
    cases action with
    | call o =>
      obtain ⟨_, m, c', w', _, _, hpos, hcall, hunderway, hbrings⟩ := accept hidle hw o
      exact ⟨_, _, w', hcall, .accept hpos, .working hunderway hbrings⟩
    | getStatus =>
      refine ⟨_, _, w, getStatus_free hw.free, ?_, h⟩
      rw [hw.status]
      exact .report
    | interrupt => exact ⟨_, _, w, interrupt_free hw.free hw.running, .spurious, h⟩
  | some current =>
    obtain ⟨o, n⟩ := current
    cases h with
    | @working _ _ _ c' _ hunderway hbrings =>
      have hprogress := hunderway.inProgress
      cases action with
      | call o' => exact ⟨_, _, w, call_refused hprogress o', .refuse, .working hunderway hbrings⟩
      | getStatus => exact ⟨_, _, w, getStatus_busy hprogress, .busy, .working hunderway hbrings⟩
      | interrupt =>
        cases n with
        | zero => exact absurd hunderway.pos (Nat.lt_irrefl 0)
        | succ m =>
          obtain ⟨w', hinterrupt, hnext⟩ := interrupt_underway hunderway
          rcases hnext with ⟨rfl, hover⟩ | ⟨hpos, hunderway'⟩
          · exact ⟨_, _, w', hinterrupt, .finish, .resting hover hbrings⟩
          · exact ⟨_, _, w', hinterrupt, .work hpos, .working hunderway' hbrings⟩

/-! ## Runs -/

/-- How often the handler runs. -/
def interrupts : List Action → Nat
  | [] => 0
  | .interrupt :: actions => interrupts actions + 1
  | _ :: actions => interrupts actions

/-- A call stays in progress for as many runs of the handler as it takes, but for the last. -/
theorem underway_run {E : Engine Guarded} {c' : Point Guarded} {m : Nat} (actions : List Action)
    (hw : Underway E c' m w) (hfew : interrupts actions < m) :
    ∃ (replies : List (Option Status)) (w' : World Guarded),
      Component.run (system E) actions w = (replies.map .done, w') ∧
        Underway E c' (m - interrupts actions) w' := by
  induction actions generalizing m w with
  | nil => exact ⟨[], w, rfl, hw⟩
  | cons action actions ih =>
    have hstep (reply : Option Status) {w₁ : World Guarded} {k : Nat}
        (haction : system E action w = (.done reply, w₁)) (hw₁ : Underway E c' k w₁)
        (hk : interrupts actions < k)
        (hleft : k - interrupts actions = m - interrupts (action :: actions)) :
        ∃ (replies : List (Option Status)) (w' : World Guarded),
          Component.run (system E) (action :: actions) w = (replies.map .done, w') ∧
            Underway E c' (m - interrupts (action :: actions)) w' := by
      obtain ⟨replies, w', hrun, hunderway⟩ := ih hw₁ hk
      refine ⟨reply :: replies, w', ?_, hleft ▸ hunderway⟩
      simp only [Component.run, haction, hrun, List.map_cons]
    cases action with
    | call o => exact hstep _ (call_refused hw.inProgress o) hw hfew rfl
    | getStatus => exact hstep _ (getStatus_busy hw.inProgress) hw hfew rfl
    | interrupt =>
      have hfew' : interrupts actions + 1 < m := hfew
      cases m with
      | zero => exact absurd hfew (Nat.not_lt_zero _)
      | succ m =>
        obtain ⟨w₁, hinterrupt, hnext⟩ := interrupt_underway hw
        rcases hnext with ⟨rfl, _⟩ | ⟨_, hw₁⟩
        · exact absurd (Nat.lt_of_succ_lt_succ hfew') (Nat.not_lt_zero _)
        · refine hstep _ hinterrupt hw₁ (Nat.lt_of_succ_lt_succ hfew') ?_
          exact (Nat.add_sub_add_right m 1 (interrupts actions)).symm

end Driver

/-- From an idle engine, whatever the actions are and in whichever order they come: all of
them are answered, as the specification says. The orders that have been accepted are those
in the ledger, in the same order, and at most the last of them has not been served yet. The
callback has been called once for every order that has been served. From the first order on,
the interrupt is enabled while one is in progress, and only then. While no order is in
progress, the driver holds what the last one was to deliver, and the engine is as it was
at the start. -/
theorem async_serial (P : Primitives) (latency : Guarded → Pram → Nat) (w₀ : World Guarded)
    (hfree : w₀.1.cmdInProgress = false) (hrunning : w₀.2.1.running = none)
    (hidle : w₀.2.1.engine.job = .idle) (actions : List Action) :
    ∃ (replies : List (Option Status)) (ledger : Ledger) (w' : World Guarded),
      Component.run (system (guarded P latency)) actions w₀ = (replies.map .done, w') ∧
      Path (Ledger.Step w₀.1.errCode w₀.2.1.engine.ramKey) ⟨[], none⟩ actions replies ledger ∧
      ledger.orders = accepted actions replies ∧
      w'.1.cmdInProgress = ledger.current.isSome ∧ w'.1.called = history w₀ ledger.served ∧
      (ledger.orders ≠ [] → w'.2.2.enabled = ledger.current.isSome) ∧
      (ledger.current = none → w'.2.1.engine = w₀.2.1.engine ∧
        ∀ o, ledger.served.getLast? = some o → o.Delivered P w₀.2.1.engine.ramKey w'.1) := by
  have hfresh : Serves P latency w₀ ⟨[], none⟩ w₀ := .fresh
  obtain ⟨replies, ⟨served, current⟩, w', hrun, hpath, hserves⟩ :=
    (refines hfree hrunning hidle).run actions hfresh
  refine ⟨replies, ⟨served, current⟩, w', hrun, hpath, orders_path hpath, ?_⟩
  cases current with
  | none =>
    have hw := hserves.between hfree hrunning
    exact ⟨hw.free, hw.called, hserves.enabled, fun _ => ⟨hw.engine, hw.delivered⟩⟩
  | some current =>
    have henabled := hserves.enabled
    cases hserves with
    | working hunderway hbrings =>
      refine ⟨hunderway.inProgress, hunderway.called.trans hbrings.called, henabled, fun h => ?_⟩
      cases h

/-- For the examples: the MAC of a page. -/
def Order.sample : Order := .generateMac samplePlain.toList 128 [] (by decide) (by decide)

/-- No call in progress, and an engine with a key. -/
def World.sample : World Guarded :=
  (.sample, Cse.reset (Guarded.behind true She.sample), ⟨0, fun _ => 0, 0⟩)

/-- A second call comes too early. -/
theorem async_serial_sample : ∃ (ledger : Ledger) (w' : World Guarded),
    Component.run (system (guarded .sample fun _ _ => 1)) [.interrupt, .call .sample, .getStatus,
        .interrupt, .call .sample, .interrupt, .getStatus] World.sample =
      ([none, some .success, some .busy, none, some .busy, none, some .success].map .done, w') ∧
    ledger.orders = [.sample] ∧ w'.1.cmdInProgress = ledger.current.isSome := by
  obtain ⟨replies, ledger, w', hrun, _, horders, hprogress, _⟩ := async_serial .sample
    (fun _ _ => 1) World.sample rfl rfl rfl [.interrupt, .call .sample, .getStatus, .interrupt,
      .call .sample, .interrupt, .getStatus]
  have hanswers : (Component.run (system (guarded .sample fun _ _ => 1)) [.interrupt,
      .call .sample, .getStatus, .interrupt, .call .sample, .interrupt, .getStatus]
        World.sample).1 =
      [none, some .success, some .busy, none, some .busy, none, some .success].map .done := by
    decide +kernel
  rw [hrun] at hanswers
  obtain rfl := List.map_injective_iff.mpr (fun _ _ => Outcome.done.inj) hanswers
  exact ⟨ledger, w', hrun, horders, hprogress⟩

/-- An order that is accepted at the end of any run is delivered: by the last of so many runs
of the handler, at most `latency + 1` for each command. Whatever else the application does
until then finds it in progress. -/
theorem async_delivered (P : Primitives) (latency : Guarded → Pram → Nat) {bound : Nat}
    (hbound : ∀ g p, latency g p ≤ bound) (w₀ : World Guarded)
    (hfree : w₀.1.cmdInProgress = false) (hrunning : w₀.2.1.running = none)
    (hidle : w₀.2.1.engine.job = .idle) (before : List Action)
    (hbetween : (Component.run (system (guarded P latency)) before w₀).2.1.cmdInProgress = false)
    (o : Order) :
    ∃ m, 0 < m ∧ m ≤ (o.size + 1) * (bound + 1) ∧ ∀ during : List Action,
      (interrupts during < m → (Component.run (system (guarded P latency))
        (before ++ .call o :: during) w₀).2.1.cmdInProgress = true) ∧
      (interrupts during + 1 = m →
        let w := (Component.run (system (guarded P latency))
          (before ++ .call o :: (during ++ [.interrupt])) w₀).2
        w.1.cmdInProgress = false ∧ o.Delivered P w₀.2.1.engine.ramKey w.1 ∧
          w.2.1.engine = w₀.2.1.engine) := by
  have hfresh : Serves P latency w₀ ⟨[], none⟩ w₀ := .fresh
  obtain ⟨replies, ⟨served, current⟩, w, hrun, _, hserves⟩ :=
    (refines hfree hrunning hidle).run before hfresh
  cases current with
  | some current =>
    cases hserves with
    | working hunderway _ =>
      rw [hrun] at hbetween
      exact absurd (hbetween.symm.trans hunderway.inProgress) Bool.false_ne_true
  | none =>
    have hw := hserves.between hfree hrunning
    obtain ⟨n, m, c', w₁, hn, hm, hpos, hcall, hunderway, hbrings⟩ := accept hidle hw o
    have hle : m ≤ (o.size + 1) * (bound + 1) := by
      rw [hm]
      exact Nat.le_trans (work_le hbound n _) (Nat.mul_le_mul_right _ hn)
    have hafter (actions : List Action) :
        (Component.run (system (guarded P latency)) (before ++ .call o :: actions) w₀).2 =
          (Component.run (system (guarded P latency)) actions w₁).2 := by
      rw [Component.run_append hrun]
      simp only [Component.run, hcall]
    refine ⟨m, hpos, hle, fun during => ⟨fun hfew => ?_, fun hlast => ?_⟩⟩
    · obtain ⟨_, w₂, hrun₂, hunderway₂⟩ := underway_run during hunderway hfew
      rw [hafter, hrun₂]
      exact hunderway₂.inProgress
    · obtain ⟨_, w₂, hrun₂, hunderway₂⟩ := underway_run during hunderway (by omega)
      have hone : m - interrupts during = 0 + 1 := by omega
      rw [hone] at hunderway₂
      obtain ⟨w₃, hinterrupt, ⟨_, hover⟩ | ⟨hfalse, _⟩⟩ := interrupt_underway hunderway₂
      · have hend : (Component.run (system (guarded P latency)) (during ++ [.interrupt]) w₁).2 =
            w₃ := by
          rw [Component.run_append hrun₂]
          simp only [Component.run, hinterrupt]
        have hserves' : Serves P latency w₀ ⟨served ++ [o], none⟩ w₃ := .resting hover hbrings
        have hw₃ := hserves'.between hfree hrunning
        simp only [hafter, hend]
        exact ⟨hw₃.free, hw₃.delivered o List.getLast?_concat, hw₃.engine⟩
      · exact absurd hfalse (Nat.lt_irrefl 0)

/-- A second call, when the first one has been served. -/
theorem async_delivered_sample :
    ∃ m, 0 < m ∧ m ≤ 17 * 2 ∧ ∀ during : List Action,
      (interrupts during < m → (Component.run (system (guarded .sample fun _ _ => 1))
        ([.call .sample, .interrupt, .interrupt] ++ .call .sample :: during)
          World.sample).2.1.cmdInProgress = true) ∧
      (interrupts during + 1 = m →
        let w := (Component.run (system (guarded .sample fun _ _ => 1))
          ([.call .sample, .interrupt, .interrupt] ++ .call .sample :: (during ++ [.interrupt]))
            World.sample).2
        w.1.cmdInProgress = false ∧ Order.sample.Delivered .sample (some sampleKey) w.1 ∧
          w.2.1.engine = Guarded.behind true She.sample) :=
  async_delivered .sample (fun _ _ => 1) (fun _ _ => Nat.le_refl 1) World.sample rfl rfl rfl
    [.call .sample, .interrupt, .interrupt] (by decide +kernel) .sample

end Reference

end Csec
