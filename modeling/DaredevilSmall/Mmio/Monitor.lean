import DaredevilSmall.Mmio.Prog

/-!
# Monitors of register accesses

A monitor is an automaton over register accesses that gets stuck on an access
that breaks its rules. `Prog.Obeys` says of a program that no run of it gets the
monitor stuck, whatever the registers read as: it is defined on the program
alone, without hardware.

* `Prog.Obeys.bind`: the rule for sequencing.
* `Prog.Obeys.mono`: the rule of consequence.
* `Prog.Obeys.sound`: on any hardware, the accesses of a run are accepted.
-/

namespace Mmio

/-- From a state and an access to the next state, or to `none` when the access
is against the rules. -/
abbrev Monitor (Reg Site S : Type) := S → Event Reg Site → Option S

variable {Reg Site S σ α β : Type}

/-- The state after a list of accesses. -/
def Monitor.run (m : Monitor Reg Site S) : S → List (Event Reg Site) → Option S
  | q, [] => some q
  | q, e :: es => (m q e).bind fun q' => Monitor.run m q' es

theorem Monitor.run_cons {m : Monitor Reg Site S} {q q' : S} {e : Event Reg Site}
    (h : m q e = some q') (es : List (Event Reg Site)) : m.run q (e :: es) = m.run q' es := by
  rw [Monitor.run, h, Option.bind_some]

theorem Monitor.run_append (m : Monitor Reg Site S) (q : S) (es fs : List (Event Reg Site)) :
    m.run q (es ++ fs) = (m.run q es).bind fun q' => m.run q' fs := by
  induction es generalizing q with
  | nil => rfl
  | cons e es ih =>
    simp only [List.cons_append, Monitor.run, Option.bind_assoc]
    exact congrArg _ (funext fun q' => ih q')

/-- An accepted access is accepted in some state. -/
theorem Monitor.step_of_mem {m : Monitor Reg Site S} {q q' : S} {es : List (Event Reg Site)}
    (h : m.run q es = some q') {e : Event Reg Site} (he : e ∈ es) :
    ∃ q₁ q₂, m q₁ e = some q₂ := by
  induction es generalizing q with
  | nil => exact absurd he List.not_mem_nil
  | cons f fs ih =>
    obtain ⟨q₁, hf, hfs⟩ := Option.bind_eq_some_iff.mp h
    rcases List.mem_cons.mp he with rfl | hrest
    · exact ⟨q, q₁, hf⟩
    · exact ih hfs hrest

/-- No run of the program from monitor state `q` gets the monitor stuck. It ends
in a value and a state with `post`, or in a panic with `panics`. A busy-wait
stays in its state until the value it waits for is read. -/
def Prog.Obeys (m : Monitor Reg Site S) (panics : Panic → S → Prop) :
    Prog Reg Site α → (α → S → Prop) → S → Prop
  | .done a, post, q => post a q
  | .panic p, _, q => panics p q
  | .read site r k, post, q =>
    ∀ v, ∃ q', m q (.read site r v) = some q' ∧ (k v).Obeys m panics post q'
  | .write site r v k, post, q =>
    ∃ q', m q (.write site r v) = some q' ∧ k.Obeys m panics post q'
  | .poll site r busy k, post, q =>
    (∀ v, busy v = true → m q (.read site r v) = some q) ∧
      ∀ v, busy v = false → ∃ q', m q (.read site r v) = some q' ∧ k.Obeys m panics post q'

namespace Prog.Obeys

variable {m : Monitor Reg Site S} {panics : Panic → S → Prop}

theorem mono {p : Prog Reg Site α} {post post' : α → S → Prop} {q : S}
    (h : p.Obeys m panics post q) (hpost : ∀ a q, post a q → post' a q) :
    p.Obeys m panics post' q := by
  induction p generalizing q with
  | done a => exact hpost a q h
  | panic p => exact h
  | read site r k ih =>
    intro v
    obtain ⟨q', hq, hk⟩ := h v
    exact ⟨q', hq, ih v hk⟩
  | write site r v k ih =>
    obtain ⟨q', hq, hk⟩ := h
    exact ⟨q', hq, ih hk⟩
  | poll site r busy k ih =>
    refine ⟨h.1, fun v hv => ?_⟩
    obtain ⟨q', hq, hk⟩ := h.2 v hv
    exact ⟨q', hq, ih hk⟩

theorem bind {p : Prog Reg Site α} {f : α → Prog Reg Site β} {post : β → S → Prop} {q : S}
    (h : p.Obeys m panics (fun a q' => (f a).Obeys m panics post q') q) :
    (p >>= f).Obeys m panics post q := by
  induction p generalizing q with
  | done a => exact h
  | panic p => exact h
  | read site r k ih =>
    intro v
    obtain ⟨q', hq, hk⟩ := h v
    exact ⟨q', hq, ih v hk⟩
  | write site r v k ih =>
    obtain ⟨q', hq, hk⟩ := h
    exact ⟨q', hq, ih hk⟩
  | poll site r busy k ih =>
    refine ⟨h.1, fun v hv => ?_⟩
    obtain ⟨q', hq, hk⟩ := h.2 v hv
    exact ⟨q', hq, ih hk⟩

/-- Sequencing after a program whose post-state is known. -/
theorem seq {p : Prog Reg Site α} {f : α → Prog Reg Site β} {mid : α → S → Prop}
    {post : β → S → Prop} {q : S} (h : p.Obeys m panics mid q)
    (hf : ∀ a q', mid a q' → (f a).Obeys m panics post q') :
    (p >>= f).Obeys m panics post q :=
  bind (h.mono hf)

theorem run_spin {site : Site} {r : Reg} {busy : Word → Bool} {q : S}
    (hbusy : ∀ v, busy v = true → m q (.read site r v) = some q) (hw : Hw Reg σ) (n : Nat) (s : σ) :
    ((hw.spin r busy n s).1 = false →
      m.run q ((hw.spinReads r busy n s).map (.read site r)) = some q) ∧
    ((hw.spin r busy n s).1 = true → ∃ v, busy v = false ∧ ∀ es,
      m.run q ((hw.spinReads r busy n s).map (.read site r) ++ es) =
        m.run q (.read site r v :: es)) := by
  induction n generalizing s with
  | zero => exact ⟨fun _ => rfl, fun h => absurd h (by simp [Hw.spin])⟩
  | succ n ih =>
    cases hb : busy (hw.read r s).1 with
    | true =>
      rw [hw.spin_busy hb, Hw.spinReads, hb, if_pos rfl, List.map_cons]
      obtain ⟨hhung, hended⟩ := ih (hw.read r s).2
      refine ⟨fun h => ?_, fun h => ?_⟩
      · rw [Monitor.run_cons (hbusy _ hb)]
        exact hhung h
      · obtain ⟨v, hv, hes⟩ := hended h
        refine ⟨v, hv, fun es => ?_⟩
        rw [List.cons_append, Monitor.run_cons (hbusy _ hb)]
        exact hes es
    | false =>
      rw [hw.spin_ready hb, Hw.spinReads, hb]
      exact ⟨fun h => absurd h (by simp), fun _ => ⟨_, hb, fun es => rfl⟩⟩

/-- On any hardware the accesses of a run are accepted. -/
theorem sound {p : Prog Reg Site α} {post : α → S → Prop} {q : S}
    (h : p.Obeys m panics post q) (hw : Hw Reg σ) (s : σ) :
    ∃ q', m.run q (trace hw p s) = some q' ∧
      (∀ a, (exec hw p s).1 = .done a → post a q') ∧
      ∀ e, (exec hw p s).1 = .panicked e → panics e q' := by
  induction p generalizing q s with
  | done a =>
    refine ⟨q, rfl, fun a' ha => ?_, fun e he => absurd he (by simp [exec])⟩
    obtain rfl := Outcome.done.inj ha
    exact h
  | panic p =>
    refine ⟨q, rfl, fun a' ha => absurd ha (by simp [exec]), fun e he => ?_⟩
    obtain rfl := Outcome.panicked.inj he
    exact h
  | read site r k ih =>
    obtain ⟨q', hq, hk⟩ := h (hw.read r s).1
    obtain ⟨q'', hrun, hends⟩ := ih _ hk (hw.read r s).2
    exact ⟨q'', (Monitor.run_cons hq _).trans hrun, hends⟩
  | write site r v k ih =>
    obtain ⟨q', hq, hk⟩ := h
    obtain ⟨q'', hrun, hends⟩ := ih hk (hw.write r v s)
    exact ⟨q'', (Monitor.run_cons hq _).trans hrun, hends⟩
  | poll site r busy k ih =>
    obtain ⟨hbusy, hready⟩ := h
    obtain ⟨hhung, hended⟩ := run_spin hbusy hw (hw.patience r s + 1) s
    simp only [trace, exec]
    cases hspin : hw.spin r busy (hw.patience r s + 1) s with
    | mk ended s' =>
      rw [hspin] at hhung hended
      cases ended with
      | false =>
        refine ⟨q, ?_, fun a ha => absurd ha (by simp), fun e he => absurd he (by simp)⟩
        rw [List.append_nil]
        exact hhung rfl
      | true =>
        obtain ⟨v, hv, hes⟩ := hended rfl
        obtain ⟨q', hq, hk⟩ := hready v hv
        obtain ⟨q'', hrun, hends⟩ := ih hk s'
        exact ⟨q'', (hes _).trans ((Monitor.run_cons hq _).trans hrun), hends⟩

end Prog.Obeys

end Mmio
