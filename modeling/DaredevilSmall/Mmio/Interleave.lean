import DaredevilSmall.Mmio.Prog
import Mathlib.Logic.Relation

/-!
# Programs beside hardware that moves on its own

A peripheral also moves while the program does not look at it: a conversion
ends, a frame leaves. A relation `tick` says how. `Step` interleaves the
accesses of a program with ticks, in any order, and a `Run` is any number of
steps.

What holds over all runs is proved with a proof outline. An `Assertion` is a
predicate on the hardware that no tick can break, and an `Outline` annotates a
program with one assertion for every point of it.

Results:
1. `Outline.sound`: what the assertions say holds in every state of every run.
2. `Outline.bind`, `Outline.forRange`: outlines compose as programs do.
3. `run_of_exec`: the runs of `exec` are the ones without ticks. On hardware that
   is `driven` they are runs with one tick in front of every access.
4. `run_advance`: a run that `advance` computes, for a run on fixed inputs.
-/

namespace Mmio

variable {Reg Site σ α β : Type}

/-! ## Runs -/

/-- One step of a program beside its peripheral: the peripheral moves on its
own, or the program makes its next access. A busy-wait makes one access for
every round. -/
inductive Step (hw : Hw Reg σ) (tick : σ → σ → Prop) :
    Prog Reg Site α × σ → Prog Reg Site α × σ → Prop
  | tick {p : Prog Reg Site α} {s s' : σ} : tick s s' → Step hw tick (p, s) (p, s')
  | read {site : Site} {r : Reg} {k : Word → Prog Reg Site α} {s : σ} :
      Step hw tick (.read site r k, s) (k (hw.read r s).1, (hw.read r s).2)
  | write {site : Site} {r : Reg} {v : Word} {k : Prog Reg Site α} {s : σ} :
      Step hw tick (.write site r v k, s) (k, hw.write r v s)
  | spin {site : Site} {r : Reg} {busy : Word → Bool} {k : Prog Reg Site α} {s : σ} :
      busy (hw.read r s).1 = true →
      Step hw tick (.poll site r busy k, s) (.poll site r busy k, (hw.read r s).2)
  | leave {site : Site} {r : Reg} {busy : Word → Bool} {k : Prog Reg Site α} {s : σ} :
      busy (hw.read r s).1 = false →
      Step hw tick (.poll site r busy k, s) (k, (hw.read r s).2)

/-- Any number of steps. -/
abbrev Run (hw : Hw Reg σ) (tick : σ → σ → Prop) :
    Prog Reg Site α × σ → Prog Reg Site α × σ → Prop :=
  Relation.ReflTransGen (Step hw tick)

variable {hw : Hw Reg σ} {tick : σ → σ → Prop}

/-- The program and its peripheral after `n` accesses and no tick. -/
def advance (hw : Hw Reg σ) : Nat → Prog Reg Site α × σ → Prog Reg Site α × σ
  | 0, c => c
  | _ + 1, (.done a, s) => (.done a, s)
  | _ + 1, (.panic p, s) => (.panic p, s)
  | n + 1, (.read _ r k, s) => advance hw n (k (hw.read r s).1, (hw.read r s).2)
  | n + 1, (.write _ r v k, s) => advance hw n (k, hw.write r v s)
  | n + 1, (.poll site r busy k, s) =>
    advance hw n (if busy (hw.read r s).1 then .poll site r busy k else k, (hw.read r s).2)

theorem run_advance (hw : Hw Reg σ) (tick : σ → σ → Prop) (n : Nat) (p : Prog Reg Site α) (s : σ) :
    Run hw tick (p, s) (advance hw n (p, s)) := by
  induction n generalizing p s with
  | zero => exact .refl
  | succ n ih =>
    cases p with
    | done a => exact .refl
    | panic p => exact .refl
    | read site r k => exact .head .read (ih _ _)
    | write site r v k => exact .head .write (ih _ _)
    | poll site r busy k =>
      cases hb : busy (hw.read r s).1 with
      | true =>
        rw [advance, if_pos hb]
        exact .head (.spin hb) (ih _ _)
      | false =>
        rw [advance, if_neg (by simp [hb])]
        exact .head (.leave hb) (ih _ _)

theorem InterleaveLemmas.run_spin (hw : Hw Reg σ) (tick : σ → σ → Prop) (site : Site) (r : Reg)
    (busy : Word → Bool) (k : Prog Reg Site α) (n : Nat) (s : σ) :
    Run hw tick (.poll site r busy k, s)
      (if (hw.spin r busy n s).1 then k else .poll site r busy k, (hw.spin r busy n s).2) := by
  induction n generalizing s with
  | zero => exact .refl
  | succ n ih =>
    cases hb : busy (hw.read r s).1 with
    | true =>
      rw [hw.spin_busy hb]
      exact .head (.spin hb) (ih _)
    | false =>
      rw [hw.spin_ready hb]
      exact .single (.leave hb)

/-- What `exec` does is a run without ticks. -/
theorem run_of_exec (hw : Hw Reg σ) (tick : σ → σ → Prop) (p : Prog Reg Site α) (s : σ) :
    ∃ p' : Prog Reg Site α, Run hw tick (p, s) (p', (exec hw p s).2) ∧
      ∀ a, (exec hw p s).1 = .done a → p' = .done a := by
  induction p generalizing s with
  | done a => exact ⟨.done a, .refl, fun _ h => congrArg Prog.done (Outcome.done.inj h)⟩
  | panic p => exact ⟨.panic p, .refl, fun _ h => absurd h (by simp [exec])⟩
  | read site r k ih =>
    obtain ⟨p', hrun, hdone⟩ := ih (hw.read r s).1 (hw.read r s).2
    exact ⟨p', .head .read hrun, hdone⟩
  | write site r v k ih =>
    obtain ⟨p', hrun, hdone⟩ := ih (hw.write r v s)
    exact ⟨p', .head .write hrun, hdone⟩
  | poll site r busy k ih =>
    have hspin := InterleaveLemmas.run_spin hw tick site r busy k (hw.patience r s + 1) s
    simp only [exec]
    cases hres : hw.spin r busy (hw.patience r s + 1) s with
    | mk ended s' =>
      rw [hres] at hspin
      cases ended with
      | true =>
        obtain ⟨p', hrun, hdone⟩ := ih s'
        exact ⟨p', hspin.trans hrun, hdone⟩
      | false => exact ⟨.poll site r busy k, hspin, fun _ h => absurd h (by simp)⟩

theorem Run.of_done (tick : σ → σ → Prop) {p : Prog Reg Site α} {s : σ} {a : α}
    (h : (exec hw p s).1 = .done a) : Run hw tick (p, s) (.done a, (exec hw p s).2) := by
  obtain ⟨p', hrun, hdone⟩ := run_of_exec hw tick p s
  exact hdone a h ▸ hrun

/-- Hardware that moves by `env n` in front of access number `n`. -/
def Hw.driven (hw : Hw Reg σ) (env : Nat → σ → σ) (patience : Nat) : Hw Reg (Nat × σ) where
  read r s := ((hw.read r (env s.1 s.2)).1, s.1 + 1, (hw.read r (env s.1 s.2)).2)
  write r v s := (s.1 + 1, hw.write r v (env s.1 s.2))
  patience _ _ := patience

/-- What a program does on driven hardware, it can do beside hardware that moves
on its own. -/
theorem Run.of_driven {env : Nat → σ → σ} {patience : Nat} (henv : ∀ n s, tick s (env n s))
    {p p' : Prog Reg Site α} {c c' : Nat × σ}
    (h : Run (hw.driven env patience) (fun _ _ => False) (p, c) (p', c')) :
    Run hw tick (p, c.2) (p', c'.2) := by
  refine Relation.ReflTransGen.lift' (fun d : Prog Reg Site α × Nat × σ => (d.1, d.2.2)) ?_ _ _ h
  intro d d' hstep
  cases hstep with
  | tick hfalse => exact hfalse.elim
  | read => exact .head (.tick (henv _ _)) (.single .read)
  | write => exact .head (.tick (henv _ _)) (.single .write)
  | spin hb => exact .head (.tick (henv _ _)) (.single (.spin hb))
  | leave hb => exact .head (.tick (henv _ _)) (.single (.leave hb))

/-- Some run of the program returns. -/
def MayReturn (hw : Hw Reg σ) (tick : σ → σ → Prop) (p : Prog Reg Site α) (s : σ) : Prop :=
  ∃ a s', Run hw tick (p, s) (.done a, s')

namespace MayReturn

variable {p : Prog Reg Site α} {site : Site} {r : Reg} {s s' : σ}

theorem of_done {a : α} : MayReturn hw tick (.done a : Prog Reg Site α) s := ⟨a, s, .refl⟩

theorem of_tick (ht : tick s s') : MayReturn hw tick p s' → MayReturn hw tick p s
  | ⟨a, s'', h⟩ => ⟨a, s'', .head (.tick ht) h⟩

theorem of_read {k : Word → Prog Reg Site α} :
    MayReturn hw tick (k (hw.read r s).1) (hw.read r s).2 → MayReturn hw tick (.read site r k) s
  | ⟨a, s', h⟩ => ⟨a, s', .head .read h⟩

theorem of_write {v : Word} {k : Prog Reg Site α} :
    MayReturn hw tick k (hw.write r v s) → MayReturn hw tick (.write site r v k) s
  | ⟨a, s', h⟩ => ⟨a, s', .head .write h⟩

theorem of_leave {busy : Word → Bool} {k : Prog Reg Site α} (hb : busy (hw.read r s).1 = false) :
    MayReturn hw tick k (hw.read r s).2 → MayReturn hw tick (.poll site r busy k) s
  | ⟨a, s', h⟩ => ⟨a, s', .head (.leave hb) h⟩

end MayReturn

/-! ## Proof outlines -/

/-- What is known of the hardware at one point of a program: a predicate that no
tick can break, and that is `safe`. -/
structure Assertion (tick : σ → σ → Prop) (safe : σ → Prop) where
  holds : σ → Prop
  stable : ∀ s s', tick s s' → holds s → holds s'
  safe : ∀ s, holds s → safe s

variable {safe : σ → Prop}

/-- An assertion with one more fact that no tick can break. -/
def Assertion.and (A : Assertion tick safe) (P : σ → Prop)
    (h : ∀ s s', tick s s' → P s → P s') : Assertion tick safe where
  holds s := A.holds s ∧ P s
  stable s s' ht hs := ⟨A.stable s s' ht hs.1, h s s' ht hs.2⟩
  safe s hs := A.safe s hs.1

/-- `Outline hw post pre p`: the program `p` with an assertion at every point of
it, from `pre` at its start to `post a` where it returns `a`. -/
inductive Outline (hw : Hw Reg σ) (post : α → Assertion tick safe) :
    Assertion tick safe → Prog Reg Site α → Prop
  | done {pre : Assertion tick safe} {a : α} :
      (∀ s, pre.holds s → (post a).holds s) → Outline hw post pre (.done a)
  | panic {pre : Assertion tick safe} {p : Panic} : Outline hw post pre (.panic p)
  | read {pre : Assertion tick safe} {site : Site} {r : Reg} {k : Word → Prog Reg Site α}
      (mid : Word → Assertion tick safe) :
      (∀ s, pre.holds s → (mid (hw.read r s).1).holds (hw.read r s).2) →
      (∀ v, Outline hw post (mid v) (k v)) → Outline hw post pre (.read site r k)
  | write {pre : Assertion tick safe} {site : Site} {r : Reg} {v : Word} {k : Prog Reg Site α}
      (mid : Assertion tick safe) :
      (∀ s, pre.holds s → mid.holds (hw.write r v s)) →
      Outline hw post mid k → Outline hw post pre (.write site r v k)
  | poll {pre : Assertion tick safe} {site : Site} {r : Reg} {busy : Word → Bool}
      {k : Prog Reg Site α} (inv mid : Assertion tick safe) :
      (∀ s, pre.holds s → inv.holds s) →
      (∀ s, inv.holds s → busy (hw.read r s).1 = true → inv.holds (hw.read r s).2) →
      (∀ s, inv.holds s → busy (hw.read r s).1 = false → mid.holds (hw.read r s).2) →
      Outline hw post mid k → Outline hw post pre (.poll site r busy k)

namespace Outline

variable {post : α → Assertion tick safe} {pre pre' : Assertion tick safe}
  {p p' : Prog Reg Site α} {s s' : σ}

theorem strengthen (h : Outline hw post pre p) (himp : ∀ s, pre'.holds s → pre.holds s) :
    Outline hw post pre' p := by
  cases h with
  | done hpost => exact .done fun s hs => hpost s (himp s hs)
  | panic => exact .panic
  | read mid hread hk => exact .read mid (fun s hs => hread s (himp s hs)) hk
  | write mid hwrite hk => exact .write mid (fun s hs => hwrite s (himp s hs)) hk
  | poll inv mid hinv hbusy hready hk =>
    exact .poll inv mid (fun s hs => hinv s (himp s hs)) hbusy hready hk

/-- Outlines compose as programs do. -/
theorem bind {mid : α → Assertion tick safe} {post : β → Assertion tick safe}
    {f : α → Prog Reg Site β} (h : Outline hw mid pre p)
    (hf : ∀ a, Outline hw post (mid a) (f a)) : Outline hw post pre (p >>= f) := by
  induction h with
  | done hpost => exact (hf _).strengthen hpost
  | panic => exact .panic
  | read mid hread _ ih => exact .read mid hread ih
  | write mid hwrite _ ih => exact .write mid hwrite ih
  | poll inv mid hinv hbusy hready _ ih => exact .poll inv mid hinv hbusy hready ih

/-- A loop, with one assertion for every value of its counter. -/
theorem forRange {n : Nat} {body : Nat → β → Prog Reg Site β} {b : β}
    (inv : Nat → β → Assertion tick safe)
    (hbody : ∀ i < n, ∀ b, Outline hw (inv (i + 1)) (inv i b) (body i b)) :
    Outline hw (inv n) (inv 0 b) (forRange n body b) := by
  induction n with
  | zero => exact .done fun _ hs => hs
  | succ n ih =>
    exact (ih fun i hi => hbody i (Nat.lt_succ_of_lt hi)).bind (hbody n (Nat.lt_succ_self n))

/-- A program confined to some registers keeps what no access to them breaks. -/
theorem frame {ok : Reg → Prop} {A : Assertion tick safe} {p : Prog Reg Site α}
    (h : p.Within ok) (hread : ∀ r s, ok r → A.holds s → A.holds (hw.read r s).2)
    (hwrite : ∀ r v s, ok r → A.holds s → A.holds (hw.write r v s)) :
    Outline hw (fun _ => A) A p := by
  induction p with
  | done a => exact .done fun _ hs => hs
  | panic p => exact .panic
  | read site r k ih =>
    exact .read (fun _ => A) (fun s hs => hread r s h.1 hs) fun v => ih v (h.2 v)
  | write site r v k ih => exact .write A (fun s hs => hwrite r v s h.1 hs) (ih h.2)
  | poll site r busy k ih =>
    exact .poll A A (fun _ hs => hs) (fun s hs _ => hread r s h.1 hs)
      (fun s hs _ => hread r s h.1 hs) (ih h.2)

/-- One step leads from an assertion of the outline to the next one. -/
theorem step (h : Outline hw post pre p) (hs : pre.holds s)
    (hstep : Step hw tick (p, s) (p', s')) :
    ∃ pre' : Assertion tick safe, Outline hw post pre' p' ∧ pre'.holds s' := by
  cases hstep with
  | tick ht => exact ⟨pre, h, pre.stable _ _ ht hs⟩
  | read =>
    cases h with
    | read mid hread hk => exact ⟨_, hk _, hread _ hs⟩
  | write =>
    cases h with
    | write mid hwrite hk => exact ⟨mid, hk, hwrite _ hs⟩
  | spin hb =>
    cases h with
    | poll inv mid hinv hbusy hready hk =>
      exact ⟨inv, .poll inv mid (fun _ hs => hs) hbusy hready hk, hbusy _ (hinv _ hs) hb⟩
  | leave hb =>
    cases h with
    | poll inv mid hinv hbusy hready hk => exact ⟨mid, hk, hready _ (hinv _ hs) hb⟩

/-- Every state of every run satisfies an assertion of the outline. -/
theorem run (h : Outline hw post pre p) (hs : pre.holds s)
    (hrun : Run hw tick (p, s) (p', s')) :
    ∃ pre' : Assertion tick safe, Outline hw post pre' p' ∧ pre'.holds s' := by
  generalize hc : (p', s') = c at hrun
  induction hrun generalizing p' s' with
  | refl =>
    cases hc
    exact ⟨pre, h, hs⟩
  | @tail c₁ c₂ _ hstep ih =>
    obtain ⟨pre₁, h₁, hs₁⟩ := ih rfl
    subst hc
    exact h₁.step hs₁ hstep

/-- Every state of every run is safe, and what a run returns satisfies the last
assertion. -/
theorem sound (h : Outline hw post pre p) (hs : pre.holds s)
    (hrun : Run hw tick (p, s) (p', s')) :
    safe s' ∧ ∀ a, p' = .done a → (post a).holds s' := by
  obtain ⟨pre', h', hs'⟩ := h.run hs hrun
  refine ⟨pre'.safe _ hs', ?_⟩
  rintro a rfl
  cases h' with
  | done hpost => exact hpost _ hs'

/-- The last assertion, for a run of `exec` on driven hardware. -/
theorem exec_driven {env : Nat → σ → σ} {patience : Nat} (henv : ∀ n s, tick s (env n s))
    (h : Outline hw post pre p) {c c' : Nat × σ} (hs : pre.holds c.2) {a : α}
    (hexec : exec (hw.driven env patience) p c = (.done a, c')) : (post a).holds c'.2 := by
  have hrun := Run.of_done (fun _ _ => False) (congrArg Prod.fst hexec)
  rw [hexec] at hrun
  exact (h.sound hs (hrun.of_driven henv)).2 a rfl

end Outline

end Mmio
