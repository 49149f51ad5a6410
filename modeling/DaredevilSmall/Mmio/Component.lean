import DaredevilSmall.Mmio.Prog

/-!
# Components

A component answers calls, one after the other, from a state of its own. A call
may also end in a panic or not at all; then nothing is called after it.

`Simulates` relates a component to the one that specifies it, call by call, and
`Refines` to a relation that may allow more than one answer. `Simulates.run` and
`Refines.run` are the inductions over the calls, done once.
-/

namespace Mmio

/-- How a component answers a call, and its state after it. -/
abbrev Component (Call Reply σ : Type) := Call → σ → Outcome Reply × σ

variable {Call Reply σ τ : Type}

/-- The answers to a list of calls, up to the first that is no value. -/
def Component.run (f : Component Call Reply σ) : List Call → σ → List (Outcome Reply) × σ
  | [], s => ([], s)
  | call :: calls, s =>
    match f call s with
    | (.done a, s') => (.done a :: (Component.run f calls s').1, (Component.run f calls s').2)
    | (.panicked p, s') => ([.panicked p], s')
    | (.hung, s') => ([.hung], s')

/-- A component that answers every call, by a function of the call alone. -/
theorem Component.run_map (f : Call → Reply) (calls : List Call) (s : σ) :
    Component.run (fun call s => (.done (f call), s)) calls s =
      (calls.map fun call => .done (f call), s) := by
  induction calls with
  | nil => rfl
  | cons call calls ih =>
    simp only [Component.run, List.map_cons, ih]

/-- Calls after calls that have all been answered. -/
theorem Component.run_append {f : Component Call Reply σ} {calls : List Call}
    {replies : List Reply} {s s' : σ} (h : Component.run f calls s = (replies.map .done, s'))
    (more : List Call) :
    Component.run f (calls ++ more) s =
      (replies.map .done ++ (Component.run f more s').1, (Component.run f more s').2) := by
  induction calls generalizing s replies with
  | nil =>
    obtain ⟨hnil, rfl⟩ := Prod.mk.inj h
    rw [← hnil]
    rfl
  | cons call calls ih =>
    unfold Component.run at h
    rw [List.cons_append, Component.run]
    cases hcall : f call s with
    | mk out s₁ =>
      rw [hcall] at h
      cases replies with
      | nil => cases out <;> cases h
      | cons reply replies =>
        cases out with
        | done a =>
          obtain ⟨hreplies, hstate⟩ := Prod.mk.inj h
          obtain ⟨hreply, hreplies⟩ := List.cons.inj hreplies
          simp only [ih (Prod.ext hreplies hstate), hreply, List.map_cons, List.cons_append]
        | panicked p => cases h
        | hung => cases h

/-- In states related by `R`, both components answer every call in the same way,
and the states after it are related again. -/
def Simulates (spec : Component Call Reply τ) (impl : Component Call Reply σ)
    (R : τ → σ → Prop) : Prop :=
  ∀ call t s, R t s → (impl call s).1 = (spec call t).1 ∧ R (spec call t).2 (impl call s).2

/-- What holds of every call holds of every list of calls. -/
theorem Simulates.run {spec : Component Call Reply τ} {impl : Component Call Reply σ}
    {R : τ → σ → Prop} (h : Simulates spec impl R) (calls : List Call) {t : τ} {s : σ}
    (hR : R t s) :
    (Component.run impl calls s).1 = (Component.run spec calls t).1 ∧
      R (Component.run spec calls t).2 (Component.run impl calls s).2 := by
  induction calls generalizing t s with
  | nil => exact ⟨rfl, hR⟩
  | cons call calls ih =>
    obtain ⟨houtcome, hstate⟩ := h call t s hR
    unfold Component.run
    cases hspec : spec call t with
    | mk out t' =>
      cases himpl : impl call s with
      | mk out' s' =>
        rw [hspec, himpl] at houtcome hstate
        obtain rfl : out' = out := houtcome
        cases out' with
        | done a =>
          obtain ⟨hreplies, hrest⟩ := ih hstate
          exact ⟨congrArg _ hreplies, hrest⟩
        | panicked p => exact ⟨rfl, hstate⟩
        | hung => exact ⟨rfl, hstate⟩

/-! ## Specifications that leave a choice -/

/-- From one state to another, by calls and replies that the specification allows. -/
inductive Path (spec : τ → Call → Reply → τ → Prop) : τ → List Call → List Reply → τ → Prop
  | nil {t : τ} : Path spec t [] [] t
  | cons {t t₁ t₂ : τ} {call : Call} {reply : Reply} {calls : List Call} {replies : List Reply} :
    spec t call reply t₁ → Path spec t₁ calls replies t₂ →
    Path spec t (call :: calls) (reply :: replies) t₂

/-- In related states the component answers every call, as the specification allows, and
the states after it are related again. -/
def Refines (spec : τ → Call → Reply → τ → Prop) (impl : Component Call Reply σ)
    (R : τ → σ → Prop) : Prop :=
  ∀ call t s, R t s →
    ∃ reply t' s', impl call s = (.done reply, s') ∧ spec t call reply t' ∧ R t' s'

/-- A list of calls is answered along a path of the specification. -/
theorem Refines.run {spec : τ → Call → Reply → τ → Prop} {impl : Component Call Reply σ}
    {R : τ → σ → Prop} (h : Refines spec impl R) (calls : List Call) {t : τ} {s : σ}
    (hR : R t s) :
    ∃ replies t' s', Component.run impl calls s = (replies.map .done, s') ∧
      Path spec t calls replies t' ∧ R t' s' := by
  induction calls generalizing t s with
  | nil => exact ⟨[], t, s, rfl, .nil, hR⟩
  | cons call calls ih =>
    obtain ⟨reply, t₁, s₁, himpl, hspec, hR₁⟩ := h call t s hR
    obtain ⟨replies, t', s', hrun, hpath, hR'⟩ := ih hR₁
    refine ⟨reply :: replies, t', s', ?_, .cons hspec hpath, hR'⟩
    simp only [Component.run, himpl, hrun, List.map_cons]

end Mmio
