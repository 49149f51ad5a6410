/-!
# Chains

A chain repeats a step for as long as it is busy: a loop, or a job that is taken further
each time it is called upon. `Ends` is what it comes to, and after how many steps.

* `Ends.advance`: a chain that has been taken a step further comes to the same.
* `Ends.rule`: the rule of loops, with an invariant and a variant.
* `Ends.map`: the chains of a system inside another one.
-/

namespace Mmio

variable {γ : Type}

/-- The chain at `c` is over at `c'`, after `n` steps. -/
inductive Ends (busy : γ → Bool) (step : γ → γ) : Nat → γ → γ → Prop
  | rest {c : γ} : busy c = false → Ends busy step 0 c c
  | more {n : Nat} {c c' : γ} : busy c = true → Ends busy step n (step c) c' →
    Ends busy step (n + 1) c c'

namespace Ends

variable {busy : γ → Bool} {step : γ → γ} {c c₁ : γ} {n : Nat}

theorem not_busy (h : Ends busy step n c c₁) : busy c₁ = false := by
  induction h with
  | rest hrest => exact hrest
  | more _ _ ih => exact ih

theorem advance (hbusy : busy c = true) (h : Ends busy step n c c₁) :
    ∃ m, n = m + 1 ∧ Ends busy step m (step c) c₁ := by
  cases h with
  | rest hrest => exact absurd (hbusy.symm.trans hrest) (by decide)
  | more _ hmore => exact ⟨_, rfl, hmore⟩

theorem eq_of_rest (hrest : busy c = false) (h : Ends busy step n c c₁) : n = 0 ∧ c₁ = c := by
  cases h with
  | rest => exact ⟨rfl, rfl⟩
  | more hbusy _ => exact absurd (hbusy.symm.trans hrest) (by decide)

/-- A busy chain whose steps keep an invariant and make a measure smaller, but for the
last step, which establishes the result. -/
theorem rule (inv result : γ → Prop) (size : γ → Nat)
    (hstep : ∀ c, busy c = true → inv c →
      (busy (step c) = true ∧ inv (step c) ∧ size (step c) < size c) ∨
        (busy (step c) = false ∧ result (step c)))
    (hbusy : busy c = true) (hc : inv c) :
    ∃ n c', n ≤ size c + 1 ∧ Ends busy step n c c' ∧ result c' := by
  induction hsize : size c using Nat.strongRecOn generalizing c with
  | ind k ih =>
    rcases hstep c hbusy hc with ⟨hnext, hinv, hless⟩ | ⟨hlast, hresult⟩
    · obtain ⟨n, c', hn, hends, hc'⟩ := ih _ (hsize ▸ hless) hnext hinv rfl
      exact ⟨n + 1, c', by omega, more hbusy hends, hc'⟩
    · exact ⟨1, step c, Nat.le_add_left 1 k, more hbusy (rest hlast), hresult⟩

/-- A chain whose measure becomes smaller as long as it is busy comes to an end. -/
theorem total (inv : γ → Prop) (size : γ → Nat)
    (hstep : ∀ c, busy c = true → inv c → busy (step c) = true →
      inv (step c) ∧ size (step c) < size c)
    (hbusy : busy c = true) (hc : inv c) : ∃ n c', n ≤ size c + 1 ∧ Ends busy step n c c' := by
  obtain ⟨n, c', hn, hends, _⟩ := rule inv (fun _ => True) size (fun c hbusy h => by
    cases hnext : busy (step c) with
    | true => exact Or.inl ⟨rfl, hstep c hbusy h hnext⟩
    | false => exact Or.inr ⟨rfl, trivial⟩) hbusy hc
  exact ⟨n, c', hn, hends⟩

/-- A map that commutes with the steps, as long as an invariant holds, takes chains to
chains. -/
theorem map {γ' : Type} {busy' : γ' → Bool} {step' : γ' → γ'} (f : γ → γ') (inv : γ → Prop)
    (hbusy : ∀ c, busy' (f c) = busy c)
    (hstep : ∀ c, busy c = true → inv c → step' (f c) = f (step c) ∧ inv (step c))
    (h : Ends busy step n c c₁) (hc : inv c) : Ends busy' step' n (f c) (f c₁) := by
  induction h with
  | rest hrest => exact .rest ((hbusy _).trans hrest)
  | more hmore _ ih =>
    obtain ⟨hnext, hinv⟩ := hstep _ hmore hc
    refine .more ((hbusy _).trans hmore) ?_
    rw [hnext]
    exact ih hinv

end Ends

end Mmio
