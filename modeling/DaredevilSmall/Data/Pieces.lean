import Mathlib.Data.List.Basic

/-!
# Cutting a list into pieces

`pieces first next l` cuts `l` into a piece of at most `first` elements and
pieces of at most `next` elements after it. There is always a first piece, so
the empty list has one, empty piece.

* `pieces_flatten`: the pieces, joined, are the list.
* `pieces_length_of_lt`: every piece but the last is full.
* `pieces_length`: how many pieces there are.
* `flatten_length_of_full`: how long full pieces are together.
-/

namespace Data

variable {α : Type}

def pieces (first next : Nat) (l : List α) : List (List α) :=
  l.take first :: if 0 < first ∧ first < l.length then pieces next next (l.drop first) else []
termination_by l.length
decreasing_by
  simp only [List.length_drop]
  omega

variable {first next : Nat} {l : List α}

theorem pieces_of_le (h : l.length ≤ first) : pieces first next l = [l] := by
  rw [pieces, if_neg (by omega), List.take_of_length_le h]

theorem pieces_of_lt (hpos : 0 < first) (h : first < l.length) :
    pieces first next l = l.take first :: pieces next next (l.drop first) := by
  rw [pieces, if_pos ⟨hpos, h⟩]

theorem pieces_ne_nil : pieces first next l ≠ [] := by
  rw [pieces]
  exact List.cons_ne_nil _ _

/-- The pieces, joined, are the list. -/
theorem pieces_flatten (hfirst : 0 < first) (hnext : 0 < next) :
    (pieces first next l).flatten = l := by
  induction hlen : l.length using Nat.strongRecOn generalizing first l with
  | ind n ih =>
    by_cases h : first < l.length
    · rw [pieces_of_lt hfirst h, List.flatten_cons,
        ih (l.drop first).length (by simp only [List.length_drop]; omega) hnext rfl]
      exact List.take_append_drop first l
    · rw [pieces_of_le (by omega)]
      simp

/-- Every piece but the last is full. -/
theorem pieces_length_of_lt (hfirst : 0 < first) (hnext : 0 < next) {i : Nat}
    (h : i + 1 < (pieces first next l).length) :
    (pieces first next l)[i].length = if i = 0 then first else next := by
  induction i generalizing first l with
  | zero =>
    by_cases hlt : first < l.length
    · simp only [pieces_of_lt hfirst hlt, List.getElem_cons_zero, List.length_take, if_true]
      omega
    · rw [pieces_of_le (by omega)] at h
      exact absurd h (by simp)
  | succ i ih =>
    by_cases hlt : first < l.length
    · simp only [pieces_of_lt hfirst hlt, List.length_cons] at h
      have hrest := ih (l := l.drop first) hnext (by omega)
      simp only [pieces_of_lt hfirst hlt, List.getElem_cons_succ, hrest, ite_self]
      simp
    · rw [pieces_of_le (by omega)] at h
      exact absurd h (by simp)

theorem pieces_length_le (hfirst : 0 < first) (hnext : 0 < next) {c : List α}
    (hc : c ∈ pieces first next l) : c.length ≤ max first next := by
  induction hlen : l.length using Nat.strongRecOn generalizing first l with
  | ind n ih =>
    by_cases h : first < l.length
    · rw [pieces_of_lt hfirst h, List.mem_cons] at hc
      rcases hc with rfl | hc
      · simp only [List.length_take]
        omega
      · have hrest := ih (l.drop first).length (by simp only [List.length_drop]; omega) hnext hc rfl
        omega
    · rw [pieces_of_le (by omega), List.mem_singleton] at hc
      subst hc
      omega

/-- How many pieces there are: one, and one more for every `next` elements begun
beyond the first `first`. -/
theorem pieces_length (hfirst : 0 < first) (hnext : 0 < next) :
    (pieces first next l).length = 1 + (l.length - first + (next - 1)) / next := by
  induction hlen : l.length using Nat.strongRecOn generalizing first l with
  | ind n ih =>
    subst hlen
    rcases Nat.lt_or_ge first l.length with h | h
    · obtain ⟨d, hd⟩ : ∃ d, l.length - first = d + 1 := ⟨l.length - first - 1, by omega⟩
      have hrest := ih (l.drop first).length (by simp only [List.length_drop]; omega) hnext rfl
      have hstep : (d + 1 + (next - 1)) / next = d / next + 1 := by
        rw [show d + 1 + (next - 1) = d + next by omega, Nat.add_div_right _ hnext]
      have hmore : (d + 1 - next + (next - 1)) / next = d / next := by
        rcases Nat.lt_or_ge d next with hlt | hge
        · rw [Nat.div_eq_of_lt hlt, Nat.div_eq_of_lt (by omega)]
        · rw [show d + 1 - next + (next - 1) = d by omega]
      rw [pieces_of_lt hfirst h, List.length_cons, hrest, List.length_drop, hd, hstep, hmore]
      omega
    · rw [pieces_of_le h, Nat.sub_eq_zero_of_le h, Nat.zero_add,
        Nat.div_eq_of_lt (Nat.sub_one_lt_of_lt hnext)]
      rfl

/-- How long a list of full pieces is. -/
theorem flatten_length_of_full {ls : List (List α)}
    (h : ∀ i (hi : i < ls.length), ls[i].length = if i = 0 then first else next) :
    ls.flatten.length = if ls.length = 0 then 0 else first + next * (ls.length - 1) := by
  cases ls with
  | nil => rfl
  | cons l ls =>
    have hfirst : l.length = first := h 0 (Nat.succ_pos _)
    have hnext : ∀ l' ∈ ls, l'.length = next := by
      intro l' hl'
      obtain ⟨i, hi, rfl⟩ := List.getElem_of_mem hl'
      exact h (i + 1) (Nat.succ_lt_succ hi)
    rw [List.flatten_cons, List.length_append, hfirst, List.length_flatten,
      List.map_congr_left hnext, List.map_const', List.sum_replicate_nat]
    simp [Nat.mul_comm]

end Data
