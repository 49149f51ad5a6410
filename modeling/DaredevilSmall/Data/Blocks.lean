import Mathlib.Data.List.Basic

/-!
# Blocks and bits

`toBlocks n` cuts a list into blocks of exactly `n` elements and drops what does
not fill a block; `ofBlocks` joins them again. The two are inverse on lists of
whole blocks. `bitsOf` is the bit string of a list of bytes, most significant
bit first.
-/

namespace Data

variable {α : Type} {n : Nat}

def toBlocks (n : Nat) (l : List α) : List (Vector α n) :=
  if h : 0 < n ∧ n ≤ l.length then
    ⟨(l.take n).toArray, by simp [h.2]⟩ :: toBlocks n (l.drop n)
  else []
termination_by l.length
decreasing_by
  simp only [List.length_drop]
  omega

def ofBlocks (bs : List (Vector α n)) : List α := bs.flatMap Vector.toList

@[simp] theorem ofBlocks_nil : ofBlocks ([] : List (Vector α n)) = [] := rfl

@[simp] theorem ofBlocks_cons (b : Vector α n) (bs : List (Vector α n)) :
    ofBlocks (b :: bs) = b.toList ++ ofBlocks bs := List.flatMap_cons

theorem ofBlocks_append (as bs : List (Vector α n)) :
    ofBlocks (as ++ bs) = ofBlocks as ++ ofBlocks bs := List.flatMap_append

@[simp] theorem ofBlocks_length (bs : List (Vector α n)) :
    (ofBlocks bs).length = n * bs.length := by
  induction bs with
  | nil => rfl
  | cons b bs ih =>
    rw [ofBlocks_cons, List.length_append, Vector.length_toList, ih, List.length_cons,
      Nat.mul_succ, Nat.add_comm]

theorem toBlocks_of_lt {l : List α} (h : l.length < n) : toBlocks n l = [] := by
  rw [toBlocks, dif_neg fun hle => absurd hle.2 (Nat.not_le.mpr h)]

theorem toBlocks_toList_append (hn : 0 < n) (b : Vector α n) (l : List α) :
    toBlocks n (b.toList ++ l) = b :: toBlocks n l := by
  have hle : n ≤ (b.toList ++ l).length := by
    rw [List.length_append, Vector.length_toList]
    exact Nat.le_add_right _ _
  have htake : (b.toList ++ l).take n = b.toList := List.take_left' Vector.length_toList
  have hdrop : (b.toList ++ l).drop n = l := List.drop_left' Vector.length_toList
  rw [toBlocks, dif_pos ⟨hn, hle⟩]
  simp only [htake, hdrop]
  rfl

theorem toBlocks_ofBlocks (hn : 0 < n) (bs : List (Vector α n)) :
    toBlocks n (ofBlocks bs) = bs := by
  induction bs with
  | nil => exact toBlocks_of_lt hn
  | cons b bs ih => rw [ofBlocks_cons, toBlocks_toList_append hn, ih]

/-- A list of whole blocks comes from its blocks. -/
theorem ofBlocks_toBlocks {l : List α} (h : l.length % n = 0) : ofBlocks (toBlocks n l) = l := by
  induction l using toBlocks.induct n with
  | case1 l hle ih =>
    have hrest : (l.drop n).length % n = 0 := by
      rw [List.length_drop, ← Nat.mod_eq_sub_mod hle.2, h]
    rw [toBlocks, dif_pos hle, ofBlocks_cons, ih hrest]
    exact List.take_append_drop n l
  | case2 l hlt =>
    rw [toBlocks, dif_neg hlt, ofBlocks_nil]
    rcases Nat.eq_zero_or_pos n with rfl | hn
    · exact (List.eq_nil_of_length_eq_zero (by rwa [Nat.mod_zero] at h)).symm
    · have hshort : l.length < n := Nat.not_le.mp fun hle => hlt ⟨hn, hle⟩
      rw [Nat.mod_eq_of_lt hshort] at h
      exact (List.eq_nil_of_length_eq_zero h).symm

theorem toBlocks_append (hn : 0 < n) {a : List α} (h : a.length % n = 0) (b : List α) :
    toBlocks n (a ++ b) = toBlocks n a ++ toBlocks n b := by
  rw [← ofBlocks_toBlocks h, toBlocks_ofBlocks hn]
  generalize toBlocks n a = as
  induction as with
  | nil => rfl
  | cons c cs ih => rw [ofBlocks_cons, List.append_assoc, toBlocks_toList_append hn, ih]; rfl

theorem toBlocks_length {l : List α} (h : l.length % n = 0) :
    n * (toBlocks n l).length = l.length := by
  rw [← ofBlocks_length, ofBlocks_toBlocks h]

/-! ## Bits -/

/-- The bits of a byte string, most significant bit first. -/
def bitsOf (bytes : List (BitVec 8)) : List Bool :=
  bytes.flatMap fun b => List.ofFn fun i : Fin 8 => b.getMsbD i

theorem bitsOf_append (a b : List (BitVec 8)) : bitsOf (a ++ b) = bitsOf a ++ bitsOf b :=
  List.flatMap_append

@[simp] theorem bitsOf_length (bytes : List (BitVec 8)) :
    (bitsOf bytes).length = 8 * bytes.length := by
  induction bytes with
  | nil => rfl
  | cons b bytes ih =>
    rw [bitsOf, List.flatMap_cons, List.length_append, List.length_ofFn, List.length_cons]
    exact (congrArg (8 + ·) ih).trans (by rw [Nat.mul_succ, Nat.add_comm])

/-- The first bits of a longer string, when they fill whole bytes. -/
theorem bitsOf_append_take (a b : List (BitVec 8)) :
    (bitsOf (a ++ b)).take (8 * a.length) = bitsOf a := by
  rw [bitsOf_append, ← bitsOf_length a, List.take_left]

end Data
