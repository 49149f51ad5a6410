import Mathlib.Algebra.GroupWithZero.Nat
import Mathlib.Logic.Function.Basic

/-!
# Word memory seen as bytes

A peripheral RAM is an array of 32-bit words, `Fin n → BitVec 32`. Drivers
fill it with byte buffers, most significant byte of a word first. This module
gives such a memory its byte view.

* `be` and `lane` convert between a word and its four bytes; `getField` and
  `setField` access a field of bits.
* `byteAt`, `halfwordAt` and `slice` read the byte view, `splice` writes a
  buffer into it.
* `memory_ext`: a memory is determined by its bytes.
* `byteAt_splice` says what `splice` does to each byte; `splice_append`,
  `slice_splice_self` and `slice_splice_of_disjoint` follow from it.
-/

namespace Mmio

abbrev Byte := BitVec 8

abbrev Halfword := BitVec 16

/-- The word with the given bytes, the most significant one first. -/
def be (b0 b1 b2 b3 : Byte) : BitVec 32 := b0 ++ b1 ++ b2 ++ b3

/-- Byte `k` of a word, counted from the most significant one. -/
def lane (w : BitVec 32) (k : Nat) : Byte := (w >>> (24 - 8 * k)).setWidth 8

namespace MemoryLemmas

theorem getLsbD_be (b0 b1 b2 b3 : Byte) (i : Nat) :
    (be b0 b1 b2 b3).getLsbD i =
      if i < 8 then b3.getLsbD i else if i < 16 then b2.getLsbD (i - 8)
      else if i < 24 then b1.getLsbD (i - 16) else b0.getLsbD (i - 24) := by
  simp only [be, BitVec.getLsbD_append]
  grind

theorem getLsbD_lane (w : BitVec 32) (k i : Nat) :
    (lane w k).getLsbD i = (decide (i < 8) && w.getLsbD (24 - 8 * k + i)) := by
  simp only [lane, BitVec.getLsbD_setWidth, BitVec.getLsbD_ushiftRight]

end MemoryLemmas

open MemoryLemmas

theorem lane_be {k : Nat} (b0 b1 b2 b3 : Byte) (hk : k < 4) :
    lane (be b0 b1 b2 b3) k = [b0, b1, b2, b3][k] := by
  apply BitVec.eq_of_getLsbD_eq
  intro i hi
  rw [getLsbD_lane, getLsbD_be]
  obtain rfl | rfl | rfl | rfl : k = 0 ∨ k = 1 ∨ k = 2 ∨ k = 3 := by omega
  all_goals
    simp only [hi, decide_true, Bool.true_and]
    grind

/-- Two words with the same bytes are equal. -/
theorem word_ext {w w' : BitVec 32} (h : ∀ k < 4, lane w k = lane w' k) : w = w' := by
  apply BitVec.eq_of_getLsbD_eq
  intro i hi
  have hbit := congrArg (fun b => b.getLsbD (i % 8)) (h (3 - i / 8) (by omega))
  simp only [getLsbD_lane, show i % 8 < 8 by omega, decide_true, Bool.true_and] at hbit
  have hi' : 24 - 8 * (3 - i / 8) + i % 8 = i := by omega
  rwa [hi'] at hbit

theorem be_lane (w : BitVec 32) : be (lane w 0) (lane w 1) (lane w 2) (lane w 3) = w := by
  apply word_ext
  intro k hk
  rw [lane_be _ _ _ _ hk]
  obtain rfl | rfl | rfl | rfl : k = 0 ∨ k = 1 ∨ k = 2 ∨ k = 3 := by omega
  all_goals rfl

/-! ## Fields -/

/-- The field of `width` bits at `offset`. -/
def getField (w : BitVec 32) (offset width : Nat) : BitVec 32 :=
  (w >>> offset) &&& BitVec.ofNat 32 (2 ^ width - 1)

/-- The word with `v` in the field of `width` bits at `offset`. -/
def setField (w : BitVec 32) (offset width : Nat) (v : BitVec 32) : BitVec 32 :=
  (w &&& ~~~(BitVec.ofNat 32 (2 ^ width - 1) <<< offset)) |||
    ((v &&& BitVec.ofNat 32 (2 ^ width - 1)) <<< offset)

namespace MemoryLemmas

theorem getLsbD_mask (width i : Nat) :
    (BitVec.ofNat 32 (2 ^ width - 1)).getLsbD i = (decide (i < 32) && decide (i < width)) := by
  rw [BitVec.getLsbD_ofNat, Nat.testBit_two_pow_sub_one]

theorem getLsbD_setField (w v : BitVec 32) (offset width : Nat) {i : Nat} (hi : i < 32) :
    (setField w offset width v).getLsbD i =
      if offset ≤ i ∧ i < offset + width then v.getLsbD (i - offset) else w.getLsbD i := by
  simp only [setField, BitVec.getLsbD_or, BitVec.getLsbD_and, BitVec.getLsbD_not,
    BitVec.getLsbD_shiftLeft, getLsbD_mask, hi, decide_true, Bool.true_and]
  grind

end MemoryLemmas

/-- A field reads back what was written to it, cut to its width. -/
theorem getField_setField (w v : BitVec 32) {offset width : Nat} (h : offset + width ≤ 32) :
    getField (setField w offset width v) offset width = v &&& BitVec.ofNat 32 (2 ^ width - 1) := by
  apply BitVec.eq_of_getLsbD_eq
  intro i hi
  rw [getField, BitVec.getLsbD_and, BitVec.getLsbD_and, getLsbD_mask, BitVec.getLsbD_ushiftRight]
  by_cases hin : i < width
  · have hsub : offset + i - offset = i := Nat.add_sub_cancel_left _ _
    rw [getLsbD_setField _ _ _ _ (by omega), if_pos (by omega), hsub]
  · simp [hin]

/-- A field keeps its value when another one is written. -/
theorem getField_setField_of_disjoint (w v : BitVec 32) {offset width offset' width' : Nat}
    (hfit : offset' + width' ≤ 32) (h : offset' + width' ≤ offset ∨ offset + width ≤ offset') :
    getField (setField w offset width v) offset' width' = getField w offset' width' := by
  apply BitVec.eq_of_getLsbD_eq
  intro i hi
  rw [getField, getField, BitVec.getLsbD_and, BitVec.getLsbD_and, getLsbD_mask,
    BitVec.getLsbD_ushiftRight, BitVec.getLsbD_ushiftRight]
  by_cases hin : i < width'
  · rw [getLsbD_setField _ _ _ _ (by omega), if_neg (by omega)]
  · simp [hin]

/-- Writing byte `k` of a word leaves the other bytes alone. -/
theorem lane_setField (w : BitVec 32) {k j : Nat} (hk : k < 4) (hj : j < 4) (b : Byte) :
    lane (setField w (24 - 8 * k) 8 (b.setWidth 32)) j = if j = k then b else lane w j := by
  apply BitVec.eq_of_getLsbD_eq
  intro i hi
  rw [getLsbD_lane, getLsbD_setField _ _ _ _ (by omega)]
  by_cases hjk : j = k
  · subst hjk
    have hsub : 24 - 8 * j + i - (24 - 8 * j) = i := Nat.add_sub_cancel_left _ _
    rw [if_pos (by omega), if_pos rfl, hsub, BitVec.getLsbD_setWidth]
    simp [hi, show i < 32 by omega]
  · rw [if_neg (by omega), if_neg hjk, getLsbD_lane]

/-! ## The byte view -/

variable {n : Nat}

/-- Byte `i` of the memory. -/
def byteAt (m : Fin n → BitVec 32) (i : Nat) : Byte :=
  if h : i / 4 < n then lane (m ⟨i / 4, h⟩) (i % 4) else 0

/-- The big-endian half-word at byte offset `i`. -/
def halfwordAt (m : Fin n → BitVec 32) (i : Nat) : Halfword := byteAt m i ++ byteAt m (i + 1)

/-- The `len` bytes from offset `off` on. -/
def slice (m : Fin n → BitVec 32) (off len : Nat) : List Byte :=
  (List.range len).map fun j => byteAt m (off + j)

/-- What byte `i` becomes when `buf` is written at `off`. -/
def patched (off : Nat) (buf : List Byte) (i : Nat) (old : Byte) : Byte :=
  if off ≤ i then buf[i - off]?.getD old else old

/-- The memory after `buf` has been written at offset `off`. -/
def splice (m : Fin n → BitVec 32) (off : Nat) (buf : List Byte) : Fin n → BitVec 32 := fun w =>
  let b k := patched off buf (4 * w + k) (lane (m w) k)
  be (b 0) (b 1) (b 2) (b 3)

namespace MemoryLemmas

theorem lane_splice (m : Fin n → BitVec 32) (off : Nat) (buf : List Byte) (w : Fin n) {k : Nat}
    (hk : k < 4) :
    lane (splice m off buf w) k = patched off buf (4 * w + k) (lane (m w) k) := by
  simp only [splice]
  rw [lane_be _ _ _ _ hk]
  obtain rfl | rfl | rfl | rfl : k = 0 ∨ k = 1 ∨ k = 2 ∨ k = 3 := by omega
  all_goals rfl

theorem byteAt_lane (m : Fin n → BitVec 32) (w : Fin n) {k : Nat} (hk : k < 4) :
    byteAt m (4 * w + k) = lane (m w) k := by
  have hdiv : (4 * (w : Nat) + k) / 4 = w := by omega
  have hmod : (4 * (w : Nat) + k) % 4 = k := by omega
  simp only [byteAt, hdiv, hmod, w.isLt, dif_pos]

end MemoryLemmas

/-- A memory is determined by its bytes. -/
theorem memory_ext {m m' : Fin n → BitVec 32} (h : ∀ i < 4 * n, byteAt m i = byteAt m' i) :
    m = m' := by
  funext w
  apply word_ext
  intro k hk
  rw [← byteAt_lane m w hk, ← byteAt_lane m' w hk]
  exact h _ (by omega)

theorem byteAt_splice (m : Fin n → BitVec 32) (off : Nat) (buf : List Byte) {i : Nat}
    (hi : i < 4 * n) : byteAt (splice m off buf) i = patched off buf i (byteAt m i) := by
  have hw : i / 4 < n := by omega
  have hsplit : 4 * (i / 4) + i % 4 = i := by omega
  simp only [byteAt, hw, dif_pos]
  rw [lane_splice _ _ _ _ (by omega)]
  exact congrArg (patched off buf · _) hsplit

theorem byteAt_splice_of_lt (m : Fin n → BitVec 32) {off i : Nat} (buf : List Byte)
    (h : i < off) : byteAt (splice m off buf) i = byteAt m i := by
  by_cases hi : i < 4 * n
  · rw [byteAt_splice _ _ _ hi, patched, if_neg (by omega)]
  · simp only [byteAt, show ¬ i / 4 < n by omega, dif_neg, not_false_iff]

theorem byteAt_splice_of_ge (m : Fin n → BitVec 32) {off i : Nat} (buf : List Byte)
    (h : off + buf.length ≤ i) : byteAt (splice m off buf) i = byteAt m i := by
  by_cases hi : i < 4 * n
  · rw [byteAt_splice _ _ _ hi, patched, if_pos (by omega),
      List.getElem?_eq_none (by omega), Option.getD_none]
  · simp only [byteAt, show ¬ i / 4 < n by omega, dif_neg, not_false_iff]

theorem byteAt_splice_inside (m : Fin n → BitVec 32) {off j : Nat} (buf : List Byte)
    (hj : j < buf.length) (hfit : off + buf.length ≤ 4 * n) :
    byteAt (splice m off buf) (off + j) = buf[j] := by
  rw [byteAt_splice _ _ _ (by omega), patched, if_pos (by omega)]
  simp [hj]

theorem halfwordAt_splice_of_disjoint (m : Fin n → BitVec 32) {off i : Nat} {buf : List Byte}
    (h : i + 2 ≤ off ∨ off + buf.length ≤ i) :
    halfwordAt (splice m off buf) i = halfwordAt m i := by
  rcases h with h | h
  · rw [halfwordAt, byteAt_splice_of_lt _ _ (by omega), byteAt_splice_of_lt _ _ (by omega)]
    rfl
  · rw [halfwordAt, byteAt_splice_of_ge _ _ h, byteAt_splice_of_ge _ _ (by omega)]
    rfl

@[simp] theorem splice_nil (m : Fin n → BitVec 32) (off : Nat) : splice m off [] = m := by
  apply memory_ext
  intro i hi
  rw [byteAt_splice _ _ _ hi]
  simp [patched]

/-- Two adjacent writes are one. -/
theorem splice_append (m : Fin n → BitVec 32) (off : Nat) (a b : List Byte) :
    splice (splice m off a) (off + a.length) b = splice m off (a ++ b) := by
  apply memory_ext
  intro i hi
  simp only [byteAt_splice _ _ _ hi, patched, List.getElem?_append]
  by_cases hge : off ≤ i
  · by_cases hin : i - off < a.length
    · rw [if_neg (by omega), if_pos hge, if_pos hge, if_pos hin]
    · rw [if_pos (by omega), if_pos hge, if_pos hge, if_neg hin,
        List.getElem?_eq_none (Nat.le_of_not_lt hin), Option.getD_none, Nat.sub_sub]
  · rw [if_neg (by omega), if_neg hge, if_neg hge]

/-- A write hides one of no more bytes at the same place. -/
theorem splice_splice_of_le (m : Fin n → BitVec 32) (off : Nat) {a b : List Byte}
    (h : a.length ≤ b.length) : splice (splice m off a) off b = splice m off b := by
  apply memory_ext
  intro i hi
  simp only [byteAt_splice _ _ _ hi, patched]
  by_cases hge : off ≤ i
  · rw [if_pos hge, if_pos hge, if_pos hge]
    by_cases hin : i - off < b.length
    · rw [List.getElem?_eq_getElem hin]
      rfl
    · rw [List.getElem?_eq_none (Nat.le_of_not_lt hin),
        List.getElem?_eq_none (Nat.le_trans h (Nat.le_of_not_lt hin))]
      rfl
  · rw [if_neg hge, if_neg hge, if_neg hge]

/-- Writing one whole word. -/
theorem update_eq_splice (m : Fin n → BitVec 32) (w : Fin n) (b0 b1 b2 b3 : Byte) :
    Function.update m w (be b0 b1 b2 b3) = splice m (4 * w) [b0, b1, b2, b3] := by
  funext v
  by_cases hv : v = w
  · subst hv
    rw [Function.update_self]
    simp [splice, patched]
  · rw [Function.update_of_ne hv]
    apply word_ext
    intro k hk
    rw [lane_splice _ _ _ _ hk, patched]
    have hne : (v : Nat) ≠ w := fun h => hv (Fin.ext h)
    by_cases hge : 4 * (w : Nat) ≤ 4 * v + k
    · rw [if_pos hge, List.getElem?_eq_none (by simp; omega), Option.getD_none]
    · rw [if_neg hge]

theorem byteAt_update (m : Fin n → BitVec 32) (w : Fin n) (v : BitVec 32) (i : Nat) :
    byteAt (Function.update m w v) i = if i / 4 = w then lane v (i % 4) else byteAt m i := by
  by_cases hw : i / 4 = w
  · rw [if_pos hw, byteAt, dif_pos (hw ▸ w.isLt)]
    simp only [hw, Fin.eta, Function.update_self]
  · rw [if_neg hw, byteAt, byteAt]
    split
    · rw [Function.update_of_ne fun h => hw (congrArg Fin.val h)]
    · rfl

/-- Writing byte `i` of the memory alone. -/
theorem byteAt_update_setField (m : Fin n → BitVec 32) {i : Nat} (hi : i / 4 < n) (b : Byte)
    (j : Nat) :
    byteAt (Function.update m ⟨i / 4, hi⟩
        (setField (m ⟨i / 4, hi⟩) (24 - 8 * (i % 4)) 8 (b.setWidth 32))) j =
      if j = i then b else byteAt m j := by
  rw [byteAt_update]
  by_cases hword : j / 4 = i / 4
  · have hlane : byteAt m j = lane (m ⟨i / 4, hi⟩) (j % 4) := by
      rw [byteAt, dif_pos (hword ▸ hi)]
      simp only [hword]
    rw [if_pos hword, lane_setField _ (Nat.mod_lt _ (by decide)) (Nat.mod_lt _ (by decide)), hlane]
    by_cases hji : j = i
    · rw [if_pos hji, if_pos (by rw [hji])]
    · rw [if_neg hji, if_neg (by omega)]
  · rw [if_neg hword, if_neg fun hji => hword (by rw [hji])]

/-! ## Slices -/

@[simp] theorem slice_length (m : Fin n → BitVec 32) (off len : Nat) :
    (slice m off len).length = len := by
  simp [slice]

theorem slice_getElem (m : Fin n → BitVec 32) {off len j : Nat} (h : j < (slice m off len).length) :
    (slice m off len)[j] = byteAt m (off + j) := by
  simp [slice]

theorem slice_append (m : Fin n → BitVec 32) (off a b : Nat) :
    slice m off a ++ slice m (off + a) b = slice m off (a + b) := by
  simp [slice, List.range_add, Function.comp_def, Nat.add_assoc]

theorem slice_congr {m m' : Fin n → BitVec 32} {off len : Nat}
    (h : ∀ j < len, byteAt m (off + j) = byteAt m' (off + j)) :
    slice m off len = slice m' off len := by
  apply List.map_congr_left
  intro j hj
  exact h j (List.mem_range.mp hj)

theorem slice_splice_self (m : Fin n → BitVec 32) {off : Nat} {buf : List Byte}
    (hfit : off + buf.length ≤ 4 * n) : slice (splice m off buf) off buf.length = buf := by
  apply List.ext_getElem (slice_length _ _ _)
  intro j h₁ h₂
  rw [slice_getElem, byteAt_splice_inside _ _ h₂ hfit]

theorem slice_splice_of_disjoint (m : Fin n → BitVec 32) {off len off' : Nat} {buf : List Byte}
    (h : off + len ≤ off' ∨ off' + buf.length ≤ off) :
    slice (splice m off' buf) off len = slice m off len := by
  apply slice_congr
  intro j hj
  rcases h with h | h
  · exact byteAt_splice_of_lt _ _ (by omega)
  · exact byteAt_splice_of_ge _ _ (by omega)

/-- Writing back what is there changes nothing. -/
theorem splice_slice (m : Fin n → BitVec 32) (off len : Nat) :
    splice m off (slice m off len) = m := by
  apply memory_ext
  intro i hi
  rw [byteAt_splice _ _ _ hi, patched]
  by_cases hge : off ≤ i
  · rw [if_pos hge]
    by_cases hin : i - off < len
    · rw [List.getElem?_eq_getElem (by simpa using hin), slice_getElem, Option.getD_some,
        Nat.add_sub_cancel' hge]
    · rw [List.getElem?_eq_none (by simpa using hin), Option.getD_none]
  · rw [if_neg hge]

end Mmio
