import DaredevilSmall.Csec.Driver
import Mathlib.Tactic.IntervalCases

/-!
# PRAM as memory

What the PRAM accessors of the driver do to the byte view of PRAM, on any
hardware whose words are memory. On the CSEc this holds of all words but word 0,
on PRAM alone of all of them, so a `PramView` names the first word it holds of.

One lemma for each accessor: the value it returns and the PRAM it leaves. Readers
leave the hardware as it is. Writers `splice` their bytes into the byte view.
-/

namespace Csec

open Mmio

variable {σ : Type} {hw : Hw CseReg σ} {first : Nat} {s : σ}

/-- Hardware with a PRAM whose words from `first` on are memory. `put s words p`
is the state `s` after writes to `words` that have left the PRAM `p`. -/
structure PramView (hw : Hw CseReg σ) (first : Nat) where
  pram : σ → Pram
  put : σ → List (Fin 32) → Pram → σ
  read : ∀ n s, hw.read (.ram n) s = (pram s n, s)
  write : ∀ (n : Fin 32) v s, first ≤ (n : Nat) →
    hw.write (.ram n) v s = put s [n] (Function.update (pram s) n v)
  pram_put : ∀ s words p, pram (put s words p) = p
  put_put : ∀ s a b p q, put (put s a p) b q = put s (a ++ b) q
  put_nil : ∀ s, put s [] (pram s) = s

namespace RamLemmas

theorem shiftRight_two (n : Nat) : n >>> 2 = n / 4 := Nat.shiftRight_eq_div_pow n 2

theorem and_three (n : Nat) : n &&& 3 = n % 4 := Nat.and_two_pow_sub_one_eq_mod n 2

theorem and_two (n : Nat) : n &&& 2 = n % 4 &&& 2 := by
  rw [← and_three, Nat.and_assoc]
  rfl

theorem and_two_eq_zero {n : Nat} (h : n % 4 = 0) : n &&& 2 = 0 := by
  rw [and_two, h]
  rfl

theorem and_two_ne_zero {n : Nat} (h : n % 4 = 2) : n &&& 2 ≠ 0 := by
  rw [and_two, h]
  decide

/-- An even offset is that of the upper or the lower half of a word. -/
theorem half_cases {offset : Nat} (heven : offset % 2 = 0) :
    (∃ n, offset = 4 * n) ∨ ∃ n, offset = 4 * n + 2 := by
  rcases (by omega : offset % 4 = 0 ∨ offset % 4 = 2) with h | h
  · exact Or.inl ⟨offset / 4, by omega⟩
  · exact Or.inr ⟨offset / 4, by omega⟩

theorem shiftRight_upper (n : Nat) : (4 * n) >>> 2 = n := by
  rw [shiftRight_two]
  omega

theorem shiftRight_lower (n : Nat) : (4 * n + 2) >>> 2 = n := by
  rw [shiftRight_two]
  omega

theorem and_two_upper (n : Nat) : (4 * n) &&& 2 = 0 := and_two_eq_zero (Nat.mul_mod_right 4 n)

theorem and_two_lower (n : Nat) : (4 * n + 2) &&& 2 ≠ 0 :=
  and_two_ne_zero (Nat.mul_add_mod 4 n 2)

theorem setWidth_and_mask (x : Word) : (x &&& 0xff).setWidth 8 = x.setWidth 8 := by
  rw [BitVec.setWidth_and]
  exact BitVec.and_allOnes

end RamLemmas

open RamLemmas

theorem u8BeArrayFromU32_eq (x : Word) :
    u8BeArrayFromU32 x = #v[lane x 0, lane x 1, lane x 2, lane x 3] := by
  simp only [u8BeArrayFromU32, setWidth_and_mask, lane]

theorem u8BeArrayFromU32_be (b0 b1 b2 b3 : Byte) :
    u8BeArrayFromU32 (be b0 b1 b2 b3) = #v[b0, b1, b2, b3] := by
  rw [u8BeArrayFromU32_eq, lane_be _ _ _ _ (by decide), lane_be _ _ _ _ (by decide),
    lane_be _ _ _ _ (by decide), lane_be _ _ _ _ (by decide)]
  rfl

theorem u32FromBeBytes_u8BeArrayFromU32 (x : Word) :
    u32FromBeBytes (u8BeArrayFromU32 x) = x := by
  rw [u8BeArrayFromU32_eq]
  exact be_lane x

namespace RamLemmas

theorem lane_pram (p : Pram) {n k : Nat} (hn : n < 32) (hk : k < 4) :
    lane (p ⟨n, hn⟩) k = byteAt p (4 * n + k) :=
  (MemoryLemmas.byteAt_lane p ⟨n, hn⟩ hk).symm

/-- A word of PRAM is the four bytes at its offset. -/
theorem bytes_of_word (p : Pram) {n : Nat} (hn : n < 32) :
    u8BeArrayFromU32 (p ⟨n, hn⟩) =
      #v[byteAt p (4 * n), byteAt p (4 * n + 1), byteAt p (4 * n + 2), byteAt p (4 * n + 3)] := by
  rw [u8BeArrayFromU32_eq, lane_pram p hn (by decide), lane_pram p hn (by decide),
    lane_pram p hn (by decide), lane_pram p hn (by decide)]
  rfl

theorem word_of_bytes (p : Pram) {n : Nat} (hn : n < 32) :
    u32FromBeBytes #v[byteAt p (4 * n), byteAt p (4 * n + 1), byteAt p (4 * n + 2),
      byteAt p (4 * n + 3)] = p ⟨n, hn⟩ := by
  rw [← bytes_of_word p hn, u32FromBeBytes_u8BeArrayFromU32]

end RamLemmas

namespace PramView

variable (V : PramView hw first)

/-! ## Single words -/

theorem exec_readPram (site : Site) {n : Nat} (hn : n < 32) :
    exec hw (readPram site n) s =
      (.done #v[byteAt (V.pram s) (4 * n), byteAt (V.pram s) (4 * n + 1),
        byteAt (V.pram s) (4 * n + 2), byteAt (V.pram s) (4 * n + 3)], s) := by
  unfold readPram
  rw [dif_pos hn, exec_bind_of _ (exec_readReg _ _ _ _), V.read]
  exact congrArg (fun v => (Outcome.done v, s)) (bytes_of_word (V.pram s) hn)

theorem exec_writePram (site : Site) {n : Nat} (hfirst : first ≤ n) (hn : n < 32)
    (b0 b1 b2 b3 : Byte) :
    exec hw (writePram site n #v[b0, b1, b2, b3]) s =
      (.done (), V.put s [wordAt (4 * n)] (splice (V.pram s) (4 * n) [b0, b1, b2, b3])) := by
  have hword : wordAt (4 * n) = ⟨n, hn⟩ :=
    Fin.ext ((wordAt_val (Nat.mul_lt_mul_of_pos_left hn (by decide))).trans (by simp))
  unfold writePram
  rw [dif_pos hn, exec_writeReg, hword, ← update_eq_splice (V.pram s) ⟨n, hn⟩,
    V.write _ _ _ hfirst]
  rfl

theorem exec_readCommandHalfword {offset : Nat} (heven : offset % 2 = 0) (hfit : offset < 128) :
    exec hw (readCommandHalfword offset) s = (.done (halfwordAt (V.pram s) offset), s) := by
  unfold readCommandHalfword
  rcases half_cases heven with ⟨n, rfl⟩ | ⟨n, rfl⟩
  · rw [shiftRight_upper, exec_bind_of _ (V.exec_readPram _ (by omega)),
      if_neg (not_not_intro (and_two_upper n))]
    rfl
  · rw [shiftRight_lower, exec_bind_of _ (V.exec_readPram _ (by omega)),
      if_pos (and_two_lower n)]
    rfl

theorem exec_readCommandByte {offset : Nat} (hfit : offset < 128) :
    exec hw (readCommandByte offset) s = (.done (byteAt (V.pram s) offset), s) := by
  unfold readCommandByte
  rw [shiftRight_two, exec_bind_of _ (V.exec_readPram _ (by omega)), and_three]
  have hdiv : byteAt (V.pram s) offset = byteAt (V.pram s) (4 * (offset / 4) + offset % 4) := by
    congr 1
    omega
  rcases (by omega : offset % 4 = 0 ∨ offset % 4 = 1 ∨ offset % 4 = 2 ∨ offset % 4 = 3) with
    h | h | h | h
  all_goals
    rw [hdiv, h]
    rfl

end PramView

namespace RamLemmas

/-- Rewriting a word with one byte replaced writes that byte. -/
theorem splice_word_byte (p : Pram) (n : Nat) {k : Nat} (hk : k < 4) (b : Byte) :
    splice p (4 * n)
        ([byteAt p (4 * n), byteAt p (4 * n + 1), byteAt p (4 * n + 2),
          byteAt p (4 * n + 3)].set k b) = splice p (4 * n + k) [b] := by
  apply memory_ext
  intro i hi
  rw [byteAt_splice _ _ _ hi, byteAt_splice _ _ _ hi, patched, patched]
  by_cases hin : 4 * n ≤ i ∧ i < 4 * n + 4
  · obtain ⟨j, hj, rfl⟩ : ∃ j < 4, i = 4 * n + j := ⟨i - 4 * n, by omega, by omega⟩
    interval_cases j <;> interval_cases k <;> simp
  · by_cases hlo : 4 * n ≤ i
    · rw [if_pos hlo, if_pos (by omega), List.getElem?_eq_none (by simp; omega),
        List.getElem?_eq_none (by simp; omega)]
    · rw [if_neg hlo, if_neg (by omega)]

end RamLemmas

theorem PramView.exec_writeCommandByte (V : PramView hw first) {offset : Nat}
    (hfirst : 4 * first ≤ offset) (hfit : offset < 128) (b : Byte) :
    exec hw (writeCommandByte offset b) s =
      (.done (), V.put s [wordAt offset] (splice (V.pram s) offset [b])) := by
  have hword : wordAt offset = wordAt (4 * (offset / 4)) := wordAt_congr (by omega)
  have hsplice : splice (V.pram s) offset [b] =
      splice (V.pram s) (4 * (offset / 4) + offset % 4) [b] := by
    congr 1
    omega
  unfold writeCommandByte
  rw [shiftRight_two, exec_bind_of _ (V.exec_readPram _ (by omega)), and_three,
    hword, hsplice, ← splice_word_byte _ _ (by omega)]
  rcases (by omega : offset % 4 = 0 ∨ offset % 4 = 1 ∨ offset % 4 = 2 ∨ offset % 4 = 3) with
    h | h | h | h
  all_goals
    rw [h]
    exact V.exec_writePram _ (by omega) (by omega) _ _ _ _

/-! ## Buffers -/

namespace RamLemmas

theorem exec_writeTail (V : PramView hw first) {offset : Nat} {buf : List Byte}
    (hfirst : 4 * first ≤ offset) (hfit : offset + buf.length ≤ 128)
    (hword : offset % 4 + buf.length ≤ 4) :
    exec hw (writeCommandBytes.tail offset buf) s =
      (.done (), V.put s (List.replicate buf.length (wordAt offset))
        (splice (V.pram s) offset buf)) := by
  induction buf generalizing offset s with
  | nil =>
    rw [splice_nil, List.length_nil, List.replicate_zero, V.put_nil]
    rfl
  | cons b buf ih =>
    simp only [List.length_cons] at hfit hword
    have hrest : List.replicate buf.length (wordAt (offset + 1)) =
        List.replicate buf.length (wordAt offset) := by
      cases buf with
      | nil => rfl
      | cons b' buf =>
        simp only [List.length_cons] at hword
        rw [wordAt_congr (show (offset + 1) / 4 = offset / 4 by omega)]
    rw [writeCommandBytes.tail, exec_bind_of _ (V.exec_writeCommandByte hfirst (by omega) b),
      ih (by omega) (by omega) (by omega), V.put_put, V.pram_put, hrest,
      show offset + 1 = offset + [b].length from rfl, splice_append]
    rfl

theorem exec_readTail (V : PramView hw first) {offset : Nat} {buf : List Byte}
    (hfit : offset + buf.length ≤ 128) :
    exec hw (readCommandBytes.tail offset buf) s =
      (.done (slice (V.pram s) offset buf.length), s) := by
  induction buf generalizing offset with
  | nil => rfl
  | cons b buf ih =>
    simp only [List.length_cons] at hfit
    rw [readCommandBytes.tail, exec_bind_of _ (V.exec_readCommandByte (by omega)),
      exec_bind_of _ (ih (by omega)), List.length_cons, Nat.add_comm buf.length,
      ← slice_append]
    rfl

end RamLemmas

namespace PramView

variable (V : PramView hw first)

/-- `write_command_bytes` writes its buffer, whatever the length modulo 4. -/
theorem exec_writeCommandBytes {offset : Nat} {buf : List Byte} (halign : offset % 4 = 0)
    (hfirst : 4 * first ≤ offset) (hfit : offset + buf.length ≤ 128) :
    exec hw (writeCommandBytes offset buf) s =
      (.done (), V.put s (wordsOf offset buf.length) (splice (V.pram s) offset buf)) := by
  induction offset, buf using writeCommandBytes.induct generalizing s with
  | case1 offset b0 b1 b2 b3 buf ih =>
    simp only [List.length_cons] at hfit
    have hdiv : 4 * (offset / 4) = offset := by omega
    rw [writeCommandBytes, shiftRight_two,
      exec_bind_of _ (V.exec_writePram _ (by omega) (by omega) _ _ _ _),
      ih (by omega) (by omega) (by omega), V.put_put, V.pram_put, hdiv,
      show offset + 4 = offset + [b0, b1, b2, b3].length from rfl, splice_append]
    rfl
  | case2 offset buf hshort =>
    have hlen : buf.length < 4 := by
      match buf, hshort with
      | [], _ | [_], _ | [_, _], _ | [_, _, _], _ => simp
      | b0 :: b1 :: b2 :: b3 :: buf, h => exact absurd rfl (h b0 b1 b2 b3 buf)
    have hwords : wordsOf offset buf.length = List.replicate buf.length (wordAt offset) := by
      rw [wordsOf]
      exact fun n h => absurd hlen (by omega)
    rw [writeCommandBytes, hwords]
    · exact exec_writeTail V hfirst hfit (by omega)
    · exact hshort

/-- `read_command_bytes` fills its buffer, whatever the length modulo 4. -/
theorem exec_readCommandBytes {offset : Nat} {buf : List Byte} (halign : offset % 4 = 0)
    (hfit : offset + buf.length ≤ 128) :
    exec hw (readCommandBytes offset buf) s =
      (.done (slice (V.pram s) offset buf.length), s) := by
  induction offset, buf using readCommandBytes.induct with
  | case1 offset b0 b1 b2 b3 buf ih =>
    simp only [List.length_cons] at hfit
    have hdiv : 4 * (offset / 4) = offset := by omega
    have hlen : (b0 :: b1 :: b2 :: b3 :: buf).length = 4 + buf.length := by simp; omega
    rw [readCommandBytes, shiftRight_two, exec_bind_of _ (V.exec_readPram _ (by omega)),
      exec_bind_of _ (ih (by omega) (by omega)), hdiv, hlen, ← slice_append]
    rfl
  | case2 offset buf hshort =>
    rw [readCommandBytes]
    · exact exec_readTail V hfit
    · exact hshort

end PramView

/-! ## Half-words -/

/-- The high byte of a half-word. -/
def hi (v : Halfword) : Byte := (v >>> 8).setWidth 8

/-- The low byte of a half-word. -/
def lo (v : Halfword) : Byte := v.setWidth 8

theorem hi_append_lo (v : Halfword) : hi v ++ lo v = v := by
  apply BitVec.eq_of_getLsbD_eq
  intro i hi'
  simp only [hi, lo, BitVec.getLsbD_append, BitVec.getLsbD_setWidth, BitVec.getLsbD_ushiftRight]
  grind

theorem halfwordAt_splice_self (p : Pram) {offset : Nat} (v : Halfword) (hfit : offset + 2 ≤ 128) :
    halfwordAt (splice p offset [hi v, lo v]) offset = v := by
  have hhi : byteAt (splice p offset [hi v, lo v]) (offset + 0) = hi v :=
    byteAt_splice_inside p [hi v, lo v] (j := 0) (by simp) hfit
  have hlo : byteAt (splice p offset [hi v, lo v]) (offset + 1) = lo v :=
    byteAt_splice_inside p [hi v, lo v] (j := 1) (by simp) hfit
  exact (congrArg₂ (· ++ ·) hhi hlo).trans (hi_append_lo v)

namespace RamLemmas

/-- The masks and the shift of the lower half. -/
theorem replace_lower (w : Word) (v : Halfword) :
    (w &&& ~~~lowerHalfMask) ||| ((v.setWidth 32 <<< lowerHalfShift) &&& lowerHalfMask) =
      be (lane w 0) (lane w 1) (hi v) (lo v) := by
  apply BitVec.eq_of_getLsbD_eq
  intro i hi'
  rw [MemoryLemmas.getLsbD_be]
  interval_cases i <;> simp [lane, hi, lo, lowerHalfMask, lowerHalfShift]

/-- With the shift of the lower half, the mask of the upper half removes all of
the half-word. -/
theorem clear_upper (w : Word) (v : Halfword) :
    (w &&& ~~~upperHalfMask) ||| ((v.setWidth 32 <<< lowerHalfShift) &&& upperHalfMask) =
      be 0 0 (lane w 2) (lane w 3) := by
  apply BitVec.eq_of_getLsbD_eq
  intro i hi'
  rw [MemoryLemmas.getLsbD_be]
  interval_cases i <;> simp [lane, upperHalfMask, lowerHalfShift]

theorem splice_lower (p : Pram) {n : Nat} (hn : n < 32) (b2 b3 : Byte) :
    splice p (4 * n) [lane (p ⟨n, hn⟩) 0, lane (p ⟨n, hn⟩) 1, b2, b3] =
      splice p (4 * n + 2) [b2, b3] := by
  rw [lane_pram p hn (by decide), lane_pram p hn (by decide)]
  calc
    splice p (4 * n) [byteAt p (4 * n), byteAt p (4 * n + 1), b2, b3]
      = splice (splice p (4 * n) (slice p (4 * n) 2)) (4 * n + 2) [b2, b3] :=
        (splice_append p (4 * n) (slice p (4 * n) 2) [b2, b3]).symm
    _ = splice p (4 * n + 2) [b2, b3] := by rw [splice_slice]

theorem splice_upper (p : Pram) {n : Nat} (hn : n < 32) (b0 b1 : Byte) :
    splice p (4 * n) [b0, b1, lane (p ⟨n, hn⟩) 2, lane (p ⟨n, hn⟩) 3] =
      splice p (4 * n) [b0, b1] := by
  have hrest : slice (splice p (4 * n) [b0, b1]) (4 * n + 2) 2 = slice p (4 * n + 2) 2 :=
    slice_splice_of_disjoint _ (Or.inr (Nat.le_refl _))
  rw [lane_pram p hn (by decide), lane_pram p hn (by decide)]
  calc
    splice p (4 * n) [b0, b1, byteAt p (4 * n + 2), byteAt p (4 * n + 3)]
      = splice (splice p (4 * n) [b0, b1]) (4 * n + 2) (slice p (4 * n + 2) 2) :=
        (splice_append p (4 * n) [b0, b1] (slice p (4 * n + 2) 2)).symm
    _ = splice p (4 * n) [b0, b1] := by rw [← hrest, splice_slice]

end RamLemmas

namespace PramView

variable (V : PramView hw first)

/-- A half-word at the lower half of a word is written. -/
theorem exec_writeCommandHalfword_lower {offset : Nat} (hlower : offset % 4 = 2)
    (hfirst : 4 * first ≤ offset) (hfit : offset < 128) (v : Halfword) :
    exec hw (writeCommandHalfword offset v) s =
      (.done (), V.put s [wordAt offset] (splice (V.pram s) offset [hi v, lo v])) := by
  obtain ⟨n, rfl⟩ : ∃ n, offset = 4 * n + 2 := ⟨offset / 4, by omega⟩
  have hn : n < 32 := by omega
  have hword : wordAt (4 * n) = wordAt (4 * n + 2) := wordAt_congr (by omega)
  unfold writeCommandHalfword writeCommandHalfword.page
  rw [shiftRight_lower, exec_bind_of _ (V.exec_readPram _ hn), word_of_bytes _ hn,
    if_pos (and_two_lower n), replace_lower, u8BeArrayFromU32_be]
  rw [V.exec_writePram _ (by omega) hn, splice_lower, hword]

/-- A half-word at the upper half of a word is not written: the half is set to
zero, whatever the value. -/
theorem exec_writeCommandHalfword_upper {offset : Nat} (hupper : offset % 4 = 0)
    (hfirst : 4 * first ≤ offset) (hfit : offset < 128) (v : Halfword) :
    exec hw (writeCommandHalfword offset v) s =
      (.done (), V.put s [wordAt offset] (splice (V.pram s) offset [0, 0])) := by
  obtain ⟨n, rfl⟩ : ∃ n, offset = 4 * n := ⟨offset / 4, by omega⟩
  have hn : n < 32 := by omega
  unfold writeCommandHalfword writeCommandHalfword.page
  rw [shiftRight_upper, exec_bind_of _ (V.exec_readPram _ hn), word_of_bytes _ hn,
    if_neg (not_not_intro (and_two_upper n)), clear_upper, u8BeArrayFromU32_be]
  rw [V.exec_writePram _ (by omega) hn, splice_upper]

/-- Every word of `write_command_words` goes to the same place, and its upper
half is lost. -/
theorem exec_writeCommandWords {offset : Nat} (halign : offset % 4 = 0)
    (hfirst : 4 * first ≤ offset) (hfit : offset < 128) (words : List Word) :
    exec hw (writeCommandWords offset words) s =
      (.done (), V.put s (words.flatMap fun _ => [wordAt offset, wordAt offset])
        (words.foldl (fun p w => splice p offset [0, 0, hi (w.setWidth 16), lo (w.setWidth 16)])
          (V.pram s))) := by
  induction words generalizing s with
  | nil => exact congrArg (Prod.mk (Outcome.done ())) (V.put_nil s).symm
  | cons w ws ih =>
    have hlow : ((w &&& 0xffff) >>> 0).setWidth 16 = w.setWidth 16 := by
      rw [BitVec.ushiftRight_zero, BitVec.setWidth_and]
      exact BitVec.and_allOnes
    rw [writeCommandWords, exec_bind_of _ (V.exec_writeCommandHalfword_upper halign hfirst hfit _),
      exec_bind_of _ (V.exec_writeCommandHalfword_lower (by omega) (by omega) (by omega) _), ih,
      V.put_put, V.put_put, V.pram_put, V.pram_put,
      wordAt_congr (a := offset + 2) (b := offset) (by omega), hlow,
      show offset + 2 = offset + ([0, 0] : List Byte).length from rfl, splice_append]
    rfl

end PramView

end Csec
