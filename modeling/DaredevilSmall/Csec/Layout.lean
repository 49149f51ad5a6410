import DaredevilSmall.Csec.Ram

/-!
# The layout of PRAM

The accessors of the driver against what they are for. PRAM is taken on its own
here, as 32 words of memory, so that every offset counts, word 0 included. The
functions of the reference driver that the accessors are ported from stand beside
them, as functions on PRAM.

1. `commandBytes_exact`: the byte accessors are exact and framed.
2. `halfword_roundTrips_iff`: a half-word reads back as it was written in the lower
   half of a word only, since both arms of `write_command_halfword` shift alike.
3. `commandWords_laidOut_iff`: `write_command_words` leaves the lower half of its
   last word at `offset`, and nothing else.
-/

namespace Csec

open Mmio RamLemmas

variable {p : Pram} {offset : Nat}

/-- PRAM on its own: 32 words of memory, with no engine behind them. -/
def pramHw : Hw CseReg Pram where
  read
    | .ram n, p => (p n, p)
    | .fstat, p => (ccif, p)
  write
    | .ram n, v, p => Function.update p n v
    | .fstat, _, p => p
  patience _ _ := 0

/-- All of it is memory. -/
def pramView : PramView pramHw 0 where
  pram p := p
  put _ _ p := p
  read _ _ := rfl
  write _ _ _ _ := rfl
  pram_put _ _ _ := rfl
  put_put _ _ _ _ _ := rfl
  put_nil _ := rfl

/-! ## Bytes -/

/-- Write each byte of a buffer on its own. -/
def writeEachByte (offset : Nat) (buf : List Byte) : Driver Unit :=
  forRange buf.length (fun i _ => writeCommandByte (offset + i) (buf.getD i 0)) ()

namespace LayoutLemmas

theorem exec_writeEachByte {buf : List Byte} (hfit : offset + buf.length ≤ 128) :
    exec pramHw (writeEachByte offset buf) p = (.done (), splice p offset buf) := by
  have hupTo (n : Nat) (hn : n ≤ buf.length) :
      exec pramHw (forRange n (fun i _ => writeCommandByte (offset + i) (buf.getD i 0)) ()) p =
        (.done (), splice p offset (buf.take n)) := by
    induction n with
    | zero => simp [forRange]
    | succ n ih =>
      have hbyte : buf.getD n 0 = buf[n] := by
        rw [List.getD_eq_getElem?_getD, List.getElem?_eq_getElem hn, Option.getD_some]
      have hlen : (buf.take n).length = n := List.length_take_of_le (Nat.le_of_lt hn)
      have hstep : splice (splice p offset (buf.take n)) (offset + n) [buf[n]] =
          splice p offset (buf.take (n + 1)) := by
        rw [← List.take_append_getElem hn, ← splice_append, hlen]
      rw [forRange, exec_bind_of _ (ih (Nat.le_of_lt hn)), hbyte, ← hstep]
      exact pramView.exec_writeCommandByte (by simp) (by omega) _
  have hall := hupTo buf.length (Nat.le_refl _)
  rwa [List.take_length] at hall

end LayoutLemmas

open LayoutLemmas

/-- `write_command_bytes` replaces the bytes of its range and no others, as
writing each of them on its own does, and `read_command_bytes` reads them back, as
`read_command_byte` does for each. -/
theorem commandBytes_exact (p : Pram) (offset : Nat) (buf : List Byte) (halign : offset % 4 = 0)
    (hfit : offset + buf.length ≤ 128) :
    ∃ p', exec pramHw (writeCommandBytes offset buf) p = (.done (), p') ∧
      (∀ j (hj : j < buf.length), byteAt p' (offset + j) = buf[j]) ∧
      (∀ i, i < offset ∨ offset + buf.length ≤ i → byteAt p' i = byteAt p i) ∧
      exec pramHw (writeEachByte offset buf) p = (.done (), p') ∧
      (∀ out : List Byte, out.length = buf.length →
        exec pramHw (readCommandBytes offset out) p' = (.done buf, p')) ∧
      ∀ j (hj : j < buf.length),
        exec pramHw (readCommandByte (offset + j)) p' = (.done buf[j], p') := by
  have hinside (j : Nat) (hj : j < buf.length) :
      byteAt (splice p offset buf) (offset + j) = buf[j] := byteAt_splice_inside p buf hj hfit
  refine ⟨splice p offset buf, pramView.exec_writeCommandBytes halign (by simp) hfit, hinside,
    ?_, exec_writeEachByte hfit, ?_, ?_⟩
  · rintro i (hlt | hge)
    · exact byteAt_splice_of_lt p buf hlt
    · exact byteAt_splice_of_ge p buf hge
  · intro out hout
    rw [pramView.exec_readCommandBytes halign (hout ▸ hfit), hout]
    exact congrArg (fun b => (Outcome.done b, _)) (slice_splice_self p hfit)
  · intro j hj
    rw [pramView.exec_readCommandByte (by omega)]
    exact congrArg (fun b => (Outcome.done b, _)) (hinside j hj)

/-- Five bytes from offset 0 on: one whole word and one byte of the next. -/
theorem commandBytes_exact_five :
    ∃ p' : Pram, exec pramHw (writeCommandBytes 0 [1, 2, 3, 4, 5]) (fun _ => 0xffffffff) =
        (.done (), p') ∧
      byteAt p' 4 = 5 ∧ byteAt p' 5 = 0xff ∧
      exec pramHw (readCommandBytes 0 [0, 0, 0, 0, 0]) p' = (.done [1, 2, 3, 4, 5], p') := by
  obtain ⟨p', hwrite, hinside, houtside, _, hread, _⟩ :=
    commandBytes_exact (fun _ => 0xffffffff) 0 [1, 2, 3, 4, 5] rfl (by decide)
  exact ⟨p', hwrite, hinside 4 (by decide), (houtside 5 (by decide)).trans (by decide),
    hread [0, 0, 0, 0, 0] rfl⟩

/-! ## Half-words -/

/-- `CSEC_UPPER_HALF_SHIFT`. -/
def csecUpperHalfShift : Nat := 16

/-- The word that `CSEC_WriteCommandHalfWord` writes back. -/
def csecWriteCommandHalfWord.tmp (offset : Nat) (halfWord : Halfword) (tmp : Word) : Word :=
  if offset &&& 2 ≠ 0 then
    (tmp &&& ~~~lowerHalfMask) ||| ((halfWord.setWidth 32 <<< lowerHalfShift) &&& lowerHalfMask)
  else
    (tmp &&& ~~~upperHalfMask) |||
      ((halfWord.setWidth 32 <<< csecUpperHalfShift) &&& upperHalfMask)

/-- `CSEC_WriteCommandHalfWord` of the reference driver. -/
def csecWriteCommandHalfWord (offset : Nat) (halfWord : Halfword) (p : Pram) : Pram :=
  if h : offset >>> 2 < 32 then
    Function.update p ⟨offset >>> 2, h⟩
      (csecWriteCommandHalfWord.tmp offset halfWord (p ⟨offset >>> 2, h⟩))
  else p

/-- A half-word written at `offset` reads back, every other half-word reads as
before, and the effect is that of the reference. -/
def RoundTrips (p : Pram) (offset : Nat) (v : Halfword) : Prop :=
  ∃ p', exec pramHw (writeCommandHalfword offset v) p = (.done (), p') ∧
    exec pramHw (readCommandHalfword offset) p' = (.done v, p') ∧
    (∀ i, i % 2 = 0 → i < 128 → i ≠ offset →
      (exec pramHw (readCommandHalfword i) p').1 = (exec pramHw (readCommandHalfword i) p).1) ∧
    p' = csecWriteCommandHalfWord offset v p

namespace LayoutLemmas

/-- The reference shifts to the upper half. -/
theorem replace_upper (w : Word) (v : Halfword) :
    (w &&& ~~~upperHalfMask) ||| ((v.setWidth 32 <<< csecUpperHalfShift) &&& upperHalfMask) =
      be (hi v) (lo v) (lane w 2) (lane w 3) := by
  apply BitVec.eq_of_getLsbD_eq
  intro i hi'
  rw [MemoryLemmas.getLsbD_be]
  interval_cases i <;> simp [lane, hi, lo, upperHalfMask, csecUpperHalfShift]

/-- The reference writes either half. -/
theorem csecWriteCommandHalfWord_eq (heven : offset % 2 = 0) (hfit : offset < 128) (v : Halfword) :
    csecWriteCommandHalfWord offset v p = splice p offset [hi v, lo v] := by
  unfold csecWriteCommandHalfWord csecWriteCommandHalfWord.tmp
  rcases half_cases heven with ⟨n, rfl⟩ | ⟨n, rfl⟩
  · have hn : n < 32 := by omega
    simp only [shiftRight_upper, dif_pos hn]
    rw [if_neg (not_not_intro (and_two_upper n)), replace_upper, update_eq_splice, splice_upper]
  · have hn : n < 32 := by omega
    simp only [shiftRight_lower, dif_pos hn]
    rw [if_pos (and_two_lower n), replace_lower, update_eq_splice, splice_lower]

/-- A half-word write that reaches PRAM. -/
theorem roundTrips_of_exec {v : Halfword} (heven : offset % 2 = 0) (hfit : offset < 128)
    (h : exec pramHw (writeCommandHalfword offset v) p =
      (.done (), splice p offset [hi v, lo v])) : RoundTrips p offset v := by
  refine ⟨_, h, ?_, ?_, (csecWriteCommandHalfWord_eq heven hfit v).symm⟩
  · rw [pramView.exec_readCommandHalfword heven hfit]
    exact congrArg (fun b => (Outcome.done b, _)) (halfwordAt_splice_self p v (by omega))
  · intro i hi hi' hne
    rw [pramView.exec_readCommandHalfword hi hi', pramView.exec_readCommandHalfword hi hi']
    exact congrArg Outcome.done (halfwordAt_splice_of_disjoint p (by simp; omega))

end LayoutLemmas

/-- `write_command_halfword` round-trips in the lower half of a word. In the upper
half it writes 0, so it does so for 0 only. -/
theorem halfword_roundTrips_iff (p : Pram) (offset : Nat) (v : Halfword) (heven : offset % 2 = 0)
    (hfit : offset < 128) : RoundTrips p offset v ↔ offset % 4 = 2 ∨ v = 0 := by
  rcases (by omega : offset % 4 = 0 ∨ offset % 4 = 2) with hupper | hlower
  · have hexec := pramView.exec_writeCommandHalfword_upper (s := p) hupper (by simp) hfit v
    constructor
    · rintro ⟨p', hwrite, hread, _⟩
      obtain rfl : splice p offset [0, 0] = p' := congrArg Prod.snd (hexec.symm.trans hwrite)
      rw [pramView.exec_readCommandHalfword heven hfit] at hread
      have hzero : halfwordAt (splice p offset [0, 0]) offset = 0 :=
        halfwordAt_splice_self p 0 (by omega)
      exact Or.inr ((Outcome.done.inj (congrArg Prod.fst hread)).symm.trans hzero)
    · rintro (hlower | rfl)
      · omega
      · exact roundTrips_of_exec heven hfit hexec
  · refine iff_of_true (roundTrips_of_exec heven hfit ?_) (Or.inl hlower)
    exact pramView.exec_writeCommandHalfword_lower hlower (by simp) hfit v

/-- `PAGE_LENGTH` lies in the lower half of its word. -/
theorem halfword_roundTrips_pageLength : RoundTrips (fun _ => 0) pageLengthOffset 0x1234 :=
  (halfword_roundTrips_iff (fun _ => 0) pageLengthOffset 0x1234 rfl (by decide)).mpr (Or.inl rfl)

/-- The upper half of the message length, which lies in the upper half of its
word, is lost. -/
theorem halfword_lost :
    macMessageLengthOffset % 2 = 0 ∧ macMessageLengthOffset < 128 ∧
      ¬ RoundTrips (fun _ => 0) macMessageLengthOffset 0x1 := by
  refine ⟨rfl, by decide, ?_⟩
  rintro ⟨p', hwrite, hread, _⟩
  obtain rfl := congrArg Prod.snd hwrite
  exact absurd (congrArg Prod.fst hread) (by decide)

/-! ## Words -/

/-- The loop of `CSEC_WriteCommandWords`, at word `n` of PRAM. -/
def csecWriteCommandWords.loop : Nat → List Word → Pram → Pram
  | _, [], p => p
  | n, word :: words, p =>
    loop (n + 1) words (if h : n < 32 then Function.update p ⟨n, h⟩ word else p)

/-- `CSEC_WriteCommandWords` of the reference driver. -/
def csecWriteCommandWords (offset : Nat) (words : List Word) (p : Pram) : Pram :=
  csecWriteCommandWords.loop (offset >>> 2) words p

/-- The words stand in PRAM in sequence from `offset` on, the words outside their
range are as before, and the effect is that of the reference. -/
def LaidOut (p : Pram) (offset : Nat) (words : List Word) : Prop :=
  ∃ p', exec pramHw (writeCommandWords offset words) p = (.done (), p') ∧
    (∀ i (hi : i < words.length), p' (wordAt (offset + 4 * i)) = words[i]) ∧
    (∀ n : Fin 32, 4 * (n : Nat) < offset ∨ offset + 4 * words.length ≤ 4 * n → p' n = p n) ∧
    p' = csecWriteCommandWords offset words p

namespace LayoutLemmas

/-- The reference lays its words out in sequence. -/
theorem loop_apply {n : Nat} {words : List Word} (hfit : n + words.length ≤ 32) (m : Fin 32) :
    csecWriteCommandWords.loop n words p m =
      if n ≤ m then words[(m : Nat) - n]?.getD (p m) else p m := by
  induction words generalizing n p with
  | nil => simp [csecWriteCommandWords.loop]
  | cons w ws ih =>
    rw [List.length_cons] at hfit
    have hn : n < 32 := by omega
    rw [csecWriteCommandWords.loop, dif_pos hn, ih (by omega)]
    rcases Nat.lt_trichotomy m n with hlt | heq | hgt
    · rw [if_neg (by omega), if_neg (by omega), Function.update_of_ne (Fin.ne_of_lt hlt)]
    · obtain rfl : m = ⟨n, hn⟩ := Fin.ext heq
      simp
    · obtain ⟨k, hk⟩ : ∃ k, (m : Nat) - n = k + 1 := ⟨m - n - 1, by omega⟩
      have hsub : (m : Nat) - (n + 1) = k := by omega
      rw [if_pos (Nat.succ_le_of_lt hgt), if_pos (Nat.le_of_lt hgt), hk, hsub,
        List.getElem?_cons_succ, Function.update_of_ne (Fin.ne_of_gt hgt)]

/-- A layout is the one of the reference. -/
theorem eq_reference {p' : Pram} {words : List Word} (halign : offset % 4 = 0)
    (hfit : offset + 4 * words.length ≤ 128)
    (hin : ∀ i (hi : i < words.length), p' (wordAt (offset + 4 * i)) = words[i])
    (hout : ∀ n : Fin 32, 4 * (n : Nat) < offset ∨ offset + 4 * words.length ≤ 4 * n →
      p' n = p n) : p' = csecWriteCommandWords offset words p := by
  funext m
  rw [csecWriteCommandWords, shiftRight_two, loop_apply (by omega)]
  by_cases hrange : offset / 4 ≤ m ∧ (m : Nat) - offset / 4 < words.length
  · obtain ⟨hge, hlt⟩ := hrange
    have hm : wordAt (offset + 4 * ((m : Nat) - offset / 4)) = m := by
      apply Fin.ext
      rw [wordAt_val (by omega)]
      omega
    rw [if_pos hge, List.getElem?_eq_getElem hlt, Option.getD_some, ← hin _ hlt, hm]
  · rw [hout m (by omega)]
    split
    · rw [List.getElem?_eq_none (by omega), Option.getD_none]
    · rfl

/-- The bytes that a word leaves at its place: its lower half, behind zeros. -/
theorem be_lower (w : Word) :
    be 0 0 (hi (w.setWidth 16)) (lo (w.setWidth 16)) = w &&& 0xffff := by
  apply BitVec.eq_of_getLsbD_eq
  intro i hi'
  rw [MemoryLemmas.getLsbD_be]
  interval_cases i <;> simp [hi, lo]

/-- Of all the words only the last one counts. -/
theorem foldl_words (halign : offset % 4 = 0) (hfit : offset < 128) (words : List Word) (w : Word) :
    (w :: words).foldl
        (fun p w => splice p offset [0, 0, hi (w.setWidth 16), lo (w.setWidth 16)]) p =
      Function.update p (wordAt offset) ((w :: words).getLastD 0 &&& 0xffff) := by
  have hoff : 4 * (wordAt offset : Nat) = offset := by
    rw [wordAt_val hfit]
    omega
  induction words generalizing w with
  | nil =>
    rw [List.foldl_cons, List.foldl_nil, List.getLastD_cons, List.getLastD_nil, ← be_lower,
      update_eq_splice, hoff]
  | cons w' words ih =>
    rw [List.foldl_cons, List.foldl_cons, splice_splice_of_le]
    · exact ih w'
    · exact Nat.le_refl _

theorem exec_commandWords (halign : offset % 4 = 0) (hfit : offset < 128) (w : Word)
    (words : List Word) :
    exec pramHw (writeCommandWords offset (w :: words)) p =
      (.done (), Function.update p (wordAt offset) ((w :: words).getLastD 0 &&& 0xffff)) := by
  rw [pramView.exec_writeCommandWords (s := p) halign (by simp) hfit (w :: words),
    show pramView.pram p = p from rfl, foldl_words halign hfit]
  rfl

/-- The words from `offset` on, when the first of them is written. -/
theorem update_wordAt {i : Nat} (hfit : offset + 4 * i < 128) (v : Word) :
    Function.update p (wordAt offset) v (wordAt (offset + 4 * i)) =
      if i = 0 then v else p (wordAt (offset + 4 * i)) := by
  cases i with
  | zero => exact Function.update_self _ _ _
  | succ i =>
    have hne : wordAt (offset + 4 * (i + 1)) ≠ wordAt offset := by
      intro heq
      have hval := congrArg Fin.val heq
      rw [wordAt_val hfit, wordAt_val (by omega)] at hval
      omega
    rw [Function.update_of_ne hne, if_neg (Nat.succ_ne_zero i)]

end LayoutLemmas

/-- The word at `offset` becomes the lower half of the last word of the list, and
no other word is written. So the list is laid out exactly when that is its first
word and its other words are in PRAM already. -/
theorem commandWords_laidOut_iff (p : Pram) (offset : Nat) (words : List Word)
    (halign : offset % 4 = 0) (hfit : offset + 4 * words.length ≤ 128) :
    LaidOut p offset words ↔
      ∀ i (hi : i < words.length), words[i] =
        if i = 0 then words.getLastD 0 &&& 0xffff else p (wordAt (offset + 4 * i)) := by
  cases words with
  | nil =>
    refine iff_of_true ⟨p, rfl, ?_, fun _ _ => rfl, rfl⟩ ?_
    · exact fun i hi => absurd hi (Nat.not_lt_zero i)
    · exact fun i hi => absurd hi (Nat.not_lt_zero i)
  | cons w ws =>
    have hlt : offset < 128 := by
      rw [List.length_cons] at hfit
      omega
    have hexec := exec_commandWords (p := p) halign hlt w ws
    constructor
    · rintro ⟨p', hwrite, hin, _⟩ i hi
      obtain rfl := congrArg Prod.snd (hexec.symm.trans hwrite)
      rw [← hin i hi]
      exact update_wordAt (by omega) _
    · intro hin
      have hlaid (i : Nat) (hi : i < (w :: ws).length) :
          Function.update p (wordAt offset) ((w :: ws).getLastD 0 &&& 0xffff)
            (wordAt (offset + 4 * i)) = (w :: ws)[i] := by
        rw [update_wordAt (by omega)]
        exact (hin i hi).symm
      have hframe (n : Fin 32)
          (hn : 4 * (n : Nat) < offset ∨ offset + 4 * (w :: ws).length ≤ 4 * n) :
          Function.update p (wordAt offset) ((w :: ws).getLastD 0 &&& 0xffff) n = p n := by
        refine Function.update_of_ne (fun heq => ?_) _ _
        rw [heq, wordAt_val hlt, List.length_cons] at hn
        omega
      exact ⟨_, hexec, hlaid, hframe, eq_reference halign hfit hlaid hframe⟩

/-- Two words: the second is there already, and its lower half is the first. -/
theorem commandWords_laidOut_two :
    LaidOut (Function.update (fun _ => 0xa5a5a5a5) 5 0x12345678) 16 [0x5678, 0x12345678] :=
  (commandWords_laidOut_iff (Function.update (fun _ => 0xa5a5a5a5) 5 0x12345678) 16
    [0x5678, 0x12345678] rfl (by decide)).mpr (by decide)

/-- Of two short words only the second is written, in the place of the first. -/
theorem commandWords_overwritten :
    16 % 4 = 0 ∧ 16 + 4 * [0x1, 0x2].length ≤ 128 ∧ ¬ LaidOut (fun _ => 0) 16 [0x1, 0x2] := by
  refine ⟨rfl, by decide, ?_⟩
  rintro ⟨p', hwrite, hin, _⟩
  obtain rfl := congrArg Prod.snd hwrite
  exact absurd (hin 0 (by decide)) (by decide)

end Csec
