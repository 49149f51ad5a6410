import DaredevilSmall.Csec.Access
import DaredevilSmall.Csec.Layout

/-!
# The accessors of the reference driver

The functions of `csec_hw_access.c` that the accessors of the driver are a port of, as
programs over the same registers. There is no word behind the last one of `CSE_PRAM`:
where the port panics, the behaviour of C is not defined, and the program stops.

1. `ported_readCommandBytes`, `ported_readCommandHalfWord`, `ported_writeCommandBytes`:
   these three make the accesses of their ports, in the same order and with the same
   values.
2. `exec_writeCommandHalfWord`, `exec_writeCommandWord`: the other two write what they
   are given, at any half-word and any word, which their ports do not.
-/

namespace Csec

namespace Reference

open Mmio

variable {α ε : Type}

/-! ## The functions -/

/-- The functions of the reference that access a register themselves. -/
inductive Site where
  | writeCommandBytes | writeCommandHalfWord | writeCommandByte | writeCommandWords
  | readCommandBytes | readCommandHalfWord | readCommandByte | writeCommandHeader
  | waitCommandCompletion | setInterrupt | ftfcIrqHandler | getMilliseconds
  deriving DecidableEq, Repr

/-- A program over the registers of the CSEc. -/
abbrev Access := Prog CseReg Site

/-- `CSE_PRAM->RAMn[n].DATA_32`. -/
def readRam (site : Site) (n : Nat) : Access Word :=
  if h : n < 32 then readReg site (.ram ⟨n, h⟩) else .panic .unreachable

/-- `CSE_PRAM->RAMn[n].DATA_32 = v`. -/
def writeRam (site : Site) (n : Nat) (v : Word) : Access Unit :=
  if h : n < 32 then writeReg site (.ram ⟨n, h⟩) v else .panic .unreachable

/-- A store to one of the fields of `CSE_PRAM->RAMn[n].ACCESS8BIT`. -/
def writeRamByte (site : Site) (n : Nat) (store : Word → Word) : Access Unit := do
  let w ← readRam site n
  writeRam site n (store w)

/-- `CSEC_ReadCommandByte`. -/
def readCommandByte (offset : Nat) : Access Byte := do
  let w ← readRam .readCommandByte (offset >>> 2)
  match offset &&& 0x3 with
  | 0x0 => pure (lane w 0) -- DATA_8HU
  | 0x1 => pure (lane w 1) -- DATA_8HL
  | 0x2 => pure (lane w 2) -- DATA_8LU
  | 0x3 => pure (lane w 3) -- DATA_8LL
  | _ => pure 0

/-- `CSEC_WriteCommandByte`. -/
def writeCommandByte (offset : Nat) (byte : Byte) : Access Unit :=
  match offset &&& 0x3 with
  | 0x0 => writeRamByte .writeCommandByte (offset >>> 2) fun w =>
    be byte (lane w 1) (lane w 2) (lane w 3)
  | 0x1 => writeRamByte .writeCommandByte (offset >>> 2) fun w =>
    be (lane w 0) byte (lane w 2) (lane w 3)
  | 0x2 => writeRamByte .writeCommandByte (offset >>> 2) fun w =>
    be (lane w 0) (lane w 1) byte (lane w 3)
  | 0x3 => writeRamByte .writeCommandByte (offset >>> 2) fun w =>
    be (lane w 0) (lane w 1) (lane w 2) byte
  | _ => pure ()

/-- The second loop of `CSEC_ReadCommandBytes`. -/
def readCommandBytes.tail (offset : Nat) : Nat → Access (List Byte)
  | 0 => pure []
  | n + 1 => do
    let b ← readCommandByte offset
    let rest ← readCommandBytes.tail (offset + 1) n
    pure (b :: rest)

/-- `CSEC_ReadCommandBytes`: the `numBytes` bytes it fills `bytes` with. -/
def readCommandBytes (offset : Nat) : Nat → Access (List Byte)
  | numBytes + 4 => do
    let tmp ← readRam .readCommandBytes (offset >>> 2)
    let rest ← readCommandBytes (offset + 4) numBytes
    pure (lane tmp 0 :: lane tmp 1 :: lane tmp 2 :: lane tmp 3 :: rest)
  | numBytes => readCommandBytes.tail offset numBytes

/-- The second loop of `CSEC_WriteCommandBytes`. -/
def writeCommandBytes.tail (offset : Nat) : List Byte → Access Unit
  | [] => pure ()
  | b :: bytes => do
    writeCommandByte offset b
    writeCommandBytes.tail (offset + 1) bytes

/-- `CSEC_WriteCommandBytes`, of all of `bytes`. -/
def writeCommandBytes (offset : Nat) : List Byte → Access Unit
  | b0 :: b1 :: b2 :: b3 :: bytes => do
    writeRam .writeCommandBytes (offset >>> 2) (be b0 b1 b2 b3)
    writeCommandBytes (offset + 4) bytes
  | bytes => writeCommandBytes.tail offset bytes

/-- `CSEC_ReadCommandHalfWord`. -/
def readCommandHalfWord (offset : Nat) : Access Halfword := do
  let w ← readRam .readCommandHalfWord (offset >>> 2)
  if offset &&& 2 ≠ 0 then pure (((w &&& lowerHalfMask) >>> lowerHalfShift).setWidth 16)
  else pure (((w &&& upperHalfMask) >>> csecUpperHalfShift).setWidth 16)

/-- `CSEC_WriteCommandHalfWord`. -/
def writeCommandHalfWord (offset : Nat) (halfWord : Halfword) : Access Unit := do
  let tmp ← readRam .writeCommandHalfWord (offset >>> 2)
  writeRam .writeCommandHalfWord (offset >>> 2) (csecWriteCommandHalfWord.tmp offset halfWord tmp)

/-- The loop of `CSEC_WriteCommandWords`, at word `n` of PRAM. -/
def writeCommandWords.loop : Nat → List Word → Access Unit
  | _, [] => pure ()
  | n, word :: words => do
    writeRam .writeCommandWords n word
    writeCommandWords.loop (n + 1) words

/-- `CSEC_WriteCommandWords`, of all of `words`. -/
def writeCommandWords (offset : Nat) (words : List Word) : Access Unit :=
  writeCommandWords.loop (offset >>> 2) words

/-- `CSEC_WriteCommandHeader`. It does not wait for the command. -/
def writeCommandHeader (funcId : Command) (funcFormat : Format) (callSeq : Sequence)
    (keyId : KeyID) : Access Unit :=
  writeReg .writeCommandHeader (.ram 0) (headerWord funcId funcFormat callSeq keyId)

/-- `CSEC_WaitCommandCompletion`. -/
def waitCommandCompletion : Access Unit :=
  pollReg .waitCommandCompletion .fstat ccifIsClear

/-- The values of `status_t` that the driver returns. -/
inductive Status where
  | success | error | busy | timeout | secSequenceError | secKeyNotAvailable | secKeyInvalid
  | secKeyEmpty | secNoSecureBoot | secKeyWriteProtected | secKeyUpdateError | secRngSeed
  | secNoDebugging | secMemoryFailure
  deriving DecidableEq, Repr

/-- The `switch` of `CSEC_ReadErrorBits`. -/
def Status.ofErrorBits (errBits : Halfword) : Status :=
  match errBits.toNat with
  | 0x1 => success
  | 0x2 => secSequenceError
  | 0x4 => secKeyNotAvailable
  | 0x8 => secKeyInvalid
  | 0x10 => secKeyEmpty
  | 0x20 => secNoSecureBoot
  | 0x40 => secKeyWriteProtected
  | 0x80 => secKeyUpdateError
  | 0x100 => secRngSeed
  | 0x200 => secNoDebugging
  | 0x400 => secMemoryFailure
  | _ => error

/-- `CSEC_ReadErrorBits`. -/
def readErrorBits : Access Status := do
  let errBits ← readCommandHalfWord errorBitsOffset
  pure (Status.ofErrorBits errBits)

/-! ## The ports -/

/-- The function of the reference that a function of the driver is a port of. -/
def siteOf : Csec.Site → Site
  | .writeCommandHeader => .writeCommandHeader
  | .readCommandHalfword => .readCommandHalfWord
  | .writeCommandHalfword => .writeCommandHalfWord
  | .readCommandByte => .readCommandByte
  | .writeCommandByte => .writeCommandByte
  | .readCommandBytes => .readCommandBytes
  | .writeCommandBytes => .writeCommandBytes

/-- The port `q` makes the accesses of `p`. -/
def Ported (p : Access α) (q : Csec.Driver α) : Prop := p = q.embed id siteOf

namespace PortLemmas

theorem ported_readRam (site : Csec.Site) (n : Nat) (f : Vector Byte 4 → Csec.Driver α) :
    (readPram site n >>= f).embed id siteOf =
      readRam (siteOf site) n >>= fun w =>
        (f #v[lane w 0, lane w 1, lane w 2, lane w 3]).embed id siteOf := by
  unfold readPram readRam
  split
  · simp only [← u8BeArrayFromU32_eq]
    rfl
  · rfl

theorem ported_writeRam (site : Csec.Site) (n : Nat) (b0 b1 b2 b3 : Byte) :
    (writePram site n #v[b0, b1, b2, b3]).embed id siteOf =
      writeRam (siteOf site) n (be b0 b1 b2 b3) := by
  unfold writePram writeRam
  split <;> rfl

theorem and_three_cases (offset : Nat) :
    offset &&& 3 = 0 ∨ offset &&& 3 = 1 ∨ offset &&& 3 = 2 ∨ offset &&& 3 = 3 := by
  rw [RamLemmas.and_three]
  omega

theorem ported_readCommandByte (offset : Nat) :
    Ported (readCommandByte offset) (Csec.readCommandByte offset) := by
  unfold Ported readCommandByte Csec.readCommandByte
  rw [ported_readRam]
  rcases and_three_cases offset with h | h | h | h
  all_goals
    rw [h]
    rfl

theorem ported_writeCommandByte (offset : Nat) (byte : Byte) :
    Ported (writeCommandByte offset byte) (Csec.writeCommandByte offset byte) := by
  unfold Ported writeCommandByte Csec.writeCommandByte writeRamByte
  rw [ported_readRam]
  rcases and_three_cases offset with h | h | h | h
  all_goals
    rw [h]
    exact congrArg (readRam .writeCommandByte (offset >>> 2) >>= ·)
      (funext fun w => (ported_writeRam .writeCommandByte (offset >>> 2) _ _ _ _).symm)

theorem ported_readTail (offset n : Nat) :
    Ported (readCommandBytes.tail offset n)
      (Csec.readCommandBytes.tail offset (List.replicate n 0)) := by
  induction n generalizing offset with
  | zero => rfl
  | succ n ih =>
    unfold Ported at ih ⊢
    rw [List.replicate_succ, readCommandBytes.tail, Csec.readCommandBytes.tail, Prog.embed_bind,
      ported_readCommandByte, ih]
    refine congrArg _ (funext fun b => ?_)
    rw [Prog.embed_bind]
    rfl

theorem ported_writeTail (offset : Nat) (bytes : List Byte) :
    Ported (writeCommandBytes.tail offset bytes) (Csec.writeCommandBytes.tail offset bytes) := by
  induction bytes generalizing offset with
  | nil => rfl
  | cons b bytes ih =>
    unfold Ported at ih ⊢
    rw [writeCommandBytes.tail, Csec.writeCommandBytes.tail, Prog.embed_bind,
      ported_writeCommandByte, ih]

end PortLemmas

open PortLemmas

/-- The bytes are read by the same accesses. -/
theorem ported_readCommandBytes (offset n : Nat) :
    Ported (readCommandBytes offset n)
      (Csec.readCommandBytes offset (List.replicate n 0)) := by
  induction offset, n using readCommandBytes.induct with
  | case1 offset n ih =>
    unfold Ported at ih ⊢
    simp only [List.replicate_succ]
    rw [readCommandBytes, Csec.readCommandBytes, ported_readRam, ih]
    refine congrArg _ (funext fun w => ?_)
    rw [Prog.embed_bind]
    rfl
  | case2 offset n hshort =>
    have htail : Csec.readCommandBytes offset (List.replicate n 0) =
        Csec.readCommandBytes.tail offset (List.replicate n 0) := by
      rw [Csec.readCommandBytes]
      intro b0 b1 b2 b3 buf hbuf
      have hlen := congrArg List.length hbuf
      simp only [List.length_replicate, List.length_cons] at hlen
      exact hshort buf.length hlen
    rw [readCommandBytes, htail]
    · exact ported_readTail offset n
    · exact hshort

/-- The bytes are written by the same accesses. -/
theorem ported_writeCommandBytes (offset : Nat) (bytes : List Byte) :
    Ported (writeCommandBytes offset bytes) (Csec.writeCommandBytes offset bytes) := by
  induction offset, bytes using writeCommandBytes.induct with
  | case1 offset b0 b1 b2 b3 bytes ih =>
    unfold Ported at ih ⊢
    rw [writeCommandBytes, Csec.writeCommandBytes, Prog.embed_bind, ported_writeRam, ih]
    rfl
  | case2 offset bytes hshort =>
    rw [writeCommandBytes, Csec.writeCommandBytes]
    · exact ported_writeTail offset bytes
    · exact hshort
    · exact hshort

namespace PortLemmas

theorem lower_half (w : Word) :
    ((w &&& lowerHalfMask) >>> lowerHalfShift).setWidth 16 = lane w 2 ++ lane w 3 := by
  apply BitVec.eq_of_getLsbD_eq
  intro i hi
  rw [BitVec.getLsbD_append, MemoryLemmas.getLsbD_lane, MemoryLemmas.getLsbD_lane]
  interval_cases i <;> simp [lowerHalfMask, lowerHalfShift]

theorem upper_half (w : Word) :
    ((w &&& upperHalfMask) >>> csecUpperHalfShift).setWidth 16 = lane w 0 ++ lane w 1 := by
  apply BitVec.eq_of_getLsbD_eq
  intro i hi
  rw [BitVec.getLsbD_append, MemoryLemmas.getLsbD_lane, MemoryLemmas.getLsbD_lane]
  interval_cases i <;> simp [upperHalfMask, csecUpperHalfShift]

end PortLemmas

/-- A half-word is read by the same access. -/
theorem ported_readCommandHalfWord (offset : Nat) :
    Ported (readCommandHalfWord offset) (Csec.readCommandHalfword offset) := by
  unfold Ported readCommandHalfWord Csec.readCommandHalfword
  rw [ported_readRam]
  refine congrArg _ (funext fun w => ?_)
  rw [lower_half, upper_half]
  split <;> rfl

/-! ## What the accessors do -/

section Exec

variable {E : Engine ε} {s : Cse ε}

theorem exec_readCommandBytes {offset n : Nat} (halign : offset % 4 = 0)
    (hfit : offset + n ≤ 128) :
    exec (cseHw E) (readCommandBytes offset n) s = (.done (slice s.pram offset n), s) := by
  rw [ported_readCommandBytes, exec_rename, Csec.exec_readCommandBytes halign]
  · rw [List.length_replicate]
  · rwa [List.length_replicate]

theorem exec_writeCommandBytes {offset : Nat} {bytes : List Byte} (halign : offset % 4 = 0)
    (hpos : 4 ≤ offset) (hfit : offset + bytes.length ≤ 128) :
    exec (cseHw E) (writeCommandBytes offset bytes) s =
      (.done (), s.store (wordsOf offset bytes.length) (splice s.pram offset bytes)) := by
  rw [ported_writeCommandBytes, exec_rename, Csec.exec_writeCommandBytes halign hpos hfit]

theorem exec_readCommandHalfWord {offset : Nat} (heven : offset % 2 = 0) (hfit : offset < 128) :
    exec (cseHw E) (readCommandHalfWord offset) s = (.done (halfwordAt s.pram offset), s) := by
  rw [ported_readCommandHalfWord, exec_rename, Csec.exec_readCommandHalfword heven hfit]

theorem exec_readErrorBits :
    exec (cseHw E) readErrorBits s = (.done (Status.ofErrorBits (status s.pram)), s) :=
  exec_bind_of _ (exec_readCommandHalfWord (by decide) (by decide))

namespace PortLemmas

theorem exec_readRam (site : Site) {n : Nat} (hn : n < 32) :
    exec (cseHw E) (readRam site n) s = (.done (s.pram ⟨n, hn⟩), s) := by
  rw [readRam, dif_pos hn]
  rfl

theorem exec_writeRam (site : Site) {n : Nat} (hpos : 0 < n) (hn : n < 32) (v : Word) :
    exec (cseHw E) (writeRam site n v) s =
      (.done (), s.store [⟨n, hn⟩] (Function.update s.pram ⟨n, hn⟩ v)) := by
  rw [writeRam, dif_pos hn, exec_writeReg, (cseView E).write ⟨n, hn⟩ v s hpos]
  rfl

theorem wordAt_eq {offset : Nat} (hfit : offset < 128) (hn : offset >>> 2 < 32) :
    (⟨offset >>> 2, hn⟩ : Fin 32) = wordAt offset :=
  Fin.ext ((RamLemmas.shiftRight_two offset).trans (wordAt_val hfit).symm)

end PortLemmas

/-- Either half of a word is written. -/
theorem exec_writeCommandHalfWord {offset : Nat} (heven : offset % 2 = 0) (hpos : 4 ≤ offset)
    (hfit : offset < 128) (v : Halfword) :
    exec (cseHw E) (writeCommandHalfWord offset v) s =
      (.done (), s.store [wordAt offset] (splice s.pram offset [hi v, lo v])) := by
  have hn : offset >>> 2 < 32 := by rw [RamLemmas.shiftRight_two]; omega
  have hfirst : 0 < offset >>> 2 := by rw [RamLemmas.shiftRight_two]; omega
  have hwritten := LayoutLemmas.csecWriteCommandHalfWord_eq (p := s.pram) heven hfit v
  rw [csecWriteCommandHalfWord, dif_pos hn] at hwritten
  rw [writeCommandHalfWord, exec_bind_of _ (exec_readRam _ hn), exec_writeRam _ hfirst hn,
    hwritten, wordAt_eq hfit]

/-- The bytes of a word, as they stand in PRAM. -/
def bytesOf (w : Word) : List Byte := [lane w 0, lane w 1, lane w 2, lane w 3]

/-- A word is written. -/
theorem exec_writeCommandWord {offset : Nat} (halign : offset % 4 = 0) (hpos : 4 ≤ offset)
    (hfit : offset < 128) (w : Word) :
    exec (cseHw E) (writeCommandWords offset [w]) s =
      (.done (), s.store [wordAt offset] (splice s.pram offset (bytesOf w))) := by
  have hn : offset >>> 2 < 32 := by rw [RamLemmas.shiftRight_two]; omega
  have hfirst : 0 < offset >>> 2 := by rw [RamLemmas.shiftRight_two]; omega
  have hoff : 4 * (wordAt offset : Nat) = offset := by
    rw [wordAt_val hfit]
    omega
  rw [writeCommandWords, writeCommandWords.loop, exec_bind_of _ (exec_writeRam _ hfirst hn _),
    wordAt_eq hfit]
  conv_lhs => rw [← be_lane w, update_eq_splice, hoff]
  rfl

end Exec

/-! ## A command in progress -/

/-- The engine works on the PRAM `p`, which it was handed in the state `e`. So far `k`
more reads of `FSTAT` find it busy. -/
structure InFlight (E : Engine ε) (e : ε) (p : Pram) (k : Nat) (s : Cse ε) : Prop where
  engine : s.engine = (E.run e p).2
  running : s.running = some (k, (E.run e p).1)

/-- No command is in progress, and the last one has left the PRAM and the engine in
`core`. -/
structure Answered (core : Pram × ε) (s : Cse ε) : Prop where
  pram : s.pram = core.1
  engine : s.engine = core.2
  running : s.running = none

variable {E : Engine ε} {s : Cse ε} {e : ε} {p : Pram} {k : Nat}

/-- The header starts a command. -/
theorem exec_writeCommandHeader (funcId : Command) (callSeq : Sequence) (keyId : KeyID) :
    ∃ s', exec (cseHw E) (writeCommandHeader funcId .copy callSeq keyId) s = (.done (), s') ∧
      InFlight E s.engine (Function.update s.pram 0 (headerWord funcId .copy callSeq keyId))
        (E.latency s.engine (Function.update s.pram 0 (headerWord funcId .copy callSeq keyId)))
        s' :=
  ⟨s.start E _, rfl, rfl, rfl⟩

namespace InFlight

/-- A read of `FSTAT` while the engine is busy. -/
theorem read_busy (h : InFlight E e p (k + 1) s) :
    ((cseHw E).read .fstat s).1 = 0 ∧ InFlight E e p k ((cseHw E).read .fstat s).2 := by
  simp only [cseHw, h.running]
  exact ⟨trivial, h.engine, rfl⟩

/-- The read of `FSTAT` that finds the command complete. -/
theorem read_ready (h : InFlight E e p 0 s) :
    ((cseHw E).read .fstat s).1 = ccif ∧
      Answered (E.run e p) ((cseHw E).read .fstat s).2 := by
  simp only [cseHw, h.running]
  exact ⟨trivial, rfl, h.engine, rfl⟩

theorem spin (h : InFlight E e p k s) :
    ∃ s', (cseHw E).spin .fstat ccifIsClear (k + 1) s = (true, s') ∧
      Answered (E.run e p) s' := by
  induction k generalizing s with
  | zero =>
    obtain ⟨hread, hanswered⟩ := h.read_ready
    exact ⟨_, Hw.spin_ready _ (by rw [hread]; decide), hanswered⟩
  | succ k ih =>
    obtain ⟨hread, hflight⟩ := h.read_busy
    rw [Hw.spin_busy _ (by rw [hread]; decide)]
    exact ih hflight

end InFlight

/-- The wait ends with the command. -/
theorem exec_waitCommandCompletion (h : InFlight E e p k s) :
    ∃ s', exec (cseHw E) waitCommandCompletion s = (.done (), s') ∧
      Answered (E.run e p) s' := by
  have hpatience : (cseHw E).patience .fstat s = k := by simp only [cseHw, h.running]
  obtain ⟨s', hspin, hanswered⟩ := h.spin
  refine ⟨s', ?_, hanswered⟩
  simp only [waitCommandCompletion, pollReg, exec, hpatience, hspin]

end Reference

end Csec
