import DaredevilSmall.Csec.Ram

/-!
# What the PRAM accessors do

One lemma for each accessor of the driver, on any engine: the value it returns
and the peripheral it leaves. Word 0 starts a command, the other words are
memory, so these are the lemmas on a `PramView` from word 1 on. The lemma on
`write_command_header`, `exec_writeCommandHeader`, is the only one in which the
engine moves.
-/

namespace Csec

open Mmio

variable {ε : Type} {E : Engine ε} {s : Cse ε}

/-- The PRAM of the CSEc. -/
def cseView (E : Engine ε) : PramView (cseHw E) 1 where
  pram := Cse.pram
  put := Cse.store
  read _ _ := rfl
  write n v s hfirst := by
    have hne : n ≠ 0 := by
      rintro rfl
      exact absurd hfirst (by decide)
    simp only [cseHw, if_neg hne, Cse.store]
  pram_put := Cse.store_pram
  put_put := Cse.store_store
  put_nil := Cse.store_nil

theorem exec_readCommandHalfword {offset : Nat} (heven : offset % 2 = 0) (hfit : offset < 128) :
    exec (cseHw E) (readCommandHalfword offset) s =
      (.done (halfwordAt s.pram offset), s) :=
  (cseView E).exec_readCommandHalfword heven hfit

/-- `write_command_bytes` writes its buffer, whatever the length modulo 4. -/
theorem exec_writeCommandBytes {offset : Nat} {buf : List Byte} (halign : offset % 4 = 0)
    (hpos : 4 ≤ offset) (hfit : offset + buf.length ≤ 128) :
    exec (cseHw E) (writeCommandBytes offset buf) s =
      (.done (), s.store (wordsOf offset buf.length) (splice s.pram offset buf)) :=
  (cseView E).exec_writeCommandBytes halign hpos hfit

/-- `read_command_bytes` fills its buffer, whatever the length modulo 4. -/
theorem exec_readCommandBytes {offset : Nat} {buf : List Byte} (halign : offset % 4 = 0)
    (hfit : offset + buf.length ≤ 128) :
    exec (cseHw E) (readCommandBytes offset buf) s =
      (.done (slice s.pram offset buf.length), s) :=
  (cseView E).exec_readCommandBytes halign hfit

/-- A half-word at the lower half of a word is written. -/
theorem exec_writeCommandHalfword_lower {offset : Nat} (hlower : offset % 4 = 2)
    (hpos : 4 ≤ offset) (hfit : offset < 128) (v : Halfword) :
    exec (cseHw E) (writeCommandHalfword offset v) s =
      (.done (), s.store [wordAt offset] (splice s.pram offset [hi v, lo v])) :=
  (cseView E).exec_writeCommandHalfword_lower hlower hpos hfit v

/-- A half-word at the upper half of a word is not written: the half is set to
zero, whatever the value. -/
theorem exec_writeCommandHalfword_upper {offset : Nat} (hupper : offset % 4 = 0)
    (hpos : 4 ≤ offset) (hfit : offset < 128) (v : Halfword) :
    exec (cseHw E) (writeCommandHalfword offset v) s =
      (.done (), s.store [wordAt offset] (splice s.pram offset [0, 0])) :=
  (cseView E).exec_writeCommandHalfword_upper hupper hpos hfit v

/-- What `write_command_words` makes of a single word: its lower half. -/
theorem exec_writeCommandWords_singleton {offset : Nat} (halign : offset % 4 = 0)
    (hpos : 4 ≤ offset) (hfit : offset < 128) (w : Word) :
    exec (cseHw E) (writeCommandWords offset [w]) s =
      (.done (), s.store [wordAt offset, wordAt offset]
        (splice s.pram offset [0, 0, hi (w.setWidth 16), lo (w.setWidth 16)])) :=
  (cseView E).exec_writeCommandWords halign hpos hfit [w]

/-! ## The command header -/

/-- The header takes the place of word 0 and of nothing else. -/
theorem byteAt_update_zero (p : Pram) (w : Word) {i : Nat} (h : 4 ≤ i) :
    byteAt (Function.update p 0 w) i = byteAt p i := by
  have hword : i / 4 ≠ 0 := by omega
  rw [byteAt_update]
  exact if_neg hword

/-- The half-word in which the engine reports the result of a command. -/
def status (p : Pram) : Halfword := halfwordAt p errorBitsOffset

/-- What `write_command_header` makes of the half-word. -/
def reported (value : Halfword) : Outcome (Except CommandResult Unit) :=
  match CommandResult.fromU16 value with
  | none => .panicked (CommandResult.unknown value)
  | some .noError => .done (.ok ())
  | some e => .done (.error e)

namespace AccessLemmas

theorem ccifIsClear_ccif : ccifIsClear ccif = false := by decide

theorem ccifIsClear_zero : ccifIsClear 0 = true := by decide

theorem spin_fstat (p : Pram) (k : Nat) :
    (cseHw E).spin .fstat ccifIsClear (k + 1) { s with running := some (k, p) } =
      (true, { s with pram := p, running := none }) := by
  induction k with
  | zero => exact Hw.spin_ready _ ccifIsClear_ccif
  | succ k ih => exact (Hw.spin_busy _ ccifIsClear_zero).trans ih

theorem exec_waitCcif (w : Word) :
    exec (cseHw E) (pollReg Site.writeCommandHeader .fstat ccifIsClear) (s.start E w) =
      (.done (), s.issue E w) := by
  have hspin := spin_fstat (E := E) (s := s.start E w)
    (E.run s.engine (Function.update s.pram 0 w)).1
    (E.latency s.engine (Function.update s.pram 0 w))
  simp only [pollReg, exec]
  rw [show (s.start E w) = { s.start E w with running := (s.start E w).running } from rfl]
  exact hspin ▸ rfl

end AccessLemmas

open AccessLemmas

/-- A command runs to its end before its status is read. -/
theorem exec_writeCommandHeader {cmd : Command} {cmdFormat : Format} {callseq : Sequence}
    {key : KeyID} (himpl : cmd.implemented = true) :
    exec (cseHw E) (writeCommandHeader cmd cmdFormat callseq key) s =
      (reported (status (s.issue E (headerWord cmd cmdFormat callseq key)).pram),
        s.issue E (headerWord cmd cmdFormat callseq key)) := by
  have hstart : (cseHw E).write (.ram 0) (headerWord cmd cmdFormat callseq key) s =
      s.start E (headerWord cmd cmdFormat callseq key) := rfl
  simp only [writeCommandHeader, himpl, if_true, Prog.pure_eq]
  rw [exec_bind_of _ (exec_writeReg _ _ _ _ _), hstart, exec_bind_of _ (exec_waitCcif _),
    exec_bind_of _ (exec_readCommandHalfword (by decide) (by decide))]
  simp only [reported, status]
  cases CommandResult.fromU16 (halfwordAt _ errorBitsOffset) with
  | none => rfl
  | some r => cases r <;> rfl

/-- An engine that reports `script n` for its command `n` and leaves the rest of
PRAM as it is. -/
def Engine.scripted (script : Nat → CommandResult) : Engine Nat where
  run n p := (splice p errorBitsOffset [hi (script n).code, lo (script n).code], n + 1)
  latency _ _ := 0

end Csec
