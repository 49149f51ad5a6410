import DaredevilSmall.Mmio.Prog
import DaredevilSmall.Mmio.Memory

/-!
# The CSEc peripheral

The driver sees the cryptographic engine through the 32 words of `CSE_PRAM` and
through the `CCIF` flag of `FTFC.FSTAT`. A write to PRAM word 0 hands the whole
PRAM to the engine and starts a command. While the command runs `CCIF` is
clear; at the first read that finds it set the engine's result is in PRAM.

The engine itself is hardware, so it is a parameter: an `Engine` is any function
from its own state and the PRAM it is handed to the PRAM it leaves. `Cse` keeps
two ghost fields next to the registers: `issued`, the commands handed over so
far, and `touched`, the PRAM words written since the last of them, in order.
-/

namespace Csec

open Mmio

/-- The 32 words of `CSE_PRAM`. -/
abbrev Pram := Fin 32 → Word

/-- So that a word of PRAM can be written as a numeral. -/
instance instNeZeroPram : NeZero 32 := Nat.instNeZeroSucc

/-- The registers the driver uses: `embedded_ram0` to `embedded_ram31`, and
`FSTAT`. -/
inductive CseReg where
  | ram (n : Fin 32)
  | fstat
  deriving DecidableEq

/-- An engine with state `ε`: what it makes of the PRAM it is handed, and how
many reads of `FSTAT` find it still busy. -/
structure Engine (ε : Type) where
  run : ε → Pram → Pram × ε
  latency : ε → Pram → Nat

/-- One command: the PRAM handed to the engine, header included, the words
written to prepare it, and the PRAM the engine left. -/
structure Issued where
  request : Pram
  touched : List (Fin 32)
  reply : Pram

/-- The state of the peripheral. `running` is the command in progress: the
number of reads of `FSTAT` that still find `CCIF` clear, and the result. -/
structure Cse (ε : Type) where
  pram : Pram
  engine : ε
  running : Option (Nat × Pram)
  touched : List (Fin 32)
  issued : List Issued

/-- `CCIF` is bit 7 of `FSTAT`. -/
def ccif : Word := 0x80

variable {ε : Type}

namespace Cse

/-- The peripheral with PRAM cleared, no command in progress and the engine in
state `e`. -/
def reset (e : ε) : Cse ε := ⟨fun _ => 0, e, none, [], []⟩

/-- Hand the PRAM, with header `w`, to the engine. -/
def start (E : Engine ε) (s : Cse ε) (w : Word) : Cse ε :=
  let request := Function.update s.pram 0 w
  { pram := request
    engine := (E.run s.engine request).2
    running := some (E.latency s.engine request, (E.run s.engine request).1)
    touched := []
    issued := s.issued ++ [⟨request, s.touched, (E.run s.engine request).1⟩] }

/-- The peripheral after the command with header `w` has run to its end. -/
def issue (E : Engine ε) (s : Cse ε) (w : Word) : Cse ε :=
  { s.start E w with
    pram := (E.run s.engine (Function.update s.pram 0 w)).1
    running := none }

/-- The peripheral after writes to `words` that have left the PRAM `p`. -/
def store (s : Cse ε) (words : List (Fin 32)) (p : Pram) : Cse ε :=
  { s with pram := p, touched := s.touched ++ words }

@[simp] theorem store_pram (s : Cse ε) (words : List (Fin 32)) (p : Pram) :
    (s.store words p).pram = p := rfl

@[simp] theorem store_engine (s : Cse ε) (words : List (Fin 32)) (p : Pram) :
    (s.store words p).engine = s.engine := rfl

@[simp] theorem store_running (s : Cse ε) (words : List (Fin 32)) (p : Pram) :
    (s.store words p).running = s.running := rfl

@[simp] theorem store_touched (s : Cse ε) (words : List (Fin 32)) (p : Pram) :
    (s.store words p).touched = s.touched ++ words := rfl

@[simp] theorem store_issued (s : Cse ε) (words : List (Fin 32)) (p : Pram) :
    (s.store words p).issued = s.issued := rfl

@[simp] theorem store_store (s : Cse ε) (a b : List (Fin 32)) (p q : Pram) :
    (s.store a p).store b q = s.store (a ++ b) q := by
  simp only [store, List.append_assoc]

@[simp] theorem store_nil (s : Cse ε) : s.store [] s.pram = s := by
  simp only [store, List.append_nil]

end Cse

/-- The CSEc as a peripheral with registers. -/
def cseHw (E : Engine ε) : Hw CseReg (Cse ε) where
  read
    | .ram n, s => (s.pram n, s)
    | .fstat, s =>
      match s.running with
      | none => (ccif, s)
      | some (0, reply) => (ccif, { s with pram := reply, running := none })
      | some (k + 1, reply) => (0, { s with running := some (k, reply) })
  write
    | .ram n, v, s =>
      if n = 0 then s.start E v
      else { s with pram := Function.update s.pram n v, touched := s.touched ++ [n] }
    | .fstat, _, s => s
  patience
    | .ram _, _ => 0
    | .fstat, s =>
      match s.running with
      | none => 0
      | some (k, _) => k

/-- The PRAM word that byte `offset` lies in. -/
def wordAt (offset : Nat) : Fin 32 := ⟨offset / 4 % 32, Nat.mod_lt _ (by decide)⟩

/-- The PRAM words that a buffer of the given length is written to from `offset`
on, in order: one write for every four bytes, then one for every byte left. -/
def wordsOf (offset : Nat) : Nat → List (Fin 32)
  | n + 4 => wordAt offset :: wordsOf (offset + 4) n
  | n => List.replicate n (wordAt offset)

theorem wordAt_val {offset : Nat} (h : offset < 128) : (wordAt offset : Nat) = offset / 4 :=
  Nat.mod_eq_of_lt (by omega)

theorem wordAt_congr {a b : Nat} (h : a / 4 = b / 4) : wordAt a = wordAt b := by
  simp only [wordAt, h]

end Csec
