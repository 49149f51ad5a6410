import DaredevilSmall.Csec.Session
import DaredevilSmall.Crypto.BlockMode
import DaredevilSmall.Data.Blocks

/-!
# The cryptographic engine

The driver relies on an engine that is hardware. `she` is that engine as the
driver understands it: which parameters a command latches, how a function call
is spread over several commands, which pages each of them reads and writes, and
when a command is out of sequence. The ciphers themselves, and how long a
command takes, are parameters. Its generator is seeded, and it holds a key; the engine
as a reset leaves it is `guarded`.

`run_done` and `run_outOfSequence` are all that the proofs about the driver use
of the way a command reaches the engine.
-/

namespace Csec

open Mmio Data Crypto

/-- A page of PRAM, and a block of the cipher. -/
abbrev Block := Vector Byte 16

def Block.xor (a b : Block) : Block := Vector.zipWith (· ^^^ ·) a b

theorem Block.xor_xor (a b : Block) : (a.xor b).xor b = a := by
  apply Vector.ext
  intro i hi
  simp only [Block.xor, Vector.getElem_zipWith, BitVec.xor_assoc, BitVec.xor_self,
    BitVec.xor_zero]

/-- What the engine computes: a block cipher, a message authentication code of
bit strings, a sequence of random blocks, and the half-word that reports a CMAC
that does not match. -/
structure Primitives where
  encrypt : Block → Block → Block
  decrypt : Block → Block → Block
  decrypt_encrypt : ∀ key b, decrypt key (encrypt key b) = b
  cmac : Block → List Bool → Block
  random : Nat → Block
  mismatch : Halfword
  mismatch_ne : mismatch ≠ 0

/-- A test vector: what AES-128 makes of `samplePlain` under `sampleKey`. -/
def sampleKey : Block := #v[0x2b, 0x7e, 0x15, 0x16, 0x28, 0xae, 0xd2, 0xa6, 0xab, 0xf7, 0x15, 0x88,
  0x09, 0xcf, 0x4f, 0x3c]

def samplePlain : Block := #v[0x6b, 0xc1, 0xbe, 0xe2, 0x2e, 0x40, 0x9f, 0x96, 0xe9, 0x3d, 0x7e,
  0x11, 0x73, 0x93, 0x17, 0x2a]

def sampleCipher : Block := #v[0x3a, 0xd7, 0x7b, 0xb4, 0x0d, 0x7a, 0x36, 0x60, 0xa8, 0x9e, 0xca,
  0xf3, 0x24, 0x66, 0xef, 0x97]

/-- The CMAC of `samplePlain` under `sampleKey`. -/
def sampleCmac : Block := #v[0x07, 0x0a, 0x16, 0xb4, 0x6b, 0x4d, 0x41, 0x44, 0xf7, 0x9b, 0xdd,
  0x9d, 0xd0, 0x4a, 0x28, 0x7c]

/-- Primitives that agree with AES-128 and its CMAC on the test vector, for the
examples: the cipher swaps the two blocks of the vector. -/
def Primitives.sample : Primitives where
  encrypt _ b :=
    if b = samplePlain then sampleCipher else if b = sampleCipher then samplePlain else b
  decrypt _ b :=
    if b = samplePlain then sampleCipher else if b = sampleCipher then samplePlain else b
  decrypt_encrypt _ b := by
    have hne : sampleCipher ≠ samplePlain := by decide
    grind
  cmac _ _ := sampleCmac
  random n := Vector.replicate 16 (BitVec.ofNat 8 n)
  mismatch := 1
  mismatch_ne := by decide

/-- The direction of a CBC call. -/
inductive Direction where
  | enc | dec
  deriving DecidableEq, Repr

/-- The function of a MAC call. -/
inductive MacKind where
  | generate | verify (macLength : Nat)
  deriving DecidableEq, Repr

/-- A function call in progress, when more commands are expected: the pages
still to come and, for CBC, the chaining value or, for a MAC, the length in bits
and the pages so far. -/
inductive Job where
  | idle
  | cbc (direction : Direction) (remaining : Nat) (chain : Block)
  | mac (kind : MacKind) (bits remaining : Nat) (pages : List Block)

/-- The state of the engine, once it is seeded and holds a key. -/
structure She where
  ramKey : Block
  drawn : Nat
  job : Job

namespace She

variable (P : Primitives)

/-- One block of a CBC call. -/
def cbcStep (key : Block) : Direction → Block → Block → Block × Block
  | .enc => cbcEncryptStep Block.xor (P.encrypt key)
  | .dec => cbcDecryptStep Block.xor (P.decrypt key)

/-- The page from byte `offset` on. -/
def page (p : Pram) (offset : Nat) : Block := Vector.ofFn fun i => byteAt p (offset + i)

/-- The `n` pages from byte `offset` on. -/
def pages (p : Pram) (offset n : Nat) : List Block := toBlocks 16 (slice p offset (16 * n))

/-- Transform in place as many of the remaining blocks as fit in `avail` pages
from byte `offset` on. -/
def cbc (e : She) (direction : Direction) (remaining : Nat) (chain : Block) (offset avail : Nat)
    (p : Pram) : Pram × She :=
  let n := min remaining avail
  let r := stream (cbcStep P e.ramKey direction) chain (pages p offset n)
  (splice p offset (ofBlocks r.1),
    { e with job := if remaining ≤ avail then .idle else .cbc direction (remaining - n) r.2 })

/-- The number of pages a message of the given length in bits takes. -/
def messagePages (bits : Nat) : Nat := (bits + 127) / 128

/-- The pages a MAC call expects: those of the message, and one for the CMAC to
verify. -/
def macPages (kind : MacKind) (bits : Nat) : Nat :=
  match kind with
  | .generate => messagePages bits
  | .verify _ => messagePages bits + 1

/-- The CMAC of the first bits of the pages. -/
def macOf (key : Block) (bits : Nat) (pages : List Block) : Block :=
  P.cmac key ((bitsOf (ofBlocks pages)).take bits)

/-- The first `n` bits of two MACs agree. A MAC length of 0 means all bits. -/
def agree (n : Nat) (a b : Block) : Bool :=
  if n = 0 then a == b else (bitsOf a.toList).take n == (bitsOf b.toList).take n

/-- The end of a MAC call, when all pages have been consumed. -/
def finishMac (e : She) (kind : MacKind) (bits : Nat) (pages : List Block) (p : Pram) : Pram :=
  match kind with
  | .generate => splice p page2Offset (macOf P e.ramKey bits pages).toList
  | .verify macLength =>
    let expected := macOf P e.ramKey bits pages.dropLast
    let verdict := if agree macLength expected (pages.getLastD (Vector.replicate 16 0)) then 0
      else P.mismatch
    splice p macVerificationBitsOffset [hi verdict, lo verdict]

/-- Consume as many of the remaining pages as fit in pages 1 to 7. -/
def mac (e : She) (kind : MacKind) (bits remaining : Nat) (seen : List Block) (p : Pram) :
    Pram × She :=
  let n := min remaining 7
  let seen := seen ++ pages p page1Offset n
  if remaining ≤ 7 then (finishMac P e kind bits seen p, { e with job := .idle })
  else (p, { e with job := .mac kind bits (remaining - n) seen })

/-- The message length in bits: the word at `MAC_MESSAGE_LENGTH_OFFSET`. -/
def bitLength (p : Pram) : Nat :=
  (halfwordAt p macMessageLengthOffset ++ halfwordAt p (macMessageLengthOffset + 2)).toNat

/-- A command with its sequence, on the PRAM it is handed. `none` is a command
out of sequence: one that starts a function call while another one is in
progress, or that continues none. -/
def step (e : She) (cmd : Command) (sequence : Sequence) (p : Pram) : Option (Pram × She) :=
  match cmd, sequence, e.job with
  | .initRng, .first, .idle => some (p, e)
  | .rng, .first, .idle =>
    some (splice p page1Offset (P.random e.drawn).toList, { e with drawn := e.drawn + 1 })
  | .loadPlainKey, .first, .idle =>
    some (p, { e with ramKey := page p page1Offset })
  | .encCbc, .first, .idle =>
    some (e.cbc P .enc (halfwordAt p pageLengthOffset).toNat (page p page1Offset) page2Offset 6 p)
  | .decCbc, .first, .idle =>
    some (e.cbc P .dec (halfwordAt p pageLengthOffset).toNat (page p page1Offset) page2Offset 6 p)
  | .encCbc, .subsequent, .cbc .enc remaining chain =>
    some (e.cbc P .enc remaining chain page1Offset 7 p)
  | .decCbc, .subsequent, .cbc .dec remaining chain =>
    some (e.cbc P .dec remaining chain page1Offset 7 p)
  | .generateMac, .first, .idle =>
    some (e.mac P .generate (bitLength p) (macPages .generate (bitLength p)) [] p)
  | .verifyMac, .first, .idle =>
    let kind := .verify (halfwordAt p macLengthOffset).toNat
    some (e.mac P kind (bitLength p) (macPages kind (bitLength p)) [] p)
  | .generateMac, .subsequent, .mac .generate bits remaining seen =>
    some (e.mac P .generate bits remaining seen p)
  | .verifyMac, .subsequent, .mac (.verify macLength) bits remaining seen =>
    some (e.mac P (.verify macLength) bits remaining seen p)
  | _, _, _ => none

/-- The key slot a command works with. -/
def keyOf : Command → KeyID
  | .initRng => .secretKey
  | .rng => .secretKey
  | _ => .ramKey

/-- The headers the engine knows. -/
def headers : List (Command × Sequence) :=
  [Command.initRng, .rng, .loadPlainKey, .encCbc, .decCbc, .generateMac, .verifyMac].flatMap
    fun cmd => [(cmd, .first), (cmd, .subsequent)]

def decode (w : Word) : Option (Command × Sequence) :=
  headers.find? fun h => headerWord h.1 .copy h.2 (keyOf h.1) == w

theorem decode_headerWord {cmd : Command} (himpl : cmd.implemented = true) (sequence : Sequence) :
    decode (headerWord cmd .copy sequence (keyOf cmd)) = some (cmd, sequence) := by
  cases cmd <;> first
    | exact absurd himpl (by decide)
    | (cases sequence <;> decide)

/-- The PRAM with the result of the command in its half-word. -/
def report (p : Pram) (r : CommandResult) : Pram :=
  splice p errorBitsOffset [hi r.code, lo r.code]

end She

open She

/-- The engine, seeded and with a key. -/
def she (P : Primitives) (latency : She → Pram → Nat) : Engine She where
  run e p :=
    match decode (p 0) with
    | none => (report p .generalError, e)
    | some (cmd, sequence) =>
      match e.step P cmd sequence p with
      | none => (report p .sequenceError, e)
      | some (p', e') => (report p' .noError, e')
  latency := latency

variable {P : Primitives} (latency : She → Pram → Nat) {β : Type}

namespace SheLemmas

@[simp] theorem page_toList (p : Pram) (offset : Nat) :
    (page p offset).toList = slice p offset 16 := by
  apply List.ext_getElem
  · simp
  · intro i h₁ h₂
    simp [page, slice]

theorem slice_splice_page (p : Pram) {offset : Nat} (b : Block) (hfit : offset + 16 ≤ 128) :
    slice (splice p offset b.toList) offset 16 = b.toList := by
  have hlen : b.toList.length = 16 := Vector.length_toList
  exact (congrArg _ hlen.symm).trans (slice_splice_self p (hlen.symm ▸ hfit))

theorem status_report (p : Pram) (r : CommandResult) : status (report p r) = r.code :=
  halfwordAt_splice_self p r.code (by decide)

/-- The result half-word lies in front of all pages but page 0. -/
theorem slice_report (p : Pram) (r : CommandResult) {offset len : Nat} (h : 6 ≤ offset) :
    slice (report p r) offset len = slice p offset len :=
  slice_splice_of_disjoint p (Or.inr h)

theorem halfwordAt_report (p : Pram) (r : CommandResult) {offset : Nat} (h : 6 ≤ offset) :
    halfwordAt (report p r) offset = halfwordAt p offset :=
  halfwordAt_splice_of_disjoint p (Or.inr h)

end SheLemmas

open SheLemmas

variable {s : Cse She} {c : Request β} {cmd : Command} {sequence : Sequence}

/-- A command in sequence. -/
theorem serve_done (himpl : cmd.implemented = true)
    (hheader : c.header = headerWord cmd .copy sequence (keyOf cmd)) {p' : Pram} {e' : She}
    (hstep : s.engine.step P cmd sequence (c.handed s.pram) = some (p', e')) :
    (s.serve (she P latency) c).pram = report p' .noError ∧
      (s.serve (she P latency) c).engine = e' := by
  have hdecode : decode (c.handed s.pram 0) = some (cmd, sequence) := by
    rw [Request.handed, Function.update_self, hheader, decode_headerWord himpl]
  have hrun : (she P latency).run s.engine (c.handed s.pram) = (report p' .noError, e') := by
    simp only [she, hdecode, hstep]
  exact ⟨congrArg Prod.fst hrun, congrArg Prod.snd hrun⟩

/-- A command out of sequence. -/
theorem serve_outOfSequence (himpl : cmd.implemented = true)
    (hheader : c.header = headerWord cmd .copy sequence (keyOf cmd))
    (hstep : s.engine.step P cmd sequence (c.handed s.pram) = none) :
    (s.serve (she P latency) c).pram = report (c.handed s.pram) .sequenceError := by
  have hdecode : decode (c.handed s.pram 0) = some (cmd, sequence) := by
    rw [Request.handed, Function.update_self, hheader, decode_headerWord himpl]
  have hrun : (she P latency).run s.engine (c.handed s.pram) =
      (report (c.handed s.pram) .sequenceError, s.engine) := by
    simp only [she, hdecode, hstep]
  exact congrArg Prod.fst hrun

/-- A session goes on after a command in sequence. -/
theorem run_done (himpl : cmd.implemented = true)
    (hheader : c.header = headerWord cmd .copy sequence (keyOf cmd)) {p' : Pram} {e' : She}
    (hstep : s.engine.step P cmd sequence (c.handed s.pram) = some (p', e'))
    (cs : List (Request β)) :
    ∃ s' : Cse She, s'.pram = report p' .noError ∧ s'.engine = e' ∧
      Session.run (she P latency) (c :: cs) s =
        { Session.run (she P latency) cs s' with
          observed := c.observe (report p' .noError) ::
            (Session.run (she P latency) cs s').observed } := by
  obtain ⟨hpram, hengine⟩ := serve_done latency himpl hheader hstep
  refine ⟨s.serve (she P latency) c, hpram, hengine, ?_⟩
  rw [SessionLemmas.run_cons, hpram, status_report]
  rfl

/-- A session ends at a command out of sequence. -/
theorem run_outOfSequence (himpl : cmd.implemented = true)
    (hheader : c.header = headerWord cmd .copy sequence (keyOf cmd))
    (hstep : s.engine.step P cmd sequence (c.handed s.pram) = none) (cs : List (Request β)) :
    (Session.run (she P latency) (c :: cs) s).ending = .done (.error .sequenceError) := by
  rw [SessionLemmas.run_cons, serve_outOfSequence latency himpl hheader hstep, status_report]
  rfl

/-- An idle engine with the key of the test vector. -/
def She.sample : She := ⟨sampleKey, 0, .idle⟩

/-- No command in progress, and leftovers in PRAM. -/
def Cse.stale {ε : Type} (engine : ε) : Cse ε := ⟨fun _ => 0xa5a5a5a5, engine, none, [], []⟩

end Csec
