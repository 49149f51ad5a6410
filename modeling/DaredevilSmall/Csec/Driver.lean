import DaredevilSmall.Csec.Device

/-!
# The CSEc driver

The functions of `src/csec.rs`, under the source's names. A driver function is a
program over the registers of the CSEc. Integers are those of the target, on
which `usize` has 32 bits. Arithmetic wraps, as it does in a release build. A
Rust slice is a list of bytes, and a function that fills a `&mut [u8]` returns
its new contents.
-/

namespace Csec

open Mmio

/-! ## Commands and results -/

/-- `Command`: the values of the SHE command definition. -/
inductive Command where
  | encEcb | encCbc | decEcb | decCbc | generateMac | verifyMac | loadKey | loadPlainKey
  | exportRamKey | initRng | extendSeed | rng | reserved1 | bootFailure | bootOk | getId
  | bootDefine | dbgChal | dbgAuth | reserved2 | reserved3 | mPCompress
  deriving DecidableEq, Repr

/-- `cmd as u8`: the variants count from `EncEcb = 0x01`. -/
def Command.code : Command → Byte
  | encEcb => 0x01
  | encCbc => 0x02
  | decEcb => 0x03
  | decCbc => 0x04
  | generateMac => 0x05
  | verifyMac => 0x06
  | loadKey => 0x07
  | loadPlainKey => 0x08
  | exportRamKey => 0x09
  | initRng => 0x0a
  | extendSeed => 0x0b
  | rng => 0x0c
  | reserved1 => 0x0d
  | bootFailure => 0x0e
  | bootOk => 0x0f
  | getId => 0x10
  | bootDefine => 0x11
  | dbgChal => 0x12
  | dbgAuth => 0x13
  | reserved2 => 0x14
  | reserved3 => 0x15
  | mPCompress => 0x16

/-- `Format`: how data is transferred to and from the CSE. -/
inductive Format where
  | copy | pointer
  deriving DecidableEq, Repr

def Format.code : Format → Byte
  | copy => 0x0
  | pointer => 0x1

/-- `Sequence`: whether a command is the first of a function call. -/
inductive Sequence where
  | first | subsequent
  deriving DecidableEq, Repr

def Sequence.code : Sequence → Byte
  | first => 0x0
  | subsequent => 0x1

/-- `KeyID`. -/
inductive KeyID where
  | secretKey | masterEcu | bootMacKey | bootMac | key1 | key2 | key3 | key4 | key5 | key6
  | key7 | key8 | key9 | key10 | ramKey | key11 | key12 | key13 | key14 | key15 | key16 | key17
  deriving DecidableEq, Repr

/-- `key as u8`: counted from 0, with jumps to `RamKey = 0xf` and
`Key11 = 0x14`. -/
def KeyID.code : KeyID → Byte
  | secretKey => 0x0
  | masterEcu => 0x1
  | bootMacKey => 0x2
  | bootMac => 0x3
  | key1 => 0x4
  | key2 => 0x5
  | key3 => 0x6
  | key4 => 0x7
  | key5 => 0x8
  | key6 => 0x9
  | key7 => 0xa
  | key8 => 0xb
  | key9 => 0xc
  | key10 => 0xd
  | ramKey => 0xf
  | key11 => 0x14
  | key12 => 0x15
  | key13 => 0x16
  | key14 => 0x17
  | key15 => 0x18
  | key16 => 0x19
  | key17 => 0x1a

/-- `CommandResult`: the result of a command, one bit for each error code. -/
inductive CommandResult where
  | noError | sequenceError | keyNotAvailable | keyInvalid | keyEmpty | noSecureBoot
  | keyWriteProtected | keyUpdateError | rngSeed | noDebugging | memoryFailure | generalError
  deriving DecidableEq, Repr

namespace CommandResult

def code : CommandResult → Halfword
  | noError => 0x1
  | sequenceError => 0x2
  | keyNotAvailable => 0x4
  | keyInvalid => 0x8
  | keyEmpty => 0x10
  | noSecureBoot => 0x20
  | keyWriteProtected => 0x40
  | keyUpdateError => 0x80
  | rngSeed => 0x100
  | noDebugging => 0x200
  | memoryFailure => 0x400
  | generalError => 0x800

/-- `CommandResult::from_u16`; `none` is the arm that panics. -/
def fromU16 (value : Halfword) : Option CommandResult :=
  match value.toNat with
  | 0x1 => some noError
  | 0x2 => some sequenceError
  | 0x4 => some keyNotAvailable
  | 0x8 => some keyInvalid
  | 0x10 => some keyEmpty
  | 0x20 => some noSecureBoot
  | 0x40 => some keyWriteProtected
  | 0x80 => some keyUpdateError
  | 0x100 => some rngSeed
  | 0x200 => some noDebugging
  | 0x400 => some memoryFailure
  | 0x800 => some generalError
  | _ => none

/-- The panic of `from_u16`. -/
def unknown (value : Halfword) : Panic :=
  .explicit ("Unknown CommandResult value: " ++ toString value.toNat)

/-- Every result is decoded from its own code. -/
theorem fromU16_code (r : CommandResult) : fromU16 r.code = some r := by
  cases r <;> rfl

theorem code_of_fromU16 {v : Halfword} {r : CommandResult} (h : fromU16 v = some r) :
    v = r.code := by
  unfold fromU16 at h
  split at h
  all_goals first
    | (cases h; apply BitVec.eq_of_toNat_eq; assumption)
    | cases h

end CommandResult

/-- `u8_be_array_from_u32`. -/
def u8BeArrayFromU32 (x : Word) : Vector Byte 4 :=
  #v[((x >>> 24) &&& 0xff).setWidth 8, ((x >>> 16) &&& 0xff).setWidth 8,
    ((x >>> 8) &&& 0xff).setWidth 8, ((x >>> 0) &&& 0xff).setWidth 8]

/-- `u32::from_be_bytes`. -/
def u32FromBeBytes (buf : Vector Byte 4) : Word := be buf[0] buf[1] buf[2] buf[3]

/-! ## Constants -/

def page1Offset : Nat := 16
def page2Offset : Nat := 32
def pageLengthOffset : Nat := 14
def pageSizeInBytes : Nat := 16
def errorBitsOffset : Nat := 4
def lowerHalfMask : Word := 0xffff
def lowerHalfShift : Nat := 0x0
def upperHalfMask : Word := 0xffff0000
def bytesToPagesShift : Nat := 4
def maxPages : Nat := 7
def macMessageLengthOffset : Nat := 0xc
def macVerificationBitsOffset : Nat := page1Offset + 0x4
def macLengthOffset : Nat := 0x8
/-- `u32::max_value()`. -/
def u32Max : Nat := 0xffffffff
/-- `u16::max_value()`. -/
def u16Max : Halfword := 0xffff

/-! ## Access to `CSE_PRAM` -/

/-- The driver functions that access a register themselves. -/
inductive Site where
  | writeCommandHeader | readCommandHalfword | writeCommandHalfword | readCommandByte
  | writeCommandByte | readCommandBytes | writeCommandBytes
  deriving DecidableEq, Repr

/-- A program of the driver. -/
abbrev Driver := Prog CseReg Site

/-- `read_pram`, called from `site`. -/
def readPram (site : Site) (n : Nat) : Driver (Vector Byte 4) :=
  if h : n < 32 then do
    let page ← readReg site (.ram ⟨n, h⟩)
    pure (u8BeArrayFromU32 page)
  else .panic .unreachable

/-- `write_pram`, called from `site`. -/
def writePram (site : Site) (n : Nat) (buf : Vector Byte 4) : Driver Unit :=
  if h : n < 32 then writeReg site (.ram ⟨n, h⟩) (u32FromBeBytes buf)
  else .panic .unreachable

/-- `read_command_halfword`. -/
def readCommandHalfword (offset : Nat) : Driver Halfword := do
  let page ← readPram .readCommandHalfword (offset >>> 2)
  if offset &&& 2 ≠ 0 then pure (page[2] ++ page[3])
  else pure (page[0] ++ page[1])

/-- The word that `write_command_halfword` writes back. Both arms shift by
`LOWER_HALF_SHIFT`. -/
def writeCommandHalfword.page (offset : Nat) (halfword : Halfword) (page : Word) : Word :=
  if offset &&& 2 ≠ 0 then
    (page &&& ~~~lowerHalfMask) ||| ((halfword.setWidth 32 <<< lowerHalfShift) &&& lowerHalfMask)
  else
    (page &&& ~~~upperHalfMask) ||| ((halfword.setWidth 32 <<< lowerHalfShift) &&& upperHalfMask)

/-- `write_command_halfword`. -/
def writeCommandHalfword (offset : Nat) (halfword : Halfword) : Driver Unit := do
  let page ← readPram .writeCommandHalfword (offset >>> 2)
  let newpage := u8BeArrayFromU32 (writeCommandHalfword.page offset halfword (u32FromBeBytes page))
  writePram .writeCommandHalfword (offset >>> 2) newpage

/-- `write_command_words`. The offset does not advance with the index. -/
def writeCommandWords (offset : Nat) : List Word → Driver Unit
  | [] => pure ()
  | word :: words => do
    let upper := ((word &&& 0xffff0000) >>> 16).setWidth 16
    let lower := ((word &&& 0xffff) >>> 0).setWidth 16
    writeCommandHalfword offset upper
    writeCommandHalfword (offset + 2) lower
    writeCommandWords offset words

/-- `read_command_byte`. -/
def readCommandByte (offset : Nat) : Driver Byte := do
  let page ← readPram .readCommandByte (offset >>> 2)
  match offset &&& 0x3 with
  | 0x0 => pure page[0]
  | 0x1 => pure page[1]
  | 0x2 => pure page[2]
  | 0x3 => pure page[3]
  | _ => .panic .unreachable

/-- `write_command_byte`. -/
def writeCommandByte (offset : Nat) (byte : Byte) : Driver Unit := do
  let page ← readPram .writeCommandByte (offset >>> 2)
  match offset &&& 0x3 with
  | 0x0 => writePram .writeCommandByte (offset >>> 2) #v[byte, page[1], page[2], page[3]]
  | 0x1 => writePram .writeCommandByte (offset >>> 2) #v[page[0], byte, page[2], page[3]]
  | 0x2 => writePram .writeCommandByte (offset >>> 2) #v[page[0], page[1], byte, page[3]]
  | 0x3 => writePram .writeCommandByte (offset >>> 2) #v[page[0], page[1], page[2], byte]
  | _ => .panic .unreachable

/-- The second loop of `read_command_bytes`: byte by byte. -/
def readCommandBytes.tail (offset : Nat) : List Byte → Driver (List Byte)
  | [] => pure []
  | _ :: buf => do
    let b ← readCommandByte offset
    let rest ← readCommandBytes.tail (offset + 1) buf
    pure (b :: rest)

/-- `read_command_bytes`: the new contents of `buf`. The index of the loops is
carried by advancing `offset` along the rest of the buffer. -/
def readCommandBytes (offset : Nat) : List Byte → Driver (List Byte)
  | _ :: _ :: _ :: _ :: buf => do
    let page ← readPram .readCommandBytes (offset >>> 2)
    let rest ← readCommandBytes (offset + 4) buf
    pure (page[0] :: page[1] :: page[2] :: page[3] :: rest)
  | buf => readCommandBytes.tail offset buf

/-- The second loop of `write_command_bytes`: byte by byte. -/
def writeCommandBytes.tail (offset : Nat) : List Byte → Driver Unit
  | [] => pure ()
  | b :: buf => do
    writeCommandByte offset b
    writeCommandBytes.tail (offset + 1) buf

/-- `write_command_bytes`. The index of the loops is carried by advancing
`offset` along the rest of the buffer. -/
def writeCommandBytes (offset : Nat) : List Byte → Driver Unit
  | b0 :: b1 :: b2 :: b3 :: buf => do
    writePram .writeCommandBytes (offset >>> 2) #v[b0, b1, b2, b3]
    writeCommandBytes (offset + 4) buf
  | buf => writeCommandBytes.tail offset buf

/-! ## Commands -/

/-- The commands `write_command_header` accepts. -/
def Command.implemented : Command → Bool
  | initRng | rng | loadPlainKey | encCbc | decCbc | generateMac | verifyMac => true
  | _ => false

/-- The word `write_command_header` writes to `embedded_ram0`. Field `byte_0`
is its most significant byte. -/
def headerWord (cmd : Command) (cmdFormat : Format) (callseq : Sequence) (key : KeyID) : Word :=
  be cmd.code cmdFormat.code callseq.code key.code

/-- `ccif().bit_is_clear()`. -/
def ccifIsClear (v : Word) : Bool := v &&& ccif == 0

/-- `write_command_header`. -/
def writeCommandHeader (cmd : Command) (cmdFormat : Format) (callseq : Sequence) (key : KeyID) :
    Driver (Except CommandResult Unit) := do
  if cmd.implemented then pure () else .panic .unimplemented
  writeReg .writeCommandHeader (.ram 0) (headerWord cmd cmdFormat callseq key)
  -- Wait until the operation has finished
  pollReg .writeCommandHeader .fstat ccifIsClear
  let value ← readCommandHalfword errorBitsOffset
  match CommandResult.fromU16 value with
  | none => .panic (CommandResult.unknown value)
  | some .noError => pure (.ok ())
  | some status => pure (.error status)

/-- `init_rng`. -/
def initRng : Driver (Except CommandResult Unit) :=
  writeCommandHeader .initRng .copy .first .secretKey

/-- `generate_rnd`. -/
def generateRnd : Driver (Except CommandResult (List Byte)) := do
  match ← writeCommandHeader .rng .copy .first .secretKey with
  | .error e => pure (.error e)
  | .ok () =>
    let buf ← readCommandBytes page1Offset (List.replicate 16 0)
    pure (.ok buf)

/-- `load_plainkey`. -/
def loadPlainkey (key : Vector Byte 16) : Driver (Except CommandResult Unit) := do
  writeCommandBytes page1Offset key.toList
  writeCommandHeader .loadPlainKey .copy .first .ramKey

/-! ## Message authentication codes -/

/-- `process_blocks` of `generate_mac`. -/
def generateMac.processBlocks (message : List Byte) (sequence : Sequence) :
    Driver (Except CommandResult Unit) := do
  -- How many bytes are we processing this round?
  let bytes := min message.length (maxPages * pageSizeInBytes)
  checkSlice bytes message.length
  writeCommandBytes page1Offset (message.take bytes)
  match ← writeCommandHeader .generateMac .copy sequence .ramKey with
  | .error e => pure (.error e)
  | .ok () =>
    -- Process remaining bytes, if any
    if message.length - bytes ≠ 0 then
      generateMac.processBlocks (message.drop bytes) .subsequent
    else pure (.ok ())
termination_by message.length
decreasing_by
  simp only [maxPages, pageSizeInBytes, List.length_drop] at *
  omega

/-- `generate_mac`. -/
def generateMac (message : List Byte) : Driver (Except CommandResult (List Byte)) := do
  assert (message.length ≤ u32Max) "message.len() <= u32::max_value() as usize"
  -- Write how long our message is (in bits)
  writeCommandWords macMessageLengthOffset [BitVec.ofNat 32 (message.length * 8)]
  match ← generateMac.processBlocks message .first with
  | .error e => pure (.error e)
  | .ok () =>
    let cmac ← readCommandBytes page2Offset (List.replicate 16 0)
    pure (.ok cmac)

/-- The page after `bytes` message bytes from page 1 on, rounded up. -/
def verifyMac.nextPage (bytes : Nat) : Nat :=
  (page1Offset + bytes + pageSizeInBytes - 1) / pageSizeInBytes

theorem verifyMac.nextPage_lt_maxPages {bytes : Nat} :
    verifyMac.nextPage bytes < maxPages ↔ bytes ≤ 80 := by
  simp only [verifyMac.nextPage, page1Offset, pageSizeInBytes, maxPages]
  omega

/-- Up to 80 message bytes leave room for the CMAC on the page behind them. -/
theorem verifyMac.room {bytes : Nat} (h : bytes ≤ 80) :
    page1Offset + bytes ≤ verifyMac.nextPage bytes * pageSizeInBytes ∧
      verifyMac.nextPage bytes * pageSizeInBytes + 16 ≤ 128 := by
  simp only [verifyMac.nextPage, page1Offset, pageSizeInBytes]
  omega

/-- `process_blocks` of `verify_mac`. -/
def verifyMac.processBlocks (message cmac : List Byte) (sequence : Sequence)
    (macWritten : Bool) : Driver (Except CommandResult Bool) := do
  -- How many bytes are we processing this round?
  let bytes := min message.length (maxPages * pageSizeInBytes)
  checkSlice bytes message.length
  writeCommandBytes page1Offset (message.take bytes)
  let nextPage := verifyMac.nextPage bytes
  let append := !macWritten && decide (nextPage < maxPages)
  -- All data blocks has been written, append the expected CMAC.
  if append then writeCommandBytes (nextPage * pageSizeInBytes) cmac else pure ()
  match ← writeCommandHeader .verifyMac .copy sequence .ramKey with
  | .error e => pure (.error e)
  | .ok () =>
    let bits ← readCommandHalfword macVerificationBitsOffset
    let success := bits == 0
    -- Process remaining blocks until expected CMAC has been written.
    if !(macWritten || append) then
      verifyMac.processBlocks (message.drop bytes) cmac .subsequent (macWritten || append)
    else pure (.ok success)
termination_by message.length
decreasing_by
  rename_i hw
  simp only [append, nextPage, verifyMac.nextPage, bytes, maxPages, page1Offset, pageSizeInBytes,
    Bool.not_or, Bool.and_eq_true, Bool.not_eq_true', Bool.and_eq_false_iff,
    Bool.not_eq_false', decide_eq_false_iff_not] at hw
  simp only [maxPages, pageSizeInBytes, List.length_drop]
  grind

/-- `verify_mac`. -/
def verifyMac (message : List Byte) (cmac : Vector Byte 16) :
    Driver (Except CommandResult Bool) := do
  -- A length of 0 is interpreted by SHE to compare all bits of `mac`.
  assert (message.length > 0 && message.length ≤ u32Max)
    "message.len() > 0 && message.len() <= u32::max_value() as usize"
  -- Write how long our message is (in bits)
  writeCommandWords macMessageLengthOffset [BitVec.ofNat 32 (message.length * 8)]
  -- Write the number of bits of the CMAC to be compared
  writeCommandHalfword macLengthOffset (BitVec.ofNat 16 (cmac.toList.length * 8))
  verifyMac.processBlocks message cmac.toList .first false

/-! ## Encryption and decryption -/

/-- `page_offset` of `process_blocks`. On first call page 1 is occupied by the
initialization vector, so we have one less. -/
def handleCbc.pageOffset : Sequence → Nat
  | .first => page2Offset
  | .subsequent => page1Offset

/-- `avail_pages` of `process_blocks`. -/
def handleCbc.availPages : Sequence → Nat
  | .first => maxPages - 1
  | .subsequent => maxPages

/-- The pages of a CBC command lie behind page 0 and fill PRAM to its end. -/
theorem handleCbc.layout (sequence : Sequence) :
    16 ≤ handleCbc.pageOffset sequence ∧ handleCbc.pageOffset sequence % 4 = 0 ∧
      0 < handleCbc.availPages sequence ∧
      handleCbc.pageOffset sequence + 16 * handleCbc.availPages sequence = 128 := by
  cases sequence <;> decide

/-- `process_blocks` of `handle_cbc`, with the new contents of `output`. The
assertion on the length is carried along: on a length that is no multiple of 16
the recursion of the source would not end. -/
def handleCbc.processBlocks (input output : List Byte) (sequence : Sequence) (command : Command)
    (hpages : input.length % 16 = 0) : Driver (Except CommandResult Unit × List Byte) := do
  let pageOffset := handleCbc.pageOffset sequence
  let availPages := handleCbc.availPages sequence
  -- How many bytes are we processing this round?
  let bytes := min (input.length >>> bytesToPagesShift) availPages * pageSizeInBytes
  checkSlice bytes input.length
  writeCommandBytes pageOffset (input.take bytes)
  match ← writeCommandHeader command .copy sequence .ramKey with
  | .error e => pure (.error e, output)
  | .ok () =>
    checkSlice bytes output.length
    let processed ← readCommandBytes pageOffset (output.take bytes)
    -- Process remaining blocks, if any
    if input.length - bytes ≠ 0 then do
      let (result, rest) ← handleCbc.processBlocks (input.drop bytes) (output.drop bytes)
        .subsequent command (by simp only [bytes, pageSizeInBytes, List.length_drop]; omega)
      pure (result, processed ++ rest)
    else pure (.ok (), processed ++ output.drop bytes)
termination_by input.length
decreasing_by
  rename_i hmore
  have havail : 0 < handleCbc.availPages sequence := (handleCbc.layout sequence).2.2.1
  simp only [bytes, availPages, pageSizeInBytes, bytesToPagesShift, List.length_drop,
    Nat.shiftRight_eq_div_pow] at hmore ⊢
  omega

/-- The bytes of one round. -/
theorem handleCbc.bytes_eq {len : Nat} (hpages : len % 16 = 0) (availPages : Nat) :
    min (len >>> bytesToPagesShift) availPages * pageSizeInBytes = min len (16 * availPages) := by
  simp only [bytesToPagesShift, pageSizeInBytes, Nat.shiftRight_eq_div_pow]
  omega

/-- `core::cmp::max` on `u16`. -/
def handleCbc.max (a b : Halfword) : Halfword := if a ≤ b then b else a

/-- `handle_cbc`. -/
def handleCbc (command : Command) (input : List Byte) (initVec : Vector Byte 16)
    (output : List Byte) : Driver (Except CommandResult Unit × List Byte) := do
  if hlen : output.length = input.length then
    if hpages : output.length % 16 = 0 then do
      assert (BitVec.ofNat 16 (input.length >>> bytesToPagesShift) ≤ u16Max)
        "Encryption/decryption input too long"
      -- Write the initialization vector and how many pages we are going to process
      writeCommandBytes page1Offset initVec.toList
      -- At least one page has to be processed.
      writeCommandHalfword pageLengthOffset
        (handleCbc.max (BitVec.ofNat 16 (input.length >>> bytesToPagesShift)) 1)
      handleCbc.processBlocks input output .first command (hlen ▸ hpages)
    else .panic (.assertion "output.len() % 16 == 0")
  else .panic (.assertion "output.len() == input.len()")

/-- `encrypt_cbc`: the result and the new contents of `ciphertext`. -/
def encryptCbc (plaintext : List Byte) (initVec : Vector Byte 16) (ciphertext : List Byte) :
    Driver (Except CommandResult Unit × List Byte) :=
  handleCbc .encCbc plaintext initVec ciphertext

/-- `decrypt_cbc`: the result and the new contents of `plaintext`. -/
def decryptCbc (ciphertext : List Byte) (initVec : Vector Byte 16) (plaintext : List Byte) :
    Driver (Except CommandResult Unit × List Byte) :=
  handleCbc .decCbc ciphertext initVec plaintext

end Csec
