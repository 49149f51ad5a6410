import DaredevilSmall.Csec.Reference.Access
import DaredevilSmall.Csec.She

/-!
# The reference driver

The functions of `csec_driver.c` that the driver is a port of, with the interrupt
handler and the asynchronous functions that were not ported. `csec_state_t` is passed
along. Integers are of the source's width and wrap as they do in C.

A call of several commands is started by a `Start` function, and a `Continue` function
takes it from one command to the next: in the loop of a blocking function, or in the
interrupt handler for an asynchronous one.
-/

namespace Csec

namespace Reference

open Mmio

variable {α : Type}

/-! ## The state -/

/-- `csec_state_t`. A pointer to a buffer stands for the buffer, so `outputBuff` and
`verifStatus` are what the driver stores through these pointers. `callback` is whether
one is installed, and `called` are the commands it has been called for. -/
structure State where
  cmdInProgress : Bool
  cmd : Command
  inputBuff : List Byte
  outputBuff : List Byte
  index : Word
  fullSize : Word
  partSize : Word
  keyId : KeyID
  errCode : Status
  iv : Block
  seq : Sequence
  msgLen : Word
  verifStatus : Bool
  macWritten : Bool
  mac : Block
  macLen : Word
  callback : Bool
  called : List Command

/-- `CSEC_DATA_PAGES_AVAILABLE`. -/
def dataPagesAvailable : Word := 7

/-- `CSEC_DATA_BYTES_AVAILABLE`. -/
def dataBytesAvailable : Word := 112

/-- `CSEC_DRV_RoundTo`. -/
def roundTo (value unit : Word) : Word := (value + (unit - 1)) &&& ~~~(unit - 1)

namespace State

/-- The `n` bytes at `&inputBuff[index]`. -/
def chunk (st : State) (n : Byte) : List Byte := (st.inputBuff.drop st.index.toNat).take n.toNat

/-- Store bytes at `&outputBuff[offset]`. -/
def fill (st : State) (offset : Nat) (bytes : List Byte) : State :=
  { st with
    outputBuff :=
      st.outputBuff.take offset ++ bytes ++ st.outputBuff.drop (offset + bytes.length) }

end State

/-- `CSEC_DRV_InitState`. -/
def initState (keyId : KeyID) (cmd : Command) (inBuff outBuff : List Byte) (length : Word)
    (st : State) : State :=
  { st with
    cmdInProgress := true
    cmd := cmd
    inputBuff := inBuff
    outputBuff := outBuff
    keyId := keyId
    fullSize := length
    index := 0
    errCode := .success
    seq := .first }

/-! ## From command to command -/

/-- The end of every `Start` function: the size of the part, and the header. -/
def launch (numBytes : Byte) (st : State) : Access State := do
  let st := { st with partSize := numBytes.setWidth 32 }
  -- Write the command header. This will trigger the command execution.
  writeCommandHeader st.cmd .copy st.seq st.keyId
  pure st

/-- The pages that a CBC command carries when `available` of them are free. -/
def numPages (available : Word) (st : State) : Halfword :=
  let numPagesLeft := (st.fullSize - st.index) >>> 4
  (if numPagesLeft > available then available else numPagesLeft).setWidth 16

/-- `CSEC_DRV_StartEncDecCBCCmd`. -/
def startEncDecCbcCmd (st : State) : Access State := do
  let numBytes ← match st.seq with
    | .first => do
      let numBytes := (numPages (dataPagesAvailable - 1) st <<< 4).setWidth 8
      -- Write the initialization vector
      writeCommandBytes page1Offset st.iv.toList
      -- Write the plain/cipher text
      writeCommandBytes page2Offset (st.chunk numBytes)
      pure numBytes
    | .subsequent => do
      let numBytes := (numPages dataPagesAvailable st <<< 4).setWidth 8
      writeCommandBytes page1Offset (st.chunk numBytes)
      pure numBytes
  -- Write the size of the plain/cipher text (in pages)
  writeCommandHalfWord pageLengthOffset ((st.fullSize >>> 4).setWidth 16)
  launch numBytes st

/-- The bytes that a MAC command carries. -/
def numBytes (st : State) : Byte :=
  (if st.fullSize - st.index > dataBytesAvailable then dataBytesAvailable
    else st.fullSize - st.index).setWidth 8

/-- `CSEC_DRV_StartGenMACCmd`. -/
def startGenMacCmd (st : State) : Access State := do
  let numBytes := numBytes st
  writeCommandBytes page1Offset (st.chunk numBytes)
  -- Write the size of the message (in bits)
  writeCommandWords macMessageLengthOffset [st.msgLen]
  launch numBytes st

/-- Where `CSEC_DRV_StartVerifMACCmd` puts the MAC, from page 1 on. -/
def macOffset (numBytes : Byte) : Byte := (roundTo (numBytes.setWidth 32) 0x10).setWidth 8

/-- `CSEC_DRV_StartVerifMACCmd`. -/
def startVerifMacCmd (st : State) : Access State := do
  let numBytes := numBytes st
  let macOffset := macOffset numBytes
  writeCommandBytes page1Offset (st.chunk numBytes)
  writeCommandWords macMessageLengthOffset [st.msgLen]
  -- Write the number of bits of the MAC to be compared
  writeCommandHalfWord macLengthOffset (st.macLen.setWidth 16)
  -- If there is available space in CSE_PRAM, write the MAC to be verified
  if macOffset.toNat + pageSizeInBytes < dataBytesAvailable.toNat then do
    writeCommandBytes (page1Offset + macOffset.toNat) st.mac.toList
    launch numBytes { st with macWritten := true }
  else launch numBytes st

/-- The start of every `Continue` function: an error ends the call. -/
def ifSuccess (st : State) (resume : State → Access State) : Access State := do
  let errCode ← readErrorBits
  let st := { st with errCode := errCode }
  if errCode ≠ .success then
    -- Do not continue launching commands if an error occurred
    pure { st with cmdInProgress := false }
  else resume st

/-- `index += (uint8_t)partSize`. -/
def State.advance (st : State) : State :=
  { st with index := st.index + (st.partSize.setWidth 8).setWidth 32 }

/-- The page from which a partial result is read. -/
def partOffset : Sequence → Nat
  | .first => page2Offset
  | .subsequent => page1Offset

/-- Store a partial result, and go on behind it. -/
def State.collect (st : State) (bytes : List Byte) : State :=
  { (st.fill st.index.toNat bytes).advance with seq := .subsequent }

/-- `CSEC_DRV_ContinueEncDecCBCCmd`. -/
def continueEncDecCbcCmd (st : State) : Access State :=
  ifSuccess st fun st => do
    -- Get partial result
    let bytes ← readCommandBytes (partOffset st.seq) (st.partSize.setWidth 8).toNat
    let st := st.collect bytes
    if st.index ≥ st.fullSize then pure { st with cmdInProgress := false }
    else startEncDecCbcCmd st

/-- `CSEC_DRV_ContinueGenMACCmd`. -/
def continueGenMacCmd (st : State) : Access State :=
  ifSuccess st fun st => do
    let st := { st.advance with seq := .subsequent }
    if st.index ≥ st.fullSize then do
      let cmac ← readCommandBytes page2Offset pageSizeInBytes
      pure { st.fill 0 cmac with cmdInProgress := false }
    else startGenMacCmd st

/-- `CSEC_DRV_ContinueVerifMACCmd`. -/
def continueVerifMacCmd (st : State) : Access State :=
  ifSuccess st fun st => do
    let st := { st.advance with seq := .subsequent, cmdInProgress := !st.macWritten }
    if !st.cmdInProgress then do
      let bits ← readCommandHalfWord macVerificationBitsOffset
      pure { st with verifStatus := bits == 0 }
    else startVerifMacCmd st

/-! ## The host -/

/-- `FTFC.FCNFG`, and the counter behind `OSIF_GetMilliseconds`. -/
inductive HostReg where
  | fcnfg | millis
  deriving DecidableEq, Repr

/-- A program of the reference driver. -/
abbrev Driver := Prog (CseReg ⊕ HostReg) Site

def onCsec (p : Access α) : Driver α := p.embed Sum.inl id

/-- `CSEC_SetInterrupt`. -/
def setInterrupt (enable : Bool) : Driver Unit :=
  modifyReg .setInterrupt (.inr .fcnfg) fun tmp => setField tmp 7 1 (if enable then 1 else 0)

/-- `OSIF_GetMilliseconds`. -/
def getMilliseconds : Driver Word := readReg .getMilliseconds (.inr .millis)

/-! ## The functions of the driver -/

/-- `CSEC_DRV_CancelCommand`. -/
def cancelCommand (st : State) : Driver State :=
  if st.cmdInProgress then do
    setInterrupt false
    -- Wait until the execution of the previous command is complete
    onCsec waitCommandCompletion
    -- Was there any command already launched? If so, break the sequence
    if st.fullSize ≠ st.partSize then do
      onCsec (writeCommandHeader st.cmd .copy .first st.keyId)
      onCsec waitCommandCompletion
      pure { st with cmdInProgress := false }
    else pure { st with cmdInProgress := false }
  else pure st

/-- A call of several commands: what it sets up, and its `Start` and `Continue`
functions. -/
structure Call where
  init : State → State
  start : State → Access State
  resume : State → Access State

/-- The loop of a blocking function, of at most `fuel` rounds. -/
def Call.loop (c : Call) (startTime timeout : Word) : Nat → State → Driver (Option State)
  | 0, st => pure (if st.cmdInProgress then none else some st)
  | fuel + 1, st =>
    if st.cmdInProgress then do
      -- Wait until the execution of the command is complete
      onCsec waitCommandCompletion
      let crtTime ← getMilliseconds
      if crtTime > startTime + timeout then do
        let st ← cancelCommand st
        pure (some { st with errCode := .timeout })
      else do
        let st ← onCsec (c.resume st)
        c.loop startTime timeout fuel st
    else pure (some st)

/-- A blocking function. -/
def Call.blocking (c : Call) (timeout : Word) (fuel : Nat) (st : State) :
    Driver (Option (Status × State)) :=
  if st.cmdInProgress then pure (some (.busy, st)) else do
    let startTime ← getMilliseconds
    let st ← onCsec (c.start (c.init st))
    let result ← c.loop startTime timeout fuel st
    pure (result.map fun st => (st.errCode, st))

/-- An asynchronous function. -/
def Call.async (c : Call) (st : State) : Driver (Status × State) :=
  if st.cmdInProgress then pure (.busy, st) else do
    let st ← onCsec (c.start (c.init st))
    -- Enable interrupt
    setInterrupt true
    pure (.success, st)

/-- `CSEC_DRV_EncryptCBC` and `CSEC_DRV_EncryptCBCAsync`. -/
def encryptCbc (keyId : KeyID) (plainText : List Byte) (length : Word) (iv : Block)
    (cipherText : List Byte) : Call where
  init st := { initState keyId .encCbc plainText cipherText length st with iv := iv }
  start := startEncDecCbcCmd
  resume := continueEncDecCbcCmd

/-- `CSEC_DRV_DecryptCBC` and `CSEC_DRV_DecryptCBCAsync`. -/
def decryptCbc (keyId : KeyID) (cipherText : List Byte) (length : Word) (iv : Block)
    (plainText : List Byte) : Call where
  init st := { initState keyId .decCbc cipherText plainText length st with iv := iv }
  start := startEncDecCbcCmd
  resume := continueEncDecCbcCmd

/-- `CSEC_DRV_GenerateMAC` and `CSEC_DRV_GenerateMACAsync`. -/
def generateMac (keyId : KeyID) (msg : List Byte) (msgLen : Word) (cmac : List Byte) : Call where
  init st :=
    { initState keyId .generateMac msg cmac (roundTo msgLen 0x8 >>> 3) st with msgLen := msgLen }
  start := startGenMacCmd
  resume := continueGenMacCmd

/-- `CSEC_DRV_VerifyMAC` and `CSEC_DRV_VerifyMACAsync`. There is no output buffer. -/
def verifyMac (keyId : KeyID) (msg : List Byte) (msgLen : Word) (mac : Block)
    (macLen : Halfword) : Call where
  init st :=
    { initState keyId .verifyMac msg [] (roundTo msgLen 0x8 >>> 3) st with
      msgLen := msgLen
      macWritten := false
      mac := mac
      macLen := macLen.setWidth 32 }
  start := startVerifMacCmd
  resume := continueVerifMacCmd

/-- A function of one command: what it writes before the header, and what it reads after
a success. -/
def single (parameters : Access Unit) (funcId : Command) (keyId : KeyID) (result : Access α)
    (st : State) : Driver ((Status × Option α) × State) :=
  if st.cmdInProgress then pure ((.busy, none), st) else do
    onCsec parameters
    onCsec (writeCommandHeader funcId .copy .first keyId)
    onCsec waitCommandCompletion
    let stat ← onCsec readErrorBits
    if stat = .success then do
      let value ← onCsec result
      pure ((stat, some value), { st with cmdInProgress := false })
    else pure ((stat, none), { st with cmdInProgress := false })

/-- `CSEC_DRV_LoadPlainKey`. -/
def loadPlainKey (plainKey : Block) : State → Driver ((Status × Option Unit) × State) :=
  single (writeCommandBytes page1Offset plainKey.toList) .loadPlainKey .ramKey (pure ())

/-- `CSEC_DRV_InitRNG`. -/
def initRng : State → Driver ((Status × Option Unit) × State) :=
  single (pure ()) .initRng .secretKey (pure ())

/-- `CSEC_DRV_GenerateRND`. -/
def generateRnd : State → Driver ((Status × Option (List Byte)) × State) :=
  single (pure ()) .rng .secretKey (readCommandBytes page1Offset pageSizeInBytes)

/-- `CSEC_DRV_GetAsyncCmdStatus`. -/
def getAsyncCmdStatus (st : State) : Status :=
  if !st.cmdInProgress then st.errCode else .busy

/-- The `Continue` function that the interrupt handler calls. -/
def continueCmd (st : State) : Access State :=
  match st.cmd with
  | .encCbc | .decCbc => continueEncDecCbcCmd st
  | .generateMac => continueGenMacCmd st
  | .verifyMac => continueVerifMacCmd st
  | _ => pure st

/-- `FTFC_IRQHandler`. -/
def ftfcIrqHandler (st : State) : Driver State := do
  let fstat ← readReg .ftfcIrqHandler (.inl .fstat)
  -- Previous command execution ended, continue execution
  if fstat &&& ccif ≠ 0 ∧ st.cmdInProgress then do
    let st ← onCsec (continueCmd st)
    -- If finished processing, disable interrupt
    if !st.cmdInProgress then do
      setInterrupt false
      pure { st with called := if st.callback then st.called ++ [st.cmd] else st.called }
    else pure st
  else pure st

end Reference

end Csec
