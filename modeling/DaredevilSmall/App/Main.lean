import DaredevilSmall.Adc.Driver
import DaredevilSmall.Scg.Driver
import DaredevilSmall.Csec.Driver
import DaredevilSmall.Can.Driver

/-!
# The application

`init` and `poll_sensor` of `src/main.rs`, as programs over the registers of all
peripherals. The watchdog is disabled, and `poll_sensor` is scheduled, by other crates.
`initTask` and `pollSensorTask` take the results of these calls, which the source
unwraps, as parameters; `init` and `pollSensor` are what lies between them.
-/

namespace App

open Mmio

/-- The registers of the ADC and of the clock generator. -/
abbrev BoardReg := Adc.AdcReg ⊕ Scg.ScgReg

abbrev AppReg := BoardReg ⊕ (Csec.CseReg ⊕ Can.CanReg)

/-- The driver functions that access a register. -/
inductive Site where
  | adc (site : Adc.Site)
  | scg (site : Scg.Site)
  | csec (site : Csec.Site)
  | can (site : Can.Site)
  deriving DecidableEq, Repr

/-- A program of the application. -/
abbrev Program := Prog AppReg Site

variable {α ε : Type}

/-! ## The drivers on the bus -/

def onAdc (p : Adc.Driver α) : Program α := (p.embed Sum.inl Site.adc).embed Sum.inl id

def onScg (p : Scg.Driver α) : Program α := (p.embed Sum.inr Site.scg).embed Sum.inl id

def onCsec (p : Csec.Driver α) : Program α := (p.embed Sum.inl Site.csec).embed Sum.inr id

def onCan (p : Can.Driver α) : Program α := (p.embed Sum.inr Site.can).embed Sum.inr id

/-! ## Arrays and results -/

/-- `Result::unwrap`. -/
def unwrap : Except ε α → Program α
  | .ok a => pure a
  | .error _ => .panic .unwrap

/-- The `[u8; 16]` with the given bytes. -/
def array16 (bytes : List Byte) : Vector Byte 16 := Vector.ofFn fun i => bytes[i]?.getD 0

/-- `buf[lo..hi].clone_from_slice(src)`: the new contents of `buf`. -/
def cloneFromSlice (buf : List Byte) (lo hi : Nat) (src : List Byte) : Program (List Byte) :=
  if lo ≤ hi ∧ hi ≤ buf.length then
    if src.length = hi - lo then pure (buf.take lo ++ src ++ buf.drop hi)
    else .panic (.explicit "destination and source slices have different lengths")
  else .panic .index

/-- One iteration of `u8_array_from_16_array`. -/
def u8ArrayFrom16Array.write (input : List Halfword) (i : Nat) (output : List Byte) :
    Program (List Byte) :=
  if h : i < input.length then
    pure ((output.set (i * 2) (((input[i] &&& 0xff00) >>> 8).setWidth 8)).set (i * 2 + 1)
      (((input[i] &&& 0xff) >>> 0).setWidth 8))
  else .panic .index

/-- `u8_array_from_16_array`: the new contents of `output`. -/
def u8ArrayFrom16Array (input : List Halfword) (output : List Byte) : Program (List Byte) := do
  assert (input.length * 2 ≤ output.length) "output.len() >= input.len() * 2"
  forRange input.length (u8ArrayFrom16Array.write input) output

/-! ## The tasks -/

/-- `PLAINKEY`. -/
def plainkey : Vector Byte 16 := array16 [0x2b, 0x7e, 0x15, 0x16, 0x28, 0xae, 0xd2, 0xa6, 0xab,
  0xf7, 0x15, 0x88, 0x09, 0xcf, 0x4f, 0x3c]

/-- `init`, from the configuration of the clocks to the key. The source passes `plainkey`
as `key`. -/
def init (resetScg : Scg.ScgReg → Word) (resetCan : Can.CanReg → Word) (key : Vector Byte 16) :
    Program Unit := do
  -- Configure clocks as required for CAN-FD.
  onScg (Scg.configureSpllClock resetScg)
  -- Initialize ADC and CAN-FD
  onAdc Adc.init
  onCan (Can.init resetCan)
  -- Load plainkey and initialize RNG
  unwrap (← onCsec Csec.initRng)
  unwrap (← onCsec (Csec.loadPlainkey key))

/-- `poll_sensor`, up to the transmission. -/
def pollSensor : Program Unit := do
  let payload := List.replicate 48 0
  let values ← onAdc Adc.read
  let sensorBytes ← u8ArrayFrom16Array values.toList (List.replicate 16 0)
  -- Randomize our initialization vector.
  let initVec ← unwrap (← onCsec Csec.generateRnd)
  let payload ← cloneFromSlice payload 16 32 initVec
  -- Encrypt the sensor data.
  let (result, encrypted) ←
    onCsec (Csec.encryptCbc sensorBytes (array16 initVec) (List.replicate 16 0))
  unwrap result
  let payload ← cloneFromSlice payload 32 48 encrypted
  -- Generate a MAC (Message Authentication Code) for our payload
  let cmac ← unwrap (← onCsec (Csec.generateMac (payload.drop 16)))
  let payload ← cloneFromSlice payload 0 16 cmac
  onCan (Can.transmit payload)

/-- `init`, when `Watchdog::init` and `schedule.poll_sensor` return these results. -/
def initTask (watchdog scheduled : Except Unit Unit) (resetScg : Scg.ScgReg → Word)
    (resetCan : Can.CanReg → Word) (key : Vector Byte 16) : Program Unit := do
  -- Disable watchdog
  unwrap watchdog
  init resetScg resetCan key
  unwrap scheduled

/-- `poll_sensor`, when `schedule.poll_sensor` returns this result. -/
def pollSensorTask (scheduled : Except Unit Unit) : Program Unit := do
  pollSensor
  unwrap scheduled

end App
