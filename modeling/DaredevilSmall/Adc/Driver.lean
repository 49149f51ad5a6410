import DaredevilSmall.Mmio.Prog
import DaredevilSmall.Mmio.Memory

/-!
# The ADC driver

The functions of `src/adc.rs`, under the source's names, as programs over the
registers they access. `as f32` and `as u16` are modelled on the exact
significand: `scale` is the value that the source computes in single precision.
-/

namespace Adc

open Mmio

/-- `PCC_ADC0`, and the registers of `ADC0`. -/
inductive AdcReg where
  | pccAdc0 | sc1a | cfg1 | cfg2 | sc2 | sc3 | ra
  deriving DecidableEq, Repr

/-- The driver functions that access a register themselves. -/
inductive Site where
  | init | readAdc
  deriving DecidableEq, Repr

/-- A program of the driver. -/
abbrev Driver := Prog AdcReg Site

/-! ## Constants -/

/-- ADC0_SE15 -/
def ptc17 : Byte := 15

/-- ADC0_SE14 -/
def ptc16 : Byte := 14

/-- ADC0_SE13 -/
def ptc15 : Byte := 13

/-- ADC0_SE9 -/
def ptc1 : Byte := 9

def channelCount : Nat := 4

def channels : Vector Byte channelCount := #v[ptc17, ptc16, ptc15, ptc1]

/-- `MW_SCALAR`, the single-precision number `12.6 / 4.0`, in units of `2 ^ -22`. -/
def mwScalar : Nat := 13212058

/-! ## Scaling -/

/-- Round to the 24 significant bits of a single-precision number, ties to even. -/
def roundSingle (n : Nat) : Nat :=
  let drop := n.log2 + 1 - 24
  let kept := n >>> drop
  let lost := n % 2 ^ drop
  let up := 2 ^ drop < 2 * lost ∨ (2 * lost = 2 ^ drop ∧ kept % 2 = 1)
  (if up then kept + 1 else kept) <<< drop

/-- `((ra as f32) * MW_SCALAR) as u16`. The last cast drops the fraction and
saturates. -/
def scale (ra : Word) : Halfword :=
  let product := roundSingle (roundSingle ra.toNat * mwScalar)
  BitVec.ofNat 16 (min (product >>> 22) 65535)

/-! ## The driver -/

/-- `ADC::init`. -/
def init : Driver Unit := do
  modifyReg .init .pccAdc0 fun w => setField w 30 1 0 -- Disable clock
  modifyReg .init .pccAdc0 fun w => setField w 24 3 0b001 -- PCS=1
  modifyReg .init .pccAdc0 fun w => setField w 30 1 1 -- Enable Clock
  writeReg .init .sc1a 0x1F -- ADCH=1F
  writeReg .init .cfg1 0x4 -- ADICLK=0
  writeReg .init .cfg2 0xC -- SMPLTS=12 (default)
  writeReg .init .sc2 0x0 -- ADTRG=0
  writeReg .init .sc3 0x0 -- CAL=0

/-- `coco().bit_is_set()`. -/
def cocoIsSet (v : Word) : Bool := getField v 7 1 == 1

/-- `read_adc`. -/
def readAdc (channel : Nat) : Driver Halfword := do
  -- Required software trigger to read from ADC channel.
  modifyReg .readAdc .sc1a fun w => setField w 0 5 0b00000
  if h : channel < channelCount then do
    writeReg .readAdc .sc1a (channels[channel].setWidth 32)
    pollReg .readAdc .sc1a cocoIsSet -- wait for conversion
    let ra ← readReg .readAdc .ra
    pure (scale ra)
  else .panic .index

/-- `utils::sleep`: a loop of compiler fences. It accesses no register. -/
def sleep (_i : Nat) : Driver Unit := pure ()

/-- `read`: the values of all four sensors. -/
def read : Driver (Vector Halfword channelCount) :=
  forRange channelCount (fun i sensorValues => do
    let value ← readAdc i
    sleep 10
    pure (sensorValues.setIfInBounds i value)) (Vector.replicate channelCount 0)

end Adc
