import DaredevilSmall.Mmio.Prog
import DaredevilSmall.Mmio.Memory

/-!
# The CAN driver

The functions of `src/can.rs`, under the source's names, as programs over the
registers they access. A closure given to `write` starts from the reset value of
the register. The device crate defines it, so the reset values are a parameter of
`init`.
-/

namespace Can

open Mmio

/-- So that a word of `embedded_ram` can be written as a numeral. -/
instance instNeZeroRam : NeZero 128 := Nat.instNeZeroSucc

/-- The registers of `CAN0`, and those of `PCC`, `PORTE`, `PORTD` and `PTD` that
`CAN::init` sets up. -/
inductive CanReg where
  | pccFlexCan0 | pccPorte | pccPortd | portePcr4 | portePcr5 | portdPcr16 | ptdPddr
  | mcr | ctrl1 | cbt | fdcbt | fdctrl | rxmgmask | ctrl2 | iflag1
  | rximr (n : Fin 16)
  | ram (n : Fin 128)
  deriving DecidableEq, Repr

/-- The driver functions that access a register themselves. -/
inductive Site where
  | init | transmit
  deriving DecidableEq, Repr

/-- A program of the driver. -/
abbrev Driver := Prog CanReg Site

/-! ## Constants -/

def msgBufSize : Nat := 18

/-- The maximum data in bytes that can be sent in a single frame. -/
def maxMsgLength : Nat := 64

/-- The ID word of message buffer 0. -/
def txId : Word := 0x15540000

/-- The word that activates message buffer 0. -/
def txActivate : Word := 0xcc4f0000 ||| (8 <<< 16)

/-! ## The driver -/

/-- `embedded_ram[n]`. -/
def embeddedRam (n : Nat) (f : CanReg → Driver Unit) : Driver Unit :=
  if h : n < 128 then f (.ram ⟨n, h⟩) else .panic .index

/-- `rximr[n]`. -/
def rximr (n : Nat) (f : CanReg → Driver Unit) : Driver Unit :=
  if h : n < 16 then f (.rximr ⟨n, h⟩) else .panic .index

/-- `frzack().is_0()`. -/
def frzackIs0 (v : Word) : Bool := getField v 24 1 == 0

/-- `frzack().is_1()`. -/
def frzackIs1 (v : Word) : Bool := getField v 24 1 == 1

/-- `!notrdy().is_0()`. -/
def notrdyIsNot0 (v : Word) : Bool := !(getField v 27 1 == 0)

/-- The nominal phase, `cbt`. -/
def nominalPhase (w : Word) : Word :=
  let w := setField w 0 5 0b01111 -- epseg2
  let w := setField w 5 5 0b01111 -- epseg1
  let w := setField w 10 6 0b101110 -- epropseg
  let w := setField w 16 5 0b01111 -- erjw
  let w := setField w 21 10 0b0000000001 -- epresdiv
  setField w 31 1 1 -- btf

/-- The data phase, `fdcbt`. -/
def dataPhase (w : Word) : Word :=
  let w := setField w 0 3 0b011 -- fpseg2
  let w := setField w 5 3 0b111 -- fpseg1
  let w := setField w 10 5 0b00111 -- fpropseg
  let w := setField w 16 3 0b011 -- frjw
  setField w 20 10 0b0000000001 -- fpresdiv

/-- `fdctrl`. -/
def fdControl (w : Word) : Word :=
  let w := setField w 8 5 0b11111 -- tdcoff
  let w := setField w 15 1 1 -- tdcen
  let w := setField w 16 2 0b11 -- mbdsr0: 64 bytes per message buffer
  setField w 31 1 1 -- fdrate

/-- `CAN::init`, up to the configuration of both phases. -/
def init.configure (reset : CanReg → Word) : Driver Unit := do
  modifyReg .init .pccFlexCan0 fun w => setField w 30 1 1
  modifyReg .init .mcr fun w => setField w 31 1 1
  modifyReg .init .ctrl1 fun w => setField w 13 1 1
  modifyReg .init .mcr fun w => setField w 31 1 0
  pollReg .init .mcr frzackIs0
  writeReg .init .cbt (nominalPhase (reset .cbt))
  writeReg .init .fdcbt (dataPhase (reset .fdcbt))
  writeReg .init .fdctrl (fdControl (reset .fdctrl))

/-- `CAN::init`, from the filters of the message buffers on. -/
def init.start : Driver Unit := do
  -- init CAN0 16 msg buf filters
  forRange 16 (fun i _ => rximr i fun r => writeReg .init r 0xFFFFFFFF) ()
  -- Global acceptance mask: check all ID bits
  writeReg .init .rxmgmask 0x1FFFFFFF
  -- Message Buffer 4 - receive setup
  embeddedRam (4 * msgBufSize + 0) fun r => modifyReg .init r fun _ => 0xC4000000
  -- Msg buf 4, word 1: standard ID = 0x511
  embeddedRam (4 * msgBufSize + 1) fun r => modifyReg .init r fun _ => 0x14440000
  -- Enable CRC fix for ISO CAN FD
  modifyReg .init .ctrl2 fun w => setField w 12 1 1
  -- Negate FlexCAN 1 halt state & enable CAN FD for 32 MBs
  writeReg .init .mcr 0x0000081F
  -- Wait for FRZACK to clear and module ready
  pollReg .init .mcr frzackIs1
  pollReg .init .mcr notrdyIsNot0
  -- Initialize CAN ports, and light green LED
  modifyReg .init .pccPorte fun w => setField w 30 1 1
  modifyReg .init .portePcr4 fun w => setField w 8 3 0b101
  modifyReg .init .portePcr5 fun w => setField w 8 3 0b101
  modifyReg .init .pccPortd fun w => setField w 30 1 1
  writeReg .init .portdPcr16 0x100
  modifyReg .init .ptdPddr fun _ => 1 <<< 16

/-- `CAN::init`. -/
def init (reset : CanReg → Word) : Driver Unit := do
  init.configure reset
  -- Clear 128 words RAM in module
  forRange 128 (fun i _ => embeddedRam i fun r => writeReg .init r 0) ()
  init.start

/-- The field `data_byte_k` of a RAM word. -/
def dataByte (k : Nat) (byte : Byte) (w : Word) : Word :=
  setField w (24 - 8 * k) 8 (byte.setWidth 32)

/-- One iteration of the loop of `transmit`. -/
def transmit.writeByte (payload : List Byte) (i : Nat) : Driver Unit :=
  if h : i < payload.length then
    embeddedRam (2 + i / 4) fun r =>
      match i % 4 with
      | 0 => modifyReg .transmit r (dataByte 0 payload[i])
      | 1 => modifyReg .transmit r (dataByte 1 payload[i])
      | 2 => modifyReg .transmit r (dataByte 2 payload[i])
      | 3 => modifyReg .transmit r (dataByte 3 payload[i])
      | _ => .panic .unreachable
  else .panic .index

/-- `transmit`. It does not wait until the message has been sent. -/
def transmit (payload : List Byte) : Driver Unit := do
  -- Clear interrupt flag
  writeReg .transmit .iflag1 0x1
  embeddedRam (0 * msgBufSize + 1) fun r => writeReg .transmit r txId
  forRange (min maxMsgLength payload.length) (fun i _ => transmit.writeByte payload i) ()
  -- send frame
  embeddedRam (0 * msgBufSize + 0) fun r => writeReg .transmit r txActivate

/-- Successive calls of `transmit`. -/
def transmits : List (List Byte) → Driver Unit
  | [] => pure ()
  | payload :: payloads => do
    transmit payload
    transmits payloads

end Can
