import DaredevilSmall.Mmio.Prog
import DaredevilSmall.Mmio.Memory

/-!
# The clock configuration

`configure_spll_clock` of `src/scg.rs`, as a program over the registers of `SCG`.
The reset values of the registers are a parameter: a closure given to `write`
starts from them.
-/

namespace Scg

open Mmio

inductive ScgReg where
  | soscdiv | sosccfg | sosccsr | spllcsr | splldiv | spllcfg | rccr | csr
  deriving DecidableEq, Repr

inductive Site where
  | configureSpllClock
  deriving DecidableEq, Repr

/-- A program of the driver. -/
abbrev Driver := Prog ScgReg Site

/-- `lk().is_1()` of `SOSCCSR` and `SPLLCSR`. -/
def lkIs1 (v : Word) : Bool := getField v 23 1 == 1

/-- `soscvld().is_1()` of `SOSCCSR` and `spllvld().is_1()` of `SPLLCSR`. -/
def vldIs1 (v : Word) : Bool := getField v 24 1 == 1

/-- `csr.scs().bits() != 6`. -/
def scsIsNot6 (v : Word) : Bool := getField v 24 4 != 6

/-- `configure_spll_clock`. -/
def configureSpllClock (reset : ScgReg → Word) : Driver Unit := do
  -- SOSC_init_8Mhz
  writeReg .configureSpllClock .soscdiv (setField (setField (reset .soscdiv) 0 3 0b001) 8 3 0b001)
  writeReg .configureSpllClock .sosccfg
    (setField (setField (setField (reset .sosccfg) 4 2 0b10) 3 1 1) 2 1 1)
  pollReg .configureSpllClock .sosccsr lkIs1 -- Ensure SOSCCSR unlocked
  writeReg .configureSpllClock .sosccsr (setField (reset .sosccsr) 0 1 1)
  pollReg .configureSpllClock .sosccsr vldIs1
  -- SPLL_init_160Mhz
  pollReg .configureSpllClock .spllcsr lkIs1 -- Ensure SPLL unlocked
  writeReg .configureSpllClock .spllcsr (setField (reset .spllcsr) 0 1 0) -- Disable SPLL
  writeReg .configureSpllClock .splldiv (setField (setField (reset .splldiv) 0 3 0b010) 8 3 0b011)
  writeReg .configureSpllClock .spllcfg (setField (reset .spllcfg) 16 5 0b11000) -- factor 40
  pollReg .configureSpllClock .spllcsr lkIs1
  writeReg .configureSpllClock .spllcsr (setField (reset .spllcsr) 0 1 1)
  pollReg .configureSpllClock .spllcsr vldIs1
  -- NormalRUNmode_80Mhz
  modifyReg .configureSpllClock .rccr fun w =>
    setField (setField (setField (setField w 24 4 6) 16 4 0b01) 4 4 0b01) 0 4 0b10
  pollReg .configureSpllClock .csr scsIsNot6 -- wait while clock is changed

end Scg
