import DaredevilSmall.Can.Driver
import DaredevilSmall.Mmio.Interleave

/-!
# Message buffer 0

The CAN controller beside the driver. Of its RAM the driver uses message buffer
0 to send: word 0 with the `CODE` field, word 1 with the ID, and the 64 data
bytes in words 2 to 17. `canHw` is what the CPU sees of it; `Sends` is the
controller taking the frame of an active buffer.

Ghost fields log the data bytes at every activation (`activated`) and the frames
put on the bus (`frames`), and count the writes to data words since the ID was
last written (`copied`).

`writeByte_eq` and `data_store_dataByte` say what one iteration of `transmit`
does to the data bytes.
-/

namespace Can

open Mmio

/-- A frame: the ID word and the data bytes of the buffer it was taken from. -/
structure Frame where
  id : Word
  data : List Byte
  deriving DecidableEq, Repr

/-- The state of the controller. -/
structure Controller where
  ram : Fin 128 → Word
  regs : CanReg → Word
  activated : List (List Byte)
  frames : List Frame
  copied : Nat

namespace Controller

/-- The controller with RAM cleared, before any frame. -/
def reset : Controller := ⟨fun _ => 0, fun _ => 0, [], [], 0⟩

/-- The data bytes of message buffer 0. -/
def data (s : Controller) : List Byte := slice s.ram 8 64

/-- The field `CODE` of message buffer 0. -/
def code (s : Controller) : Word := getField (s.ram 0) 24 4

/-- The code of an active buffer. -/
def active : Word := 0xC

/-- A write of `v` to word `n` of the RAM. -/
def store (s : Controller) (n : Fin 128) (v : Word) : Controller :=
  let ram := Function.update s.ram n v
  { s with
    ram := ram
    copied := if n = 1 then 0 else if 2 ≤ n ∧ n < 18 then s.copied + 1 else s.copied
    activated := if n = 0 ∧ getField v 24 4 = active then s.activated ++ [slice ram 8 64]
      else s.activated }

/-- The controller takes the frame of message buffer 0 and sets `CODE` to
inactive. -/
def send (s : Controller) : Controller :=
  { s with
    ram := Function.update s.ram 0 (setField (s.ram 0) 24 4 8)
    frames := s.frames ++ [⟨s.ram 1, s.data⟩] }

end Controller

/-- The controller as a peripheral with registers. -/
def canHw : Hw CanReg Controller where
  read
    | .ram n, s => (s.ram n, s)
    | r, s => (s.regs r, s)
  write
    | .ram n, v, s => s.store n v
    | r, v, s => { s with regs := Function.update s.regs r v }
  patience _ _ := 0

/-- The controller puts the frame of an active buffer on the bus. -/
inductive Sends : Controller → Controller → Prop
  | mk {s : Controller} : s.code = Controller.active → Sends s s.send

/-- One iteration of the loop of `transmit`. -/
theorem writeByte_eq {payload : List Byte} {i : Nat} (hi : i < payload.length)
    (hword : 2 + i / 4 < 128) :
    transmit.writeByte payload i =
      modifyReg .transmit (.ram ⟨2 + i / 4, hword⟩) (dataByte (i % 4) payload[i]) := by
  rw [transmit.writeByte, dif_pos hi, embeddedRam, dif_pos hword]
  rcases (by omega : i % 4 = 0 ∨ i % 4 = 1 ∨ i % 4 = 2 ∨ i % 4 = 3) with h | h | h | h
  all_goals
    rw [h]
    rfl

namespace Controller

variable (s : Controller)

@[simp] theorem store_ram_self (n : Fin 128) (v : Word) : (s.store n v).ram n = v := by
  simp only [store, Function.update_self]

theorem store_ram {n w : Fin 128} (h : w ≠ n) (v : Word) : (s.store n v).ram w = s.ram w := by
  simp only [store, Function.update_of_ne h]

theorem store_copied {n : Fin 128} (hlo : 2 ≤ n) (hhi : n < 18) (v : Word) :
    (s.store n v).copied = s.copied + 1 := by
  have hne : n ≠ 1 := by
    rintro rfl
    exact absurd hlo (by decide)
  simp only [store, if_neg hne, if_pos (And.intro hlo hhi)]

theorem send_ram {n : Fin 128} (h : n ≠ 0) : s.send.ram n = s.ram n :=
  Function.update_of_ne h _ s.ram

@[simp] theorem data_length : s.data.length = 64 := slice_length _ _ _

/-- The data bytes depend on words 2 to 17 only. -/
theorem data_congr {s s' : Controller}
    (h : ∀ n : Fin 128, 2 ≤ n → n < 18 → s'.ram n = s.ram n) : s'.data = s.data := by
  apply slice_congr
  intro j hj
  have hword : (8 + j) / 4 < 128 := by omega
  simp only [byteAt, hword, dif_pos]
  rw [h ⟨(8 + j) / 4, hword⟩ (Fin.le_def.mpr (by simp; omega)) (Fin.lt_def.mpr (by simp; omega))]

theorem data_store {n : Fin 128} (hn : n < 2 ∨ 18 ≤ n) (v : Word) :
    (s.store n v).data = s.data := by
  refine data_congr fun w hlo hhi => s.store_ram ?_ v
  rintro rfl
  rcases hn with h | h
  · exact absurd hlo (Fin.not_le.mpr h)
  · exact absurd hhi (Fin.not_lt.mpr h)

@[simp] theorem data_send : s.send.data = s.data := by
  refine data_congr fun w hlo _ => s.send_ram ?_
  rintro rfl
  exact absurd hlo (by decide)

theorem code_send : s.send.code ≠ active := by
  have hcode : s.send.code = 8 := by
    simp only [code, send, Function.update_self]
    exact getField_setField _ _ (by decide)
  rw [hcode]
  decide

theorem code_store {n : Fin 128} (hn : n ≠ 0) (v : Word) : (s.store n v).code = s.code := by
  simp only [code, store, Function.update_of_ne hn.symm]

/-- Writing data byte `i`. -/
theorem data_store_dataByte {i : Nat} (hword : 2 + i / 4 < 128) (b : Byte) :
    (s.store ⟨2 + i / 4, hword⟩ (dataByte (i % 4) b (s.ram ⟨2 + i / 4, hword⟩))).data =
      s.data.set i b := by
  have hoff : 2 + i / 4 = (8 + i) / 4 := by omega
  have hlane : i % 4 = (8 + i) % 4 := by omega
  apply List.ext_getElem (by simp)
  intro j h₁ h₂
  rw [data_length] at h₁
  simp only [data, store, dataByte, hoff, hlane]
  rw [List.getElem_set, slice_getElem, slice_getElem, byteAt_update_setField _ _ _ _]
  by_cases hji : i = j
  · rw [if_pos (by omega), if_pos hji]
  · rw [if_neg (by omega), if_neg hji]

end Controller

end Can
