import DaredevilSmall.Can.Mailbox

/-!
# The data bytes at an activation

At the write that activates message buffer 0 its data bytes are the payload, and
behind it what was there before. Nothing writes the bytes behind the payload but
the clearing of the RAM in `CAN::init`.

`Activity` is what the controller may do on its own meanwhile: anything that
leaves the data words of the buffer alone, `Sends` included.

1. `exec_init`: after `CAN::init` the data bytes are all zero.
2. `exec_transmit`: what `transmit` activates.
-/

namespace Can

open Mmio

/-- A move of the controller that leaves the data words of message buffer 0
alone. -/
def Leaves (s s' : Controller) : Prop :=
  (∀ n : Fin 128, 2 ≤ n → n < 18 → s'.ram n = s.ram n) ∧ s'.activated = s.activated

/-- What the controller does on its own: its move in front of each access, and
how long a busy-wait may take. -/
structure Activity where
  step : Nat → Controller → Controller
  patience : Nat
  leaves : ∀ n s, Leaves s (step n s)

/-- The controller with its own activity. -/
def Activity.hw (a : Activity) : Hw CanReg (Nat × Controller) := canHw.driven a.step a.patience

/-- The data bytes and the activations so far. -/
def holding (data : List Byte) (log : List (List Byte)) : Assertion Leaves fun _ => True where
  holds s := s.data = data ∧ s.activated = log
  stable := by
    rintro s s' ⟨hram, hactivated⟩ ⟨hdata, hlog⟩
    exact ⟨(Controller.data_congr hram).trans hdata, hactivated.trans hlog⟩
  safe _ _ := trivial

/-- `holding`, where having activated what is in `log` is `safe`. -/
def holdingWith {safe : Controller → Prop} (data : List Byte) (log : List (List Byte))
    (hsafe : ∀ s : Controller, s.activated = log → safe s) : Assertion Leaves safe where
  holds := (holding data log).holds
  stable := (holding data log).stable
  safe s hs := hsafe s hs.2

/-- The data words below word `i` are cleared. -/
def cleared (i : Nat) : Assertion Leaves fun _ => True where
  holds s := (∀ n : Fin 128, 2 ≤ n → n < 18 → n < i → s.ram n = 0) ∧ s.activated = []
  stable := by
    rintro s s' ⟨hram, hactivated⟩ ⟨hzero, hnone⟩
    refine ⟨fun n hlo hhi hi => ?_, hactivated.trans hnone⟩
    exact (hram n hlo hhi).trans (hzero n hlo hhi hi)
  safe _ _ := trivial

/-- The registers of `CAN::init` other than the RAM it clears. -/
def Beside (r : CanReg) : Prop := ∀ n, r = .ram n → 18 ≤ n

namespace ActivationLemmas

theorem within_configure (reset : CanReg → Word) : (init.configure reset).Within Beside := by
  simp [init.configure, modifyReg, pollReg, writeReg, Prog.Within, Beside]

theorem within_filters : (forRange 16
    (fun i _ => rximr i fun r => writeReg Site.init r 0xFFFFFFFF) ()).Within Beside := by
  apply within_forRange
  intro i hi _
  simp [rximr, hi, writeReg, Prog.Within, Beside]

theorem within_start : init.start.Within Beside := by
  refine within_filters.bind fun _ => ?_
  simp [embeddedRam, msgBufSize, modifyReg, pollReg, writeReg, Prog.Within, Beside]

theorem read_state (r : CanReg) (s : Controller) : (canHw.read r s).2 = s := by
  cases r <;> rfl

/-- For the data words, a write beside them is a move of the controller. -/
theorem leaves_write {r : CanReg} (h : Beside r) (v : Word) (s : Controller) :
    Leaves s (canHw.write r v s) := by
  cases r with
  | ram n =>
    have hlo : 18 ≤ n := h n rfl
    have hne : n ≠ 0 := by
      rintro rfl
      exact absurd hlo (by decide)
    refine ⟨fun w _ hhi => s.store_ram (Fin.ne_of_lt (Fin.lt_of_lt_of_le hhi hlo)) v, ?_⟩
    simp only [canHw, Controller.store, hne, false_and, if_false]
  | _ => exact ⟨fun _ _ _ => rfl, rfl⟩

theorem outline_beside {p : Driver Unit} (h : p.Within Beside)
    (A : Assertion Leaves fun _ => True) : Outline canHw (fun _ => A) A p :=
  Outline.frame h (fun r s _ hs => (congrArg A.holds (read_state r s)).mpr hs)
    fun _ v s hr hs => A.stable _ _ (leaves_write hr v s) hs

theorem cleared_store {i : Nat} (hi : i < 128) {s : Controller} (h : (cleared i).holds s) :
    (cleared (i + 1)).holds (s.store ⟨i, hi⟩ 0) := by
  obtain ⟨hzero, hnone⟩ := h
  refine ⟨fun n hlo hhi hn => ?_, ?_⟩
  · by_cases hni : n = ⟨i, hi⟩
    · rw [hni, s.store_ram_self]
    · have hlt : (n : Nat) < i :=
        Nat.lt_of_le_of_ne (Nat.le_of_lt_succ hn) fun h => hni (Fin.ext h)
      rw [s.store_ram hni]
      exact hzero n hlo hhi hlt
  · have hidle : ¬ ((⟨i, hi⟩ : Fin 128) = 0 ∧ getField 0 24 4 = Controller.active) := by
      rintro ⟨_, hactive⟩
      exact absurd hactive (by decide)
    simp only [Controller.store, if_neg hidle, hnone]

theorem holding_of_cleared {s : Controller} (h : (cleared 128).holds s) :
    (holding (List.replicate 64 0) []).holds s := by
  have hdata : s.data = Controller.reset.data :=
    Controller.data_congr fun n hlo hhi => h.1 n hlo hhi n.isLt
  exact ⟨hdata.trans (by decide), h.2⟩

end ActivationLemmas

open ActivationLemmas

/-- `CAN::init`. -/
theorem init_outline (reset : CanReg → Word) :
    Outline canHw (fun _ => holding (List.replicate 64 0) []) (cleared 0) (init reset) := by
  refine (outline_beside (within_configure reset) _).bind fun _ => ?_
  refine (Outline.forRange (fun i _ => cleared i) fun i hi _ => ?_).bind fun _ => ?_
  · rw [embeddedRam, dif_pos hi]
    exact .write _ (fun s hs => cleared_store hi hs) (.done fun s hs => hs)
  · exact (outline_beside within_start _).strengthen fun s hs => holding_of_cleared hs

/-! ## One call of `transmit` -/

namespace ActivationLemmas

variable {payload data : List Byte} {log : List (List Byte)}

/-- One more byte of the payload takes the place of what was there before. -/
theorem set_overlay {i : Nat} (hpos : i < payload.length) (hi : i < data.length) :
    (payload.take i ++ data.drop i).set i payload[i] =
      payload.take (i + 1) ++ data.drop (i + 1) := by
  have hlen : (payload.take i).length = i := List.length_take_of_le (Nat.le_of_lt hpos)
  rw [List.set_append_right _ _ (Nat.le_of_eq hlen), hlen, Nat.sub_self,
    List.drop_eq_getElem_cons hi, List.set_cons_zero, ← List.take_append_getElem hpos,
    List.append_assoc, List.singleton_append]

theorem holding_store_byte {i : Nat} (hlen : data.length = 64) (hlt : i < 64)
    (hpos : i < payload.length) (hword : 2 + i / 4 < 128) {s : Controller}
    (h : (holding (payload.take i ++ data.drop i) log).holds s) :
    (holding (payload.take (i + 1) ++ data.drop (i + 1)) log).holds
      (s.store ⟨2 + i / 4, hword⟩ (dataByte (i % 4) payload[i] (s.ram ⟨2 + i / 4, hword⟩))) := by
  obtain ⟨hdata, hlog⟩ := h
  refine ⟨?_, ?_⟩
  · rw [s.data_store_dataByte hword, hdata, set_overlay hpos (hlen.symm ▸ hlt)]
  · have hne : (⟨2 + i / 4, hword⟩ : Fin 128) ≠ 0 := fun h =>
      absurd (Fin.val_eq_of_eq h) (by simp)
    simp only [Controller.store, hne, false_and, if_false, hlog]

theorem holding_writeByte {i : Nat} (hlen : data.length = 64) (hlt : i < 64)
    (hpos : i < payload.length) {safe : Controller → Prop}
    (hsafe : ∀ s : Controller, s.activated = log → safe s) :
    Outline canHw (fun _ => holdingWith (payload.take (i + 1) ++ data.drop (i + 1)) log hsafe)
      (holdingWith (payload.take i ++ data.drop i) log hsafe) (transmit.writeByte payload i) := by
  have hword : 2 + i / 4 < 128 := by omega
  rw [writeByte_eq hpos hword]
  refine .read (fun v => (holdingWith (payload.take i ++ data.drop i) log hsafe).and
    (fun s => s.ram ⟨2 + i / 4, hword⟩ = v) ?_) (fun s hs => ⟨hs, rfl⟩) fun v => ?_
  · rintro s s' ⟨hram, _⟩ hv
    have hlo : 2 ≤ (⟨2 + i / 4, hword⟩ : Fin 128) := Fin.le_def.mpr (Nat.le_add_right 2 _)
    have hhi : (⟨2 + i / 4, hword⟩ : Fin 128) < 18 := Fin.lt_def.mpr (by simp; omega)
    exact (hram _ hlo hhi).trans hv
  refine .write _ ?_ (.done fun s hs => hs)
  rintro s ⟨hs, rfl⟩
  exact holding_store_byte hlen hlt hpos hword hs

theorem holding_store_activate {s : Controller} (h : (holding data log).holds s) :
    (holding data (log ++ [data])).holds (s.store 0 txActivate) := by
  obtain ⟨hdata, hlog⟩ := h
  have hsame := s.data_store (n := 0) (Or.inl (by decide)) txActivate
  refine ⟨hsame.trans hdata, ?_⟩
  have hactive : getField txActivate 24 4 = Controller.active := by decide
  have hdata' : slice (Function.update s.ram 0 txActivate) 8 64 = data := hsame.trans hdata
  simp only [Controller.store, hactive, and_self, if_true, hlog, hdata']

end ActivationLemmas

/-- What a buffer that holds `data` holds after a call with `payload`. -/
def overlay (data payload : List Byte) : List Byte :=
  payload.take maxMsgLength ++ data.drop (min maxMsgLength payload.length)

/-- One call of `transmit`, on a buffer that holds `data`. -/
theorem transmit_activatesWith {payload data : List Byte} (hlen : data.length = 64)
    {log : List (List Byte)} {safe : Controller → Prop}
    (hsafe : ∀ s : Controller, s.activated = log → safe s)
    (hsafe' : ∀ s : Controller, s.activated = log ++ [overlay data payload] → safe s) :
    Outline canHw
      (fun _ => holdingWith (overlay data payload) (log ++ [overlay data payload]) hsafe')
      (holdingWith data log hsafe) (transmit payload) := by
  have htake : payload.take (min maxMsgLength payload.length) = payload.take maxMsgLength := by
    rw [← List.take_take, List.take_length]
  refine .write (holdingWith data log hsafe) (fun s hs => hs) ?_
  refine .write (holdingWith (payload.take 0 ++ data.drop 0) log hsafe) ?_ ?_
  · rintro s ⟨hdata, hlog⟩
    exact ⟨(s.data_store (n := 1) (Or.inl (by decide)) txId).trans hdata, hlog⟩
  refine (Outline.forRange
    (fun i _ => holdingWith (payload.take i ++ data.drop i) log hsafe)
    fun i hi _ => ?_).bind fun _ => ?_
  · exact holding_writeByte hlen (Nat.lt_of_lt_of_le hi (Nat.min_le_left _ _))
      (Nat.lt_of_lt_of_le hi (Nat.min_le_right _ _)) hsafe
  · rw [htake]
    exact .write _ (fun s hs => holding_store_activate hs) (.done fun s hs => hs)

theorem transmit_activates {payload data : List Byte} (hlen : data.length = 64)
    (log : List (List Byte)) :
    Outline canHw
      (fun _ => holding (payload.take maxMsgLength ++ data.drop (min maxMsgLength payload.length))
        (log ++ [payload.take maxMsgLength ++ data.drop (min maxMsgLength payload.length)]))
      (holding data log) (transmit payload) :=
  transmit_activatesWith hlen (fun _ _ => trivial) fun _ _ => trivial

/-! ## On a controller with its own activity -/

variable {a : Activity} {c c' : Nat × Controller}

/-- `CAN::init` leaves the data bytes cleared and activates nothing. -/
theorem exec_init (reset : CanReg → Word) (hnone : c.2.activated = [])
    (h : exec a.hw (init reset) c = (.done (), c')) :
    c'.2.data = List.replicate 64 0 ∧ c'.2.activated = [] :=
  (init_outline reset).exec_driven a.leaves ⟨fun _ _ _ hn => absurd hn (Nat.not_lt_zero _), hnone⟩ h

/-- `transmit` activates its payload, and behind it what was there before. -/
theorem exec_transmit {payload : List Byte} (h : exec a.hw (transmit payload) c = (.done (), c')) :
    c'.2.data = payload.take maxMsgLength ++ c.2.data.drop (min maxMsgLength payload.length) ∧
      c'.2.activated = c.2.activated ++ [c'.2.data] := by
  obtain ⟨hdata, hlog⟩ := (transmit_activates c.2.data_length c.2.activated).exec_driven a.leaves
    ⟨rfl, rfl⟩ h
  exact ⟨hdata, hdata.symm ▸ hlog⟩

end Can
