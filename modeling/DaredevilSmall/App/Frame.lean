import DaredevilSmall.App.System
import DaredevilSmall.Csec.Cbc
import DaredevilSmall.Csec.Mac
import DaredevilSmall.Csec.Commands
import Mathlib.Data.List.Forall2

/-!
# What the application sends

The frame of `poll_sensor`, from the reading of the sensors to the activation of
the message buffer, on the engine `she`, beside a controller with its own
activity and any ADC and clock hardware.

1. `exec_pollSensor`: the payload that `poll_sensor` transmits.
2. `sent_run`: over a run of any length, the frames that are activated.
3. `decodes_payloadOf`: what a receiver with the same key gets from one. So every
   frame decodes as the crate documentation says: `frames_decode`.
-/

namespace App

open Mmio Data SystemLemmas

/-! ## The format of a frame -/

/-- The values one after the other, big-endian. -/
def bigEndian (values : List Halfword) : List Byte :=
  values.flatMap fun v => [Csec.hi v, Csec.lo v]

/-- The sensor data of a frame: the four values, then zeros. -/
def encoded (values : Vector Halfword Adc.channelCount) : List Byte :=
  bigEndian values.toList ++ List.replicate 8 0

/-- `frame[lo..hi]`. -/
def part (frame : List Byte) (lo hi : Nat) : List Byte := (frame.take hi).drop lo

/-- A frame from which a receiver with the same key gets the values. -/
structure Decodes (P : Csec.Primitives) (key : Csec.Block)
    (values : Vector Halfword Adc.channelCount) (frame : List Byte) : Prop where
  length : frame.length = 64
  mac : part frame 0 16 = (P.cmac key (bitsOf (part frame 16 48))).toList
  data : Csec.decryptBytes P key (array16 (part frame 16 32)) (part frame 32 48) = encoded values
  unused : part frame 48 64 = List.replicate 16 0

namespace FrameLemmas

theorem bigEndian_length (values : List Halfword) :
    (bigEndian values).length = 2 * values.length := by
  induction values with
  | nil => rfl
  | cons v values ih =>
    simp only [bigEndian, List.flatMap_cons, List.length_append, List.length_cons,
      List.length_nil] at ih ⊢
    omega

theorem encoded_length (values : Vector Halfword Adc.channelCount) :
    (encoded values).length = 16 := by
  rw [encoded, List.length_append, bigEndian_length, Vector.length_toList]
  rfl

theorem hi_eq (v : Halfword) : ((v &&& 0xff00) >>> 8).setWidth 8 = Csec.hi v := by
  apply BitVec.eq_of_getLsbD_eq
  intro i hi'
  interval_cases i <;> simp [Csec.hi]

theorem lo_eq (v : Halfword) : ((v &&& 0xff) >>> 0).setWidth 8 = Csec.lo v := by
  rw [BitVec.ushiftRight_zero, BitVec.setWidth_and]
  exact BitVec.and_allOnes

@[simp] theorem array16_toList (b : Vector Byte 16) : array16 b.toList = b := by
  apply Vector.ext
  intro i hi
  simp [array16]

theorem cloneFromSlice_append {buf front old back src : List Byte} {lo hi : Nat}
    (hbuf : buf = front ++ (old ++ back)) (hlo : front.length = lo)
    (hhi : front.length + old.length = hi) (hsrc : src.length = old.length) :
    cloneFromSlice buf lo hi src = .done (front ++ (src ++ back)) := by
  subst hbuf hlo hhi
  have hfit : front.length + old.length ≤ (front ++ (old ++ back)).length := by
    simp only [List.length_append]
    omega
  rw [cloneFromSlice, if_pos ⟨Nat.le_add_right _ _, hfit⟩, if_pos (by omega), List.take_left,
    ← List.append_assoc front old, ← List.length_append, List.drop_left, List.append_assoc]
  rfl

/-- The payload of `poll_sensor` as it is filled. -/
theorem cloneFromSlice_payload {iv encrypted cmac : List Byte} (hiv : iv.length = 16)
    (henc : encrypted.length = 16) (hmac : cmac.length = 16) :
    cloneFromSlice (List.replicate 48 0) 16 32 iv =
        .done (List.replicate 16 0 ++ (iv ++ List.replicate 16 0)) ∧
      cloneFromSlice (List.replicate 16 0 ++ (iv ++ List.replicate 16 0)) 32 48 encrypted =
        .done (List.replicate 16 0 ++ (iv ++ encrypted)) ∧
      cloneFromSlice (List.replicate 16 0 ++ (iv ++ encrypted)) 0 16 cmac =
        .done (cmac ++ (iv ++ encrypted)) := by
  refine ⟨?_, ?_, ?_⟩
  · exact cloneFromSlice_append (show List.replicate 48 0 =
      List.replicate 16 0 ++ (List.replicate 16 0 ++ List.replicate 16 0) from rfl) rfl rfl hiv
  · have hbuf : List.replicate 16 0 ++ (iv ++ List.replicate 16 0) =
        (List.replicate 16 0 ++ iv) ++ (List.replicate 16 0 ++ []) := by
      rw [List.append_nil, List.append_assoc]
    rw [cloneFromSlice_append hbuf (by simp [hiv]) (by simp [hiv]) henc, List.append_nil,
      List.append_assoc]
  · exact cloneFromSlice_append (List.nil_append _).symm rfl rfl hmac

/-- One value more takes the place of two bytes. -/
theorem set_value {input : List Halfword} {output : List Byte}
    (hfit : input.length * 2 ≤ output.length) {i : Nat} (hi : i < input.length) :
    ((bigEndian (input.take i) ++ output.drop (i * 2)).set (i * 2) (Csec.hi input[i])).set
        (i * 2 + 1) (Csec.lo input[i]) =
      bigEndian (input.take (i + 1)) ++ output.drop ((i + 1) * 2) := by
  have hlen : (bigEndian (input.take i)).length = i * 2 := by
    rw [bigEndian_length, List.length_take_of_le (Nat.le_of_lt hi), Nat.mul_comm]
  have hdrop : output.drop (i * 2) =
      output[i * 2] :: output[i * 2 + 1] :: output.drop (i * 2 + 2) := by
    rw [List.drop_eq_getElem_cons (by omega), List.drop_eq_getElem_cons (by omega)]
  have htake : bigEndian (input.take (i + 1)) =
      bigEndian (input.take i) ++ [Csec.hi input[i], Csec.lo input[i]] := by
    rw [← List.take_append_getElem hi, bigEndian, List.flatMap_append]
    rfl
  rw [hdrop, htake, List.set_append_right _ _ (by omega), List.set_append_right _ _ (by omega),
    hlen, Nat.sub_self, Nat.add_sub_cancel_left, Nat.succ_mul, List.append_assoc]
  rfl

end FrameLemmas

open FrameLemmas

/-- `u8_array_from_16_array`. -/
theorem u8ArrayFrom16Array_eq {input : List Halfword} {output : List Byte}
    (hfit : input.length * 2 ≤ output.length) :
    u8ArrayFrom16Array input output = pure (bigEndian input ++ output.drop (input.length * 2)) := by
  have hassert : assert (decide (input.length * 2 ≤ output.length))
      "output.len() >= input.len() * 2" = (pure () : Program Unit) := by
    rw [assert, if_pos (decide_eq_true hfit)]
    rfl
  rw [u8ArrayFrom16Array, hassert, Prog.pure_eq, Prog.done_bind]
  refine (forRange_done (fun i => bigEndian (input.take i) ++ output.drop (i * 2))
    fun i hi => ?_).trans ?_
  · rw [u8ArrayFrom16Array.write, dif_pos hi, hi_eq, lo_eq, set_value hfit hi]
    rfl
  · rw [List.take_length]
    rfl

/-- The sensor data of `poll_sensor`. -/
theorem u8ArrayFrom16Array_values (values : Readings) :
    u8ArrayFrom16Array values.toList (List.replicate 16 0) = .done (encoded values) := by
  rw [u8ArrayFrom16Array_eq (by rw [Vector.length_toList]; decide), Vector.length_toList]
  rfl

/-! ## On the engine -/

section

variable {σ κ : Type} {board : Hw BoardReg σ} {P : Csec.Primitives}
  {latency : Csec.She → Csec.Pram → Nat} {can : Hw Can.CanReg κ} {c : Csec.Cse Csec.She}
  {resetScg : Scg.ScgReg → Word} {resetCan : Can.CanReg → Word} {key : Csec.Block}

/-- `init` loads the key. -/
theorem exec_init {s₀ s : σ × Csec.Cse Csec.She × κ} (hidle : s₀.2.1.engine.job = .idle)
    (h : exec (systemHw board (Csec.she P latency) can) (init resetScg resetCan key) s₀ =
      (.done (), s)) :
    s.2.1.engine = ⟨key, s₀.2.1.engine.drawn, .idle⟩ ∧
      exec can (Can.init resetCan) s₀.2.2 = (.done (), s.2.2) := by
  obtain ⟨b, k, hcan, hcsec⟩ := exec_init_csec h
  obtain ⟨c₁, hengine₁, hrng⟩ := Csec.exec_initRng latency P hidle
  obtain ⟨c₂, hengine₂, hload⟩ := Csec.exec_loadPlainkey latency P
    (show c₁.engine.job = .idle by rw [hengine₁]; exact hidle) key
  rw [exec_onCsec_of (congrArg Prod.fst hrng), hrng] at hcsec
  simp only [unwrap, Prog.pure_eq, Prog.done_bind] at hcsec
  rw [exec_onCsec_of (congrArg Prod.fst hload), hload] at hcsec
  obtain ⟨_, rfl⟩ := Prod.mk.inj hcsec
  refine ⟨?_, hcan⟩
  change c₂.engine = _
  rw [hengine₂, hengine₁]
  exact congrArg (Csec.She.mk key s₀.2.1.engine.drawn) hidle

/-- The payload of `poll_sensor`. -/
def payloadOf (P : Csec.Primitives) (key iv : Csec.Block)
    (values : Vector Halfword Adc.channelCount) : List Byte :=
  let encrypted := Csec.encryptBytes P key iv (encoded values)
  (P.cmac key (bitsOf (iv.toList ++ encrypted))).toList ++ (iv.toList ++ encrypted)

/-- The three calls that `poll_sensor` makes to the engine, one after the other. -/
theorem exec_seal (latency : Csec.She → Csec.Pram → Nat) (hidle : c.engine.job = .idle)
    {plaintext : List Byte} (hlen : plaintext.length = 16) {key iv : Csec.Block}
    {encrypted : List Byte} (hkey : c.engine.ramKey = key) (hiv : P.random c.engine.drawn = iv)
    (hencrypted : Csec.encryptBytes P key iv plaintext = encrypted) :
    ∃ c₁ c₂ c₃ : Csec.Cse Csec.She,
      exec (Csec.cseHw (Csec.she P latency)) Csec.generateRnd c = (.done (.ok iv.toList), c₁) ∧
      exec (Csec.cseHw (Csec.she P latency))
        (Csec.encryptCbc plaintext iv (List.replicate 16 0)) c₁ =
          (.done (.ok (), encrypted), c₂) ∧
      exec (Csec.cseHw (Csec.she P latency)) (Csec.generateMac (iv.toList ++ encrypted)) c₂ =
        (.done (.ok (P.cmac key (bitsOf (iv.toList ++ encrypted))).toList), c₃) ∧
      c₃.engine = { c.engine with drawn := c.engine.drawn + 1 } := by
  subst hkey hiv hencrypted
  have hpages : plaintext.length % 16 = 0 := by rw [hlen]
  obtain ⟨c₁, hengine₁, hrnd⟩ := Csec.exec_generateRnd latency P hidle
  obtain ⟨c₂, hengine₂, henc⟩ := Csec.exec_encryptCbc latency P
    (show c₁.engine.job = .idle by rw [hengine₁, hidle]) plaintext (P.random c.engine.drawn)
    (List.replicate 16 0) hpages (by rw [hlen]; decide) (by rw [hlen]; rfl)
  have hkey₁ : c₁.engine.ramKey = c.engine.ramKey := by rw [hengine₁]
  have hmessage : ((P.random c.engine.drawn).toList ++ Csec.encryptBytes P c.engine.ramKey
      (P.random c.engine.drawn) plaintext).length < 8192 := by
    rw [List.length_append, Vector.length_toList, Csec.encryptBytes_length _ _ hpages, hlen]
    decide
  rw [hkey₁] at henc
  obtain ⟨c₃, hengine₃, hmac⟩ := Csec.exec_generateMac_short latency (P := P)
    (show c₂.engine.job = .idle by rw [hengine₂, hengine₁, hidle]) hmessage
  rw [hengine₂, hkey₁] at hmac
  exact ⟨c₁, c₂, c₃, hrnd, henc, hmac, by rw [hengine₃, hengine₂, hengine₁]⟩

/-- `poll_sensor`, up to the call of `transmit`, beside any CAN controller. -/
theorem exec_pollSensor (latency : Csec.She → Csec.Pram → Nat) (can : Hw Can.CanReg κ)
    {b b' : σ} (k : κ) (hidle : c.engine.job = .idle) {values : Readings}
    (hread : execRead board b = (.done values, b')) :
    ∃ c' : Csec.Cse Csec.She, c'.engine = { c.engine with drawn := c.engine.drawn + 1 } ∧
      exec (systemHw board (Csec.she P latency) can) pollSensor (b, c, k) =
        exec (systemHw board (Csec.she P latency) can)
          (onCan (Can.transmit
            (payloadOf P c.engine.ramKey (P.random c.engine.drawn) values))) (b', c', k) := by
  obtain ⟨iv, hiv⟩ : ∃ iv, P.random c.engine.drawn = iv := ⟨_, rfl⟩
  obtain ⟨encrypted, hencrypted⟩ :
      ∃ e, Csec.encryptBytes P c.engine.ramKey iv (encoded values) = e := ⟨_, rfl⟩
  obtain ⟨c₁, c₂, c₃, hrnd, henc, hmac, hengine⟩ := exec_seal latency hidle
    (encoded_length values) rfl hiv hencrypted
  have hadc : exec (systemHw board (Csec.she P latency) can) (onAdc Adc.read) (b, c, k) =
      (.done values, b', c, k) := by
    rw [exec_onAdc_read, hread]
  have henclen : encrypted.length = 16 := by
    rw [← hencrypted, Csec.encryptBytes_length _ _ (by rw [encoded_length]), encoded_length]
  have hmaclen : (P.cmac c.engine.ramKey (bitsOf (iv.toList ++ encrypted))).toList.length = 16 :=
    Vector.length_toList
  have hivlen : iv.toList.length = 16 := Vector.length_toList
  obtain ⟨hfill₁, hfill₂, hfill₃⟩ := cloneFromSlice_payload hivlen henclen hmaclen
  refine ⟨c₃, hengine, ?_⟩
  rw [pollSensor, exec_bind_of _ hadc, u8ArrayFrom16Array_values, Prog.done_bind,
    exec_onCsec_of (congrArg Prod.fst hrnd), hrnd]
  simp only [unwrap, Prog.pure_eq, Prog.done_bind, hfill₁, array16_toList]
  rw [exec_onCsec_of (congrArg Prod.fst henc), henc]
  simp only [Prog.done_bind, hfill₂]
  refine (exec_onCsec_of (p := Csec.generateMac _) (congrArg Prod.fst hmac)).trans ?_
  simp only [Prog.done_bind, hfill₃]
  rw [show (exec (Csec.cseHw (Csec.she P latency)) (Csec.generateMac _) c₂).2 = c₃ from
    congrArg Prod.snd hmac, payloadOf, hiv, hencrypted]

end

/-! ## Decoding -/

theorem payloadOf_length (P : Csec.Primitives) (key iv : Csec.Block)
    (values : Vector Halfword Adc.channelCount) : (payloadOf P key iv values).length = 48 := by
  simp only [payloadOf, List.length_append, Vector.length_toList,
    Csec.encryptBytes_length _ _ (show (encoded values).length % 16 = 0 by rw [encoded_length]),
    encoded_length]

theorem part_eq {frame front mid back : List Byte} {lo hi : Nat}
    (hframe : frame = front ++ (mid ++ back)) (hlo : front.length = lo)
    (hhi : front.length + mid.length = hi) : part frame lo hi = mid := by
  subst hframe hlo hhi
  rw [part, ← List.append_assoc, ← List.length_append, List.take_left, List.drop_left]

/-- A payload with zeros behind it decodes to the values it was made from. -/
theorem decodes_payloadOf (P : Csec.Primitives) (key iv : Csec.Block)
    (values : Vector Halfword Adc.channelCount) :
    Decodes P key values (payloadOf P key iv values ++ List.replicate 16 0) := by
  have hpages : (encoded values).length % 16 = 0 := by rw [encoded_length]
  obtain ⟨encrypted, hencrypted⟩ : ∃ e, e = Csec.encryptBytes P key iv (encoded values) := ⟨_, rfl⟩
  obtain ⟨mac, hmac⟩ : ∃ m, m = (P.cmac key (bitsOf (iv.toList ++ encrypted))).toList := ⟨_, rfl⟩
  have henclen : encrypted.length = 16 := by
    rw [hencrypted, Csec.encryptBytes_length _ _ hpages, encoded_length]
  have hivlen : iv.toList.length = 16 := Vector.length_toList
  have hmaclen : mac.length = 16 := by rw [hmac, Vector.length_toList]
  have hframe : payloadOf P key iv values ++ List.replicate 16 0 =
      mac ++ (iv.toList ++ (encrypted ++ List.replicate 16 0)) := by
    rw [payloadOf, ← hencrypted, ← hmac, List.append_assoc, List.append_assoc]
  have hciphertext : part (payloadOf P key iv values ++ List.replicate 16 0) 32 48 = encrypted :=
    part_eq (hframe.trans (List.append_assoc _ _ _).symm) (by simp [hmaclen, hivlen])
      (by simp [hmaclen, hivlen, henclen])
  have hinitVec : part (payloadOf P key iv values ++ List.replicate 16 0) 16 32 = iv.toList :=
    part_eq hframe hmaclen (by rw [hmaclen, hivlen])
  have hsigned : part (payloadOf P key iv values ++ List.replicate 16 0) 16 48 =
      iv.toList ++ encrypted :=
    part_eq (hframe.trans (by rw [List.append_assoc])) hmaclen
      (by simp [hmaclen, hivlen, henclen])
  constructor
  · rw [List.length_append, payloadOf_length]
    rfl
  · rw [hsigned, ← hmac]
    exact part_eq (hframe.trans (List.nil_append _).symm) rfl (by simp [hmaclen])
  · rw [hciphertext, hinitVec, array16_toList, hencrypted,
      Csec.decryptBytes_encryptBytes _ _ hpages]
  · have hlast : payloadOf P key iv values ++ List.replicate 16 0 =
        payloadOf P key iv values ++ (List.replicate 16 0 ++ []) := by rw [List.append_nil]
    exact part_eq hlast (payloadOf_length P key iv values) (by rw [payloadOf_length]; rfl)

/-! ## Runs -/

/-- The frame that carries the values, with the block that the random number
generator had drawn at `drawn`. -/
def frameOf (P : Csec.Primitives) (key : Csec.Block) (drawn : Nat) (values : Readings) :
    List Byte :=
  payloadOf P key (P.random drawn) values ++ List.replicate 16 0

section

variable {σ : Type} {board : Hw BoardReg σ} {P : Csec.Primitives}
  {latency : Csec.She → Csec.Pram → Nat} {a : Can.Activity} {resetScg : Scg.ScgReg → Word}
  {resetCan : Can.CanReg → Word} {key : Csec.Block} {drawn : Nat} {readings : List Readings}
  {s₀ s s' : AppState σ}

/-- Between two calls of `poll_sensor`, since the engine had drawn `drawn` blocks. -/
structure Sent (P : Csec.Primitives) (key : Csec.Block) (drawn : Nat) (readings : List Readings)
    (s : AppState σ) : Prop where
  engine : s.2.1.engine = ⟨key, drawn + readings.length, .idle⟩
  unused : s.2.2.2.data.drop 48 = List.replicate 16 0
  frames : s.2.2.2.activated = readings.mapIdx fun i values => frameOf P key (drawn + i) values

theorem sent_init (hidle : s₀.2.1.engine.job = .idle) (hnone : s₀.2.2.2.activated = [])
    (h : exec (appHw board P latency a) (init resetScg resetCan key) s₀ = (.done (), s)) :
    Sent P key s₀.2.1.engine.drawn [] s := by
  obtain ⟨hengine, hcan⟩ := exec_init hidle h
  obtain ⟨hdata, hactivated⟩ := Can.exec_init resetCan hnone hcan
  refine ⟨hengine, ?_, hactivated⟩
  rw [hdata, List.drop_replicate]

theorem sent_poll (hsent : Sent P key drawn readings s) {b : σ} {values : Readings}
    (hread : execRead board s.1 = (.done values, b))
    (h : exec (appHw board P latency a) pollSensor s = (.done (), s')) :
    Sent P key drawn (readings ++ [values]) s' := by
  obtain ⟨b₀, c, k⟩ := s
  have hengine₀ : c.engine = ⟨key, drawn + readings.length, .idle⟩ := hsent.engine
  obtain ⟨c', hengine, hpoll⟩ := exec_pollSensor (P := P) latency a.hw k (by rw [hengine₀]) hread
  rw [hpoll, hengine₀, exec_onCan] at h
  obtain ⟨hdone, rfl⟩ := Prod.mk.inj h
  obtain ⟨hdata, hlog⟩ := Can.exec_transmit (exec_eq_done _ hdone)
  have hlen := payloadOf_length P key (P.random (drawn + readings.length)) values
  have hmin : min Can.maxMsgLength
      (payloadOf P key (P.random (drawn + readings.length)) values).length = 48 := by
    rw [hlen]
    rfl
  rw [hmin, hsent.unused, List.take_of_length_le (by rw [hlen]; decide)] at hdata
  constructor
  · rw [hengine, hengine₀, List.length_append]
    rfl
  · rw [hdata, ← hlen, List.drop_left]
  · rw [hlog, hdata, hsent.frames, List.mapIdx_concat]
    rfl

theorem sent_run (hidle : s₀.2.1.engine.job = .idle) (hnone : s₀.2.2.2.activated = [])
    (h : AppRun board P latency a resetScg resetCan key s₀ s readings) :
    Sent P key s₀.2.1.engine.drawn readings s := by
  induction h with
  | init h => exact sent_init hidle hnone h
  | poll _ hread h ih => exact sent_poll ih hread h

end

/-- For every run of `init` and then of `poll_sensor` any number of times, for
every key, every content of PRAM and of the CAN RAM, any ADC and clock hardware
and any activity of the controller: `transmit` has activated one frame for each
`poll_sensor`, and it decodes to the values that `ADC::read` returned there. -/
theorem frames_decode {σ : Type} (board : Hw BoardReg σ) (P : Csec.Primitives)
    (latency : Csec.She → Csec.Pram → Nat) (a : Can.Activity) (resetScg : Scg.ScgReg → Word)
    (resetCan : Can.CanReg → Word) (key : Csec.Block) (s₀ s : AppState σ)
    (hidle : s₀.2.1.engine.job = .idle) (hnone : s₀.2.2.2.activated = [])
    (readings : List (Vector Halfword Adc.channelCount))
    (h : AppRun board P latency a resetScg resetCan key s₀ s readings) :
    List.Forall₂ (Decodes P key) readings s.2.2.2.activated := by
  rw [(sent_run hidle hnone h).frames, List.forall₂_iff_get]
  refine ⟨List.length_mapIdx.symm, fun i hi hi' => ?_⟩
  rw [List.get_eq_getElem, List.get_eq_getElem, List.getElem_mapIdx]
  exact decodes_payloadOf P key _ _

/-! ## An example -/

/-- Clocks that are ready, and an ADC whose samples become larger from one to the next. -/
def sampleBoard : Hw BoardReg Nat where
  read
    | .inl .ra, n => (BitVec.ofNat 32 (0x100 + 0x11 * n), n + 1)
    | .inl _, n => (0, n)
    | .inr .csr, n => (6 <<< 24, n)
    | .inr _, n => (0, n)
  write _ _ n := n
  patience _ _ := 0

/-- What `ADC::read` returns when it starts with sample `n`. -/
def sampleReadings (n : Nat) : Readings :=
  Vector.ofFn fun i => Adc.scale (BitVec.ofNat 32 (0x100 + 0x11 * (n + i)))

/-- A controller that acknowledges freeze mode when it is entered and left. -/
def sampleActivity : Can.Activity where
  step n s := { s with regs := Function.update s.regs .mcr (if n ≤ 8 then 1 <<< 24 else 0) }
  patience := 0
  leaves _ _ := ⟨fun _ _ _ => rfl, rfl⟩

section

variable {ε : Type} (E : Csec.Engine ε) (e : ε)

def sampleHw : Hw AppReg (Nat × Csec.Cse ε × Nat × Can.Controller) :=
  systemHw sampleBoard E sampleActivity.hw

/-- After a reset. -/
def sampleState : Nat × Csec.Cse ε × Nat × Can.Controller :=
  (0, Csec.Cse.reset e, 0, Can.Controller.reset)

/-- After `init` and so many calls of `poll_sensor`. -/
def sampleAfter : Nat → Nat × Csec.Cse ε × Nat × Can.Controller
  | 0 => (exec (sampleHw E) (init (fun _ => 0) (fun _ => 0) plainkey) (sampleState e)).2
  | n + 1 => (exec (sampleHw E) pollSensor (sampleAfter n)).2

variable {E e}

theorem sample_init
    (h : (exec (sampleHw E) (init (fun _ => 0) (fun _ => 0) plainkey) (sampleState e)).1 =
      .done ()) :
    SystemRun sampleBoard E sampleActivity.hw (fun _ => 0) (fun _ => 0) plainkey (sampleState e)
      (sampleAfter E e 0) [] :=
  .init (exec_eq_done _ h)

theorem sample_poll {n : Nat} {readings : List Readings} {values : Readings}
    (hrun : SystemRun sampleBoard E sampleActivity.hw (fun _ => 0) (fun _ => 0) plainkey
      (sampleState e) (sampleAfter E e n) readings)
    (hread : (execRead sampleBoard (sampleAfter E e n).1).1 = .done values)
    (h : (exec (sampleHw E) pollSensor (sampleAfter E e n)).1 = .done ()) :
    SystemRun sampleBoard E sampleActivity.hw (fun _ => 0) (fun _ => 0) plainkey (sampleState e)
      (sampleAfter E e (n + 1)) (readings ++ [values]) :=
  hrun.poll (exec_eq_done _ hread) (exec_eq_done _ h)

theorem sample_last (E : Csec.Engine ε) (e : ε) (n : Nat) :
    exec (systemHw sampleBoard E sampleActivity.hw) pollSensor (sampleAfter E e n) =
      ((exec (sampleHw E) pollSensor (sampleAfter E e n)).1, sampleAfter E e (n + 1)) :=
  rfl

-- it is evaluated by the kernel only
attribute [irreducible] sampleAfter

end

def sampleEngine : Csec.Engine Csec.She := Csec.she .sample fun _ _ => 3

/-- Two calls of `poll_sensor`, with different readings. -/
theorem appRun_sample :
    AppRun sampleBoard .sample (fun _ _ => 3) sampleActivity (fun _ => 0) (fun _ => 0) plainkey
      (sampleState Csec.She.sample) (sampleAfter sampleEngine Csec.She.sample 2)
      [sampleReadings 0, sampleReadings 4] := by
  have hread₀ : (execRead sampleBoard (sampleAfter sampleEngine Csec.She.sample 0).1).1 =
      .done (sampleReadings 0) := by
    decide +kernel
  have hread₁ : (execRead sampleBoard (sampleAfter sampleEngine Csec.She.sample 1).1).1 =
      .done (sampleReadings 4) := by
    decide +kernel
  have hinit := sample_init (E := sampleEngine) (e := Csec.She.sample) (by decide +kernel)
  have hpoll := sample_poll hinit hread₀ (by decide +kernel)
  exact sample_poll hpoll hread₁ (by decide +kernel)

/-- What the two frames say. -/
theorem frames_decode_sample :
    List.Forall₂ (Decodes .sample plainkey) [sampleReadings 0, sampleReadings 4]
      (sampleAfter sampleEngine Csec.She.sample 2).2.2.2.activated :=
  frames_decode _ _ _ _ _ _ _ _ _ rfl rfl _ appRun_sample

end App
