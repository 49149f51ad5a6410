import DaredevilSmall.App.FailStop
import DaredevilSmall.App.Safety
import DaredevilSmall.Csec.Service

/-!
# From the sensors to a receiver

The application on the engine `she`, and what becomes of its frames.

1. `firmware_returns`: on this engine the application does not panic, whatever the
   other hardware does. If it does not complete its polls, it waits for other hardware.
2. `frames_sent`: over a run of any length, the frames byte by byte. Each carries an
   initialization vector of its own.
3. `readings_received`: a receiver that processes frames as the crate documentation
   says gets the readings, however the frames are lost, repeated and reordered on
   their way, and nothing from a frame whose MAC does not fit.
-/

namespace App

open Mmio Data FrameLemmas SystemLemmas FailStopLemmas SafetyLemmas

variable {σ κ α : Type} {board : Hw BoardReg σ} {P : Csec.Primitives}
  {latency : Csec.She → Csec.Pram → Nat} {can : Hw Can.CanReg κ}

/-! ## Without panics -/

/-- The engine is idle. -/
def EngineIdle (s : σ × Csec.Cse Csec.She × κ) : Prop := s.2.1.engine.job = .idle

/-- A busy-wait on another peripheral than the CSEc. -/
def Elsewhere (site : Site) : Prop := ∀ c, site ≠ .csec c

namespace DeliveryLemmas

/-- A driver waits in one of its own functions. -/
theorem waitsAt_driver {Reg Reg₁ Reg₂ Site₁ τ : Type} {hw : Hw Reg τ} {g : Reg₁ → Reg₂}
    {g' : Reg₂ → Reg} {f : Site₁ → Site} {p : Prog Reg₁ Site₁ α} {s : τ} {site : Site}
    (h : ((p.embed g f).embed g' id).waitsAt hw s = some site) : ∃ site₁, f site₁ = site := by
  rw [waitsAt_embed, waitsAt_embed, Option.map_id] at h
  obtain ⟨site₁, _, hsite⟩ := Option.map_eq_some_iff.mp h
  exact ⟨site₁, hsite⟩

/-- A driver without panics, of another peripheral than the CSEc. -/
theorem keeps_onAdc {p : Adc.Driver α} (h : p.Yields noPanic fun _ => True) :
    (onAdc p).Keeps (systemHw board (Csec.she P latency) can) Elsewhere EngineIdle
      fun _ => True := by
  refine Prog.Keeps.of_yields ((h.embed Sum.inl Site.adc).embed Sum.inl id)
    (fun s site hsite => ?_) fun s hs => ?_
  · obtain ⟨_, rfl⟩ := waitsAt_driver hsite
    exact fun _ => Site.noConfusion
  · exact (congrArg (fun r => EngineIdle r.2) (exec_onAdc (b := s.1) (c := s.2.1) (k := s.2.2)
      p)).mpr hs

theorem keeps_onScg {p : Scg.Driver α} (h : p.Yields noPanic fun _ => True) :
    (onScg p).Keeps (systemHw board (Csec.she P latency) can) Elsewhere EngineIdle
      fun _ => True := by
  refine Prog.Keeps.of_yields ((h.embed Sum.inr Site.scg).embed Sum.inl id)
    (fun s site hsite => ?_) fun s hs => ?_
  · obtain ⟨_, rfl⟩ := waitsAt_driver hsite
    exact fun _ => Site.noConfusion
  · exact (congrArg (fun r => EngineIdle r.2) (exec_onScg (b := s.1) (c := s.2.1) (k := s.2.2)
      p)).mpr hs

theorem keeps_onCan {p : Can.Driver α} (h : p.Yields noPanic fun _ => True) :
    (onCan p).Keeps (systemHw board (Csec.she P latency) can) Elsewhere EngineIdle
      fun _ => True := by
  refine Prog.Keeps.of_yields ((h.embed Sum.inr Site.can).embed Sum.inr id)
    (fun s site hsite => ?_) fun s hs => ?_
  · obtain ⟨_, rfl⟩ := waitsAt_driver hsite
    exact fun _ => Site.noConfusion
  · exact (congrArg (fun r => EngineIdle r.2) (exec_onCan (b := s.1) (c := s.2.1) (k := s.2.2)
      p)).mpr hs

/-- A call of the engine that returns and leaves it idle. -/
theorem keeps_onCsec {p : Csec.Driver α} {post : α → Prop}
    (h : ∀ c : Csec.Cse Csec.She, c.engine.job = .idle → ∃ (a : α) (c' : Csec.Cse Csec.She),
      c'.engine.job = .idle ∧ post a ∧
        exec (Csec.cseHw (Csec.she P latency)) p c = (.done a, c')) :
    (onCsec p).Keeps (systemHw board (Csec.she P latency) can) Elsewhere EngineIdle post := by
  rintro ⟨b, c, k⟩ hs
  obtain ⟨a, c', hidle, ha, hexec⟩ := h c hs
  refine Or.inr ⟨a, (b, c', k), ?_, ha, hidle⟩
  rw [exec_onCsec, hexec]

theorem keeps_initRng : (onCsec Csec.initRng).Keeps (systemHw board (Csec.she P latency) can)
    Elsewhere EngineIdle fun r => r = .ok () := by
  refine keeps_onCsec fun c hidle => ?_
  obtain ⟨c', hengine, hexec⟩ := Csec.exec_initRng latency P hidle
  exact ⟨_, c', by rw [hengine, hidle], rfl, hexec⟩

theorem keeps_loadPlainkey (key : Csec.Block) :
    (onCsec (Csec.loadPlainkey key)).Keeps (systemHw board (Csec.she P latency) can)
      Elsewhere EngineIdle fun r => r = .ok () := by
  refine keeps_onCsec fun c hidle => ?_
  obtain ⟨c', hengine, hexec⟩ := Csec.exec_loadPlainkey latency P hidle key
  exact ⟨_, c', by rw [hengine, hidle], rfl, hexec⟩

theorem keeps_generateRnd :
    (onCsec Csec.generateRnd).Keeps (systemHw board (Csec.she P latency) can) Elsewhere EngineIdle
      fun r => ∃ iv : Csec.Block, r = .ok iv.toList := by
  refine keeps_onCsec fun c hidle => ?_
  obtain ⟨c', hengine, hexec⟩ := Csec.exec_generateRnd latency P hidle
  exact ⟨_, c', by rw [hengine]; exact hidle, ⟨_, rfl⟩, hexec⟩

/-- The encryption of one page. -/
theorem keeps_encryptCbc {plaintext : List Byte} (hlen : plaintext.length = 16)
    (iv : Csec.Block) :
    (onCsec (Csec.encryptCbc plaintext iv (List.replicate 16 0))).Keeps
      (systemHw board (Csec.she P latency) can) Elsewhere EngineIdle
      fun r => r.1 = .ok () ∧ r.2.length = 16 := by
  refine keeps_onCsec fun c hidle => ?_
  have hpages : plaintext.length % 16 = 0 := by rw [hlen]
  obtain ⟨c', hengine, hexec⟩ := Csec.exec_encryptCbc latency P hidle plaintext iv
    (List.replicate 16 0) hpages (by rw [hlen]; decide) (by rw [hlen]; rfl)
  refine ⟨_, c', by rw [hengine, hidle], ⟨rfl, ?_⟩, hexec⟩
  exact (Csec.encryptBytes_length _ _ hpages).trans hlen

theorem keeps_generateMac (message : List Byte) (hlen : message.length < 8192) :
    (onCsec (Csec.generateMac message)).Keeps (systemHw board (Csec.she P latency) can) Elsewhere
      EngineIdle fun r => ∃ cmac : Csec.Block, r = .ok cmac.toList := by
  refine keeps_onCsec fun c hidle => ?_
  obtain ⟨c', hengine, hexec⟩ := Csec.exec_generateMac_short latency (P := P) hidle hlen
  exact ⟨_, c', by rw [hengine, hidle], ⟨_, rfl⟩, hexec⟩

theorem keeps_init (resetScg : Scg.ScgReg → Word) (resetCan : Can.CanReg → Word)
    (key : Csec.Block) :
    (init resetScg resetCan key).Keeps (systemHw board (Csec.she P latency) can) Elsewhere
      EngineIdle fun _ => True := by
  refine (keeps_onScg (configureSpllClock_yields resetScg)).bind fun _ _ =>
    (keeps_onAdc adcInit_yields).bind fun _ _ => (keeps_onCan (canInit_yields resetCan)).bind
      fun _ _ => keeps_initRng.bind ?_
  rintro _ rfl
  refine (keeps_loadPlainkey key).bind ?_
  rintro _ rfl
  exact .done trivial

theorem keeps_pollSensor :
    pollSensor.Keeps (systemHw board (Csec.she P latency) can) Elsewhere EngineIdle
      fun _ => True := by
  refine (keeps_onAdc adcRead_yields).bind fun values _ => ?_
  rw [u8ArrayFrom16Array_values, Prog.done_bind]
  refine keeps_generateRnd.bind ?_
  rintro _ ⟨iv, rfl⟩
  have hiv : iv.toList.length = 16 := Vector.length_toList
  have hzero : (List.replicate 16 (0 : Byte)).length = 16 := List.length_replicate
  obtain ⟨hfill₁, _, _⟩ := cloneFromSlice_payload hiv hzero hzero
  simp only [unwrap, Prog.pure_eq, Prog.done_bind, hfill₁]
  refine (keeps_encryptCbc (encoded_length values) (array16 iv.toList)).bind ?_
  rintro ⟨_, encrypted⟩ ⟨rfl, henc⟩
  obtain ⟨_, hfill₂, _⟩ := cloneFromSlice_payload hiv henc hzero
  simp only [Prog.done_bind, hfill₂]
  have hsigned : (iv.toList ++ encrypted).length < 8192 := by
    rw [List.length_append, hiv, henc]
    decide
  refine (keeps_generateMac (iv.toList ++ encrypted) hsigned).bind ?_
  rintro _ ⟨cmac, rfl⟩
  obtain ⟨_, _, hfill₃⟩ := cloneFromSlice_payload hiv henc
    (show cmac.toList.length = 16 from Vector.length_toList)
  simp only [Prog.done_bind, hfill₃]
  exact keeps_onCan (transmit_yields _)

end DeliveryLemmas

open DeliveryLemmas

/-- On the engine `she`, with any key, any ADC, clock and CAN hardware and for any
number of polls, when the crates for the watchdog and for the schedule report no error: the
application does not panic. It completes its polls, or waits for one of the other
peripherals. -/
theorem firmware_returns {σ κ : Type} (board : Hw BoardReg σ) (P : Csec.Primitives)
    (latency : Csec.She → Csec.Pram → Nat) (can : Hw Can.CanReg κ) {watchdog : Except Unit Unit}
    (hwatchdog : watchdog = .ok ()) {schedule : Nat → Except Unit Unit}
    (hschedule : ∀ i, schedule i = .ok ()) (resetScg : Scg.ScgReg → Word)
    (resetCan : Can.CanReg → Word) (key : Csec.Block) (polls : Nat)
    (s : σ × Csec.Cse Csec.She × κ) (hidle : EngineIdle s) :
    let app := firmware watchdog schedule resetScg resetCan key polls
    let hw := systemHw board (Csec.she P latency) can
    (exec hw app s).1 = .done () ∨
      ((exec hw app s).1 = .hung ∧ ∃ site, Elsewhere site ∧ app.waitsAt hw s = some site) := by
  have hunwrap (i : Nat) : (unwrap (schedule i)).Keeps (systemHw board (Csec.she P latency) can)
      Elsewhere EngineIdle fun _ => True := by
    rw [hschedule i]
    exact .done trivial
  have hinit : (initTask watchdog (schedule 0) resetScg resetCan key).Keeps
      (systemHw board (Csec.she P latency) can) Elsewhere EngineIdle fun _ => True := by
    rw [hwatchdog]
    exact (keeps_init resetScg resetCan key).bind fun _ _ => hunwrap 0
  have hkeeps : (firmware watchdog schedule resetScg resetCan key polls).Keeps
      (systemHw board (Csec.she P latency) can) Elsewhere EngineIdle fun _ => True :=
    hinit.bind fun _ _ => Prog.Keeps.forRange trivial fun i _ _ _ =>
      keeps_pollSensor.bind fun _ _ => hunwrap (i + 1)
  rcases hkeeps s hidle with ⟨site, helsewhere, hwaits⟩ | ⟨u, s', hdone, _⟩
  · exact Or.inr ⟨hung_iff_waitsAt.mpr ⟨site, hwaits⟩, site, helsewhere, hwaits⟩
  · exact Or.inl (congrArg Prod.fst hdone)

/-- Two polls. -/
theorem firmware_returns_two :
    let app := firmware (.ok ()) (fun _ => .ok ()) (fun _ => 0) (fun _ => 0) plainkey 2
    let hw := sampleHw sampleEngine
    (exec hw app (sampleState Csec.She.sample)).1 = .done () ∨
      ((exec hw app (sampleState Csec.She.sample)).1 = .hung ∧
        ∃ site, Elsewhere site ∧ app.waitsAt hw (sampleState Csec.She.sample) = some site) :=
  firmware_returns _ _ _ _ rfl (fun _ => rfl) _ _ _ _ _ rfl

/-! ## A receiver -/

/-- The values of the sensor data, each big-endian. -/
def parse (data : List Byte) : Readings :=
  Vector.ofFn fun i => data[2 * i.val]?.getD 0 ++ data[2 * i.val + 1]?.getD 0

/-- How a frame is processed, according to the crate documentation. -/
def process (frame : List Byte) : Csec.Driver (Except Csec.CommandResult (Option Readings)) := do
  match ← Csec.verifyMac (part frame 16 48) (array16 (part frame 0 16)) with
  | .error e => pure (.error e)
  | .ok false => pure (.ok none)
  | .ok true => do
    let (result, data) ← Csec.decryptCbc (part frame 32 48) (array16 (part frame 16 32))
      (List.replicate 16 0)
    match result with
    | .error e => pure (.error e)
    | .ok () => pure (.ok (some (parse data)))

/-- What a frame says to the holder of a key. -/
def readingOf (P : Csec.Primitives) (key : Csec.Block) (frame : List Byte) : Option Readings :=
  if P.cmac key (bitsOf (part frame 16 48)) == array16 (part frame 0 16) then
    some (parse (Csec.decryptBytes P key (array16 (part frame 16 32)) (part frame 32 48)))
  else none

/-- A receiver with an engine of its own. -/
def receiver (E : Csec.Engine ε) :
    Component {frame : List Byte // frame.length = 64}
      (Except Csec.CommandResult (Option Readings)) (Csec.Cse ε) :=
  fun frame c => exec (Csec.cseHw E) (process frame.1) c

namespace DeliveryLemmas

theorem part_length {frame : List Byte} {lo hi : Nat} (h : hi ≤ frame.length) :
    (part frame lo hi).length = hi - lo := by
  rw [part, List.length_drop, List.length_take_of_le h]

/-- `process`, with an idle engine. -/
theorem exec_process (P : Csec.Primitives) (latency : Csec.She → Csec.Pram → Nat)
    {c : Csec.Cse Csec.She} (hidle : c.engine.job = .idle) {frame : List Byte}
    (hlen : frame.length = 64) :
    ∃ c' : Csec.Cse Csec.She, c'.engine = c.engine ∧
      exec (Csec.cseHw (Csec.she P latency)) (process frame) c =
        (.done (.ok (readingOf P c.engine.ramKey frame)), c') := by
  have hbody : (part frame 16 48).length = 32 := part_length (by rw [hlen]; decide)
  have hdata : (part frame 32 48).length = 16 := part_length (by rw [hlen]; decide)
  have hpos : 0 < (part frame 16 48).length := by
    rw [hbody]
    decide
  obtain ⟨hengine, _⟩ := Csec.exec_verifyMac_idle latency P hidle hpos (by rw [hbody]; decide)
    (array16 (part frame 0 16))
  have hverdict := Csec.exec_verifyMac_verdict (P := P) latency hidle hpos
    (by rw [hbody]; decide) (by rw [hbody]; decide) (array16 (part frame 0 16))
  generalize hc' : (exec (Csec.cseHw (Csec.she P latency))
    (Csec.verifyMac (part frame 16 48) (array16 (part frame 0 16))) c).2 = c' at hengine
  rw [process, exec_bind_of _ (Prod.ext hverdict hc'), readingOf]
  cases hcmac : P.cmac c.engine.ramKey (bitsOf (part frame 16 48)) ==
      array16 (part frame 0 16) with
  | false => exact ⟨c', hengine, rfl⟩
  | true =>
    obtain ⟨c'', hengine', hdecrypt⟩ := Csec.exec_decryptCbc latency P
      (show c'.engine.job = .idle by rw [hengine, hidle]) (part frame 32 48)
      (array16 (part frame 16 32)) (List.replicate 16 0) (by rw [hdata]) (by rw [hdata]; decide)
      (by rw [hdata]; rfl)
    refine ⟨c'', hengine'.trans hengine, ?_⟩
    simp only [exec_bind_of _ hdecrypt, hengine]
    rfl

theorem receiver_simulates (P : Csec.Primitives) (latency : Csec.She → Csec.Pram → Nat)
    (key : Csec.Block) :
    Simulates (fun frame (_ : Unit) => (.done (.ok (readingOf P key frame.1)), ()))
      (receiver (Csec.she P latency))
      fun _ c => c.engine.job = .idle ∧ c.engine.ramKey = key := by
  rintro ⟨frame, hlen⟩ ⟨⟩ c ⟨hidle, rfl⟩
  obtain ⟨c', hengine, hexec⟩ := exec_process P latency hidle hlen
  rw [receiver, hexec]
  exact ⟨rfl, by rw [hengine, hidle], by rw [hengine]⟩

theorem parse_encoded (values : Readings) : parse (encoded values) = values := by
  have hhi (v : Halfword) : Csec.hi v ++ Csec.lo v = v := Csec.hi_append_lo v
  obtain ⟨⟨values⟩, hsize⟩ := values
  match values, hsize with
  | [v₀, v₁, v₂, v₃], _ =>
    apply Vector.ext
    intro i hi
    have hi' : i < 4 := hi
    interval_cases i <;> simp [parse, encoded, bigEndian, hhi]

theorem initVec_frameOf (P : Csec.Primitives) (key : Csec.Block) (drawn : Nat)
    (values : Readings) :
    part (frameOf P key drawn values) 16 32 = (P.random drawn).toList := by
  obtain ⟨encrypted, hencrypted⟩ :
      ∃ e, Csec.encryptBytes P key (P.random drawn) (encoded values) = e := ⟨_, rfl⟩
  obtain ⟨cmac, hcmac⟩ :
      ∃ m, P.cmac key (bitsOf ((P.random drawn).toList ++ encrypted)) = m := ⟨_, rfl⟩
  have hframe : frameOf P key drawn values =
      cmac.toList ++ ((P.random drawn).toList ++ (encrypted ++ List.replicate 16 0)) := by
    rw [frameOf, payloadOf, hencrypted, hcmac, List.append_assoc, List.append_assoc]
  exact part_eq hframe Vector.length_toList (by rw [Vector.length_toList, Vector.length_toList])

/-- A frame of the sender says what it was made from. -/
theorem readingOf_frameOf (P : Csec.Primitives) (key : Csec.Block) (drawn : Nat)
    (values : Readings) : readingOf P key (frameOf P key drawn values) = some values := by
  obtain ⟨_, hmac, hdata, _⟩ := decodes_payloadOf P key (P.random drawn) values
  rw [readingOf, frameOf, hmac, hdata, array16_toList, parse_encoded, if_pos (beq_self_eq_true _)]

/-- A frame whose MAC does not fit says nothing. -/
theorem readingOf_forged {P : Csec.Primitives} {key : Csec.Block} {frame : List Byte}
    (hlen : frame.length = 64)
    (h : part frame 0 16 ≠ (P.cmac key (bitsOf (part frame 16 48))).toList) :
    readingOf P key frame = none := by
  rw [readingOf, if_neg]
  intro heq
  refine h ?_
  rw [beq_iff_eq.mp heq, array16_bytes (part_length (by rw [hlen]; decide))]

end DeliveryLemmas

/-- For every run of `init` and then of `poll_sensor` any number of times, as in
`frames_decode`: the frames, byte by byte, in the order of the readings. The
initialization vector of each is the next block of the random number generator, so
that none is used for two frames. -/
theorem frames_sent {σ : Type} (board : Hw BoardReg σ) (P : Csec.Primitives)
    (latency : Csec.She → Csec.Pram → Nat) (a : Can.Activity) (resetScg : Scg.ScgReg → Word)
    (resetCan : Can.CanReg → Word) (key : Csec.Block) (s₀ s : AppState σ)
    (hidle : s₀.2.1.engine.job = .idle) (hnone : s₀.2.2.2.activated = [])
    (readings : List Readings)
    (h : AppRun board P latency a resetScg resetCan key s₀ s readings) :
    s.2.2.2.activated =
        readings.mapIdx (fun i values => frameOf P key (s₀.2.1.engine.drawn + i) values) ∧
      s.2.2.2.activated.map (part · 16 32) =
        (List.range readings.length).map (fun i =>
          (P.random (s₀.2.1.engine.drawn + i)).toList) ∧
      s.2.1.engine = ⟨key, s₀.2.1.engine.drawn + readings.length, .idle⟩ := by
  have hsent := sent_run hidle hnone h
  refine ⟨hsent.frames, ?_, hsent.engine⟩
  rw [hsent.frames]
  apply List.ext_getElem
  · simp
  · intro i hi hi'
    simp [initVec_frameOf]

/-- Two frames, with one block of the random number generator after the other. -/
theorem frames_sent_sample :
    (sampleAfter sampleEngine Csec.She.sample 2).2.2.2.activated =
      [frameOf .sample plainkey 0 (sampleReadings 0),
        frameOf .sample plainkey 1 (sampleReadings 4)] :=
  (frames_sent _ _ _ _ _ _ _ _ _ rfl rfl _ appRun_sample).1

/-- For every run of `init` and then of `poll_sensor` any number of times, and every
list of frames that a receiver with the same key processes after one another: it
answers every one of them. A frame of the sender gives the reading it was made from,
however often and wherever in the list it stands. A frame whose MAC does not fit
gives none. -/
theorem readings_received {σ : Type} (board : Hw BoardReg σ) (P : Csec.Primitives)
    (latency latency' : Csec.She → Csec.Pram → Nat) (a : Can.Activity)
    (resetScg : Scg.ScgReg → Word) (resetCan : Can.CanReg → Word) (key : Csec.Block)
    (s₀ s : AppState σ) (hidle : s₀.2.1.engine.job = .idle) (hnone : s₀.2.2.2.activated = [])
    (readings : List Readings)
    (h : AppRun board P latency a resetScg resetCan key s₀ s readings)
    (c : Csec.Cse Csec.She) (hc : c.engine.job = .idle) (hkey : c.engine.ramKey = key)
    (received : List {frame : List Byte // frame.length = 64}) :
    List.Forall₂
      (fun frame reply =>
        (∀ i : Nat, s.2.2.2.activated[i]? = some frame.1 → reply = .done (.ok readings[i]?)) ∧
        (part frame.1 0 16 ≠ (P.cmac key (bitsOf (part frame.1 16 48))).toList →
          reply = .done (.ok none)))
      received (Component.run (receiver (Csec.she P latency')) received c).1 := by
  obtain ⟨hreplies, _⟩ := (receiver_simulates P latency' key).run received (t := ()) ⟨hc, hkey⟩
  rw [hreplies, Component.run_map, List.forall₂_map_right_iff, List.forall₂_same]
  rintro ⟨frame, hlen⟩ _
  refine ⟨fun i hi => ?_, fun hforged => ?_⟩
  · rw [(sent_run hidle hnone h).frames, List.getElem?_mapIdx] at hi
    obtain ⟨values, hvalues, rfl⟩ := Option.map_eq_some_iff.mp hi
    rw [readingOf_frameOf, hvalues]
  · rw [readingOf_forged hlen hforged]

/-- A receiver that gets the second frame first, then the first one, the second one again,
and a forged one. -/
theorem readings_received_reordered :
    ∃ frame₀ frame₁ : {frame : List Byte // frame.length = 64},
      (sampleAfter sampleEngine Csec.She.sample 2).2.2.2.activated = [frame₀.1, frame₁.1] ∧
        (Component.run (receiver (Csec.she .sample fun _ _ => 5))
          [frame₁, frame₀, frame₁, ⟨List.replicate 64 0, List.length_replicate⟩]
          (Csec.Cse.reset ⟨plainkey, 7, .idle⟩)).1 =
        [.done (.ok (some (sampleReadings 4))), .done (.ok (some (sampleReadings 0))),
          .done (.ok (some (sampleReadings 4))), .done (.ok none)] := by
  have hlen (drawn : Nat) (values : Readings) :
      (frameOf .sample plainkey drawn values).length = 64 :=
    (decodes_payloadOf _ _ _ _).length
  have hframes := (sent_run rfl rfl appRun_sample).frames
  have hfirst : (sampleAfter sampleEngine Csec.She.sample 2).2.2.2.activated[0]? =
      some (frameOf .sample plainkey 0 (sampleReadings 0)) := by
    rw [hframes]
    rfl
  have hsecond : (sampleAfter sampleEngine Csec.She.sample 2).2.2.2.activated[1]? =
      some (frameOf .sample plainkey 1 (sampleReadings 4)) := by
    rw [hframes]
    rfl
  have hforged : part (List.replicate 64 0) 0 16 ≠
      (Csec.Primitives.sample.cmac plainkey
        (bitsOf (part (List.replicate 64 0) 16 48))).toList := by
    decide
  refine ⟨⟨_, hlen 0 (sampleReadings 0)⟩, ⟨_, hlen 1 (sampleReadings 4)⟩, hframes, ?_⟩
  have hreplies := readings_received _ _ _ (fun _ _ => 5) _ _ _ _ _ _ rfl rfl _ appRun_sample
    (Csec.Cse.reset ⟨plainkey, 7, .idle⟩) rfl rfl [⟨_, hlen 1 (sampleReadings 4)⟩,
      ⟨_, hlen 0 (sampleReadings 0)⟩, ⟨_, hlen 1 (sampleReadings 4)⟩,
      ⟨List.replicate 64 0, List.length_replicate⟩]
  generalize (Component.run (receiver (Csec.she .sample fun _ _ => 5)) _
    (Csec.Cse.reset ⟨plainkey, 7, .idle⟩)).1 = replies at hreplies ⊢
  obtain - | ⟨⟨h₀, _⟩, - | ⟨⟨h₁, _⟩, - | ⟨⟨h₂, _⟩, - | ⟨⟨_, h₃⟩, _ | _⟩⟩⟩⟩ := hreplies
  rw [h₀ 1 hsecond, h₁ 0 hfirst, h₂ 1 hsecond, h₃ hforged]
  rfl

end App
