import DaredevilSmall.Mmio.Result
import DaredevilSmall.Csec.Discipline
import DaredevilSmall.App.Frame

/-!
# What the application can panic on

The drivers index register blocks and slices and mark arms as unreachable, and the
application copies slices of fixed lengths. Whether any of this can go wrong is
decided here without a model of the hardware: a register may read as anything.

1. The drivers of the ADC, of the clock generator and of the CAN controller never
   panic.
2. A driver function of the CSEc panics on a result code that does not exist, and
   returns as many bytes as the application expects.
3. `firmware_panics`: so the application panics on such a code and on an error that it
   unwraps, of a command or of another crate, and on nothing else.
-/

namespace App

open Mmio

variable {σ : Type}

namespace SafetyLemmas

theorem configureSpllClock_yields (reset : Scg.ScgReg → Word) :
    (Scg.configureSpllClock reset).Yields noPanic fun _ => True := by
  unfold Scg.configureSpllClock
  simp

theorem adcInit_yields : Adc.init.Yields noPanic fun _ => True := by
  unfold Adc.init
  simp

theorem readAdc_yields {channel : Nat} (h : channel < Adc.channelCount) :
    (Adc.readAdc channel).Yields noPanic fun _ => True := by
  rw [Adc.readAdc, dif_pos h]
  simp

theorem adcRead_yields : Adc.read.Yields noPanic fun _ => True := by
  unfold Adc.read
  refine Prog.Yields.forRange_true fun i hi values => ?_
  exact (readAdc_yields hi).bind fun _ _ => by simp [Adc.sleep]

theorem embeddedRam_yields {n : Nat} (h : n < 128) {f : Can.CanReg → Can.Driver Unit}
    (hf : ∀ r, (f r).Yields noPanic fun _ => True) :
    (Can.embeddedRam n f).Yields noPanic fun _ => True := by
  rw [Can.embeddedRam, dif_pos h]
  exact hf _

theorem writeByte_yields {payload : List Byte} {i : Nat} (hlen : i < payload.length)
    (hi : i < Can.maxMsgLength) :
    (Can.transmit.writeByte payload i).Yields noPanic fun _ => True := by
  have hword : 2 + i / 4 < 128 := by
    have hmax : Can.maxMsgLength = 64 := rfl
    omega
  rw [Can.transmit.writeByte, dif_pos hlen]
  refine embeddedRam_yields hword fun r => ?_
  have hlane : i % 4 = 0 ∨ i % 4 = 1 ∨ i % 4 = 2 ∨ i % 4 = 3 := by omega
  rcases hlane with h | h | h | h
  all_goals
    rw [h]
    simp

theorem canInit_yields (reset : Can.CanReg → Word) :
    (Can.init reset).Yields noPanic fun _ => True := by
  have hconfigure : (Can.init.configure reset).Yields noPanic fun _ => True := by
    unfold Can.init.configure
    simp
  have hclear : (forRange 128 (fun i _ => Can.embeddedRam i fun r => writeReg .init r 0)
      ()).Yields noPanic fun _ => True := by
    refine Prog.Yields.forRange_true fun i hi _ => ?_
    exact embeddedRam_yields hi fun _ => by simp
  have hfilters : (forRange 16 (fun i _ => Can.rximr i fun r => writeReg .init r 0xFFFFFFFF)
      () : Can.Driver Unit).Yields noPanic fun _ => True := by
    refine Prog.Yields.forRange_true fun i hi _ => ?_
    rw [Can.rximr, dif_pos hi]
    simp
  refine hconfigure.bind fun _ _ => hclear.bind fun _ _ => hfilters.bind fun _ _ => ?_
  simp [Can.embeddedRam, Can.msgBufSize]

theorem transmit_yields (payload : List Byte) :
    (Can.transmit payload).Yields noPanic fun _ => True := by
  have hbytes : (forRange (min Can.maxMsgLength payload.length)
      (fun i _ => Can.transmit.writeByte payload i) ()).Yields noPanic fun _ => True :=
    Prog.Yields.forRange_true fun i hi _ =>
      writeByte_yields (Nat.lt_of_lt_of_le hi (Nat.min_le_right _ _))
        (Nat.lt_of_lt_of_le hi (Nat.min_le_left _ _))
  unfold Can.transmit
  rw [Prog.Yields.writeReg_bind_iff]
  have hword {n : Nat} (h : n < 128) (v : Word) : (Can.embeddedRam n fun r =>
      writeReg .transmit r v).Yields noPanic fun _ => True :=
    embeddedRam_yields h fun _ => by simp
  exact (hword (by decide) _).bind fun _ _ => hbytes.bind fun _ _ => hword (by decide) _

/-! ## The CSEc -/

/-- A result code that does not exist. -/
def unknownCode (e : Panic) : Prop := ∃ v, e = Csec.CommandResult.unknown v

/-- A driver function that follows the access rules, with a result that does not
depend on what the engine answers. -/
theorem quiet_yields {α : Type} {p : Csec.Driver α} (h : Csec.Quiet p) {post : α → Prop}
    (hpost : p.Yields anyPanic post) : p.Yields unknownCode post := by
  refine (h.yields.and hpost).mono (fun e he => ?_) fun a ha => ha.2
  obtain ⟨⟨_, _, v, hv⟩, _⟩ := he
  exact ⟨v, hv⟩

theorem readTail_yields (offset : Nat) (buf : List Byte) :
    (Csec.readCommandBytes.tail offset buf).Yields anyPanic
      fun out => out.length = buf.length := by
  induction buf generalizing offset with
  | nil => simp [Csec.readCommandBytes.tail]
  | cons b buf ih =>
    refine (Prog.Yields.any _).bind fun _ _ => (ih (offset + 1)).bind fun rest hrest => ?_
    simp [hrest]

theorem readCommandBytes_yields (offset : Nat) (buf : List Byte) :
    (Csec.readCommandBytes offset buf).Yields anyPanic fun out => out.length = buf.length := by
  induction offset, buf using Csec.readCommandBytes.induct with
  | case1 offset b0 b1 b2 b3 buf ih =>
    rw [Csec.readCommandBytes]
    refine (Prog.Yields.any _).bind fun _ _ => ih.bind fun rest hrest => ?_
    simp [hrest]
  | case2 offset buf hshort =>
    rw [Csec.readCommandBytes]
    · exact readTail_yields offset buf
    · exact hshort

/-- `generate_rnd` returns 16 bytes. -/
theorem generateRnd_yields : Csec.generateRnd.Yields unknownCode
    fun r => ∀ bytes, r = .ok bytes → bytes.length = 16 := by
  refine quiet_yields Csec.quiet_generateRnd ?_
  unfold Csec.generateRnd
  refine (Prog.Yields.any _).bind fun r _ => ?_
  cases r with
  | error e => simp
  | ok u =>
    refine (readCommandBytes_yields _ _).bind fun buf hbuf => ?_
    simpa using hbuf

/-- `generate_mac` returns 16 bytes. -/
theorem generateMac_yields {message : List Byte} (h : message.length ≤ Csec.u32Max) :
    (Csec.generateMac message).Yields unknownCode
      fun r => ∀ bytes, r = .ok bytes → bytes.length = 16 := by
  refine quiet_yields (Csec.quiet_generateMac h) ?_
  unfold Csec.generateMac
  refine (Prog.Yields.any _).bind fun _ _ => (Prog.Yields.any _).bind fun _ _ =>
    (Prog.Yields.any _).bind fun r _ => ?_
  cases r with
  | error e => simp
  | ok u =>
    refine (readCommandBytes_yields _ _).bind fun buf hbuf => ?_
    simpa using hbuf

theorem processBlocks_yields (input output : List Byte) (sequence : Csec.Sequence)
    (command : Csec.Command) (hpages : input.length % 16 = 0)
    (hout : output.length = input.length) :
    (Csec.handleCbc.processBlocks input output sequence command hpages).Yields anyPanic
      fun r => r.2.length = output.length := by
  induction input, output, sequence, hpages using Csec.handleCbc.processBlocks.induct with
  | case1 input output sequence hpages availPages bytes ih =>
    rw [Csec.handleCbc.processBlocks]
    refine (Prog.Yields.any _).bind fun _ _ => (Prog.Yields.any _).bind fun _ _ =>
      (Prog.Yields.any _).bind fun r _ => ?_
    cases r with
    | error e => simp
    | ok u =>
      refine (Prog.Yields.any _).bind fun _ _ =>
        (readCommandBytes_yields _ _).bind fun processed hprocessed => ?_
      have hlen (rest : List Byte) (hrest : rest.length = (output.drop bytes).length) :
          (processed ++ rest).length = output.length := by
        rw [List.length_append, hprocessed, hrest, ← List.length_append, List.take_append_drop]
      show (ite _ _ _ : Csec.Driver _).Yields _ _
      split
      · next hmore =>
        refine (ih hmore ?_).bind fun r hr => ?_
        · rw [List.length_drop, List.length_drop, hout]
        · exact Prog.Yields.done_iff.mpr (hlen r.2 hr)
      · rw [Prog.pure_eq, Prog.Yields.done_iff]
        exact hlen _ rfl

/-- `encrypt_cbc` fills the buffer it is given. -/
theorem encryptCbc_yields {plaintext ciphertext : List Byte} (initVec : Csec.Block)
    (hout : ciphertext.length = plaintext.length) (hpages : ciphertext.length % 16 = 0) :
    (Csec.encryptCbc plaintext initVec ciphertext).Yields unknownCode
      fun r => r.2.length = ciphertext.length := by
  refine quiet_yields (Csec.quiet_handleCbc rfl initVec hout hpages) ?_
  rw [Csec.handleCbc, dif_pos hout, dif_pos hpages]
  exact (Prog.Yields.any _).bind fun _ _ => (Prog.Yields.any _).bind fun _ _ =>
    (Prog.Yields.any _).bind fun _ _ => processBlocks_yields _ _ _ _ _ hout

end SafetyLemmas

open SafetyLemmas

/-! ## The tasks -/

/-- An error has been unwrapped, or the engine has reported a result code that does not
exist. -/
def failure (e : Panic) : Prop := e = .unwrap ∨ unknownCode e

namespace SafetyLemmas

variable {α : Type} {post : α → Prop}

theorem onCsec_yields {p : Csec.Driver α} (h : p.Yields unknownCode post) :
    (onCsec p).Yields failure post :=
  ((h.embed Sum.inl Site.csec).embed Sum.inr id).mono (fun _ => Or.inr) fun _ ha => ha

theorem onCan_yields {p : Can.Driver α} (h : p.Yields noPanic post) :
    (onCan p).Yields failure post :=
  ((h.embed Sum.inr Site.can).embed Sum.inr id).mono (fun _ he => he.elim) fun _ ha => ha

theorem onAdc_yields {p : Adc.Driver α} (h : p.Yields noPanic post) :
    (onAdc p).Yields failure post :=
  ((h.embed Sum.inl Site.adc).embed Sum.inl id).mono (fun _ he => he.elim) fun _ ha => ha

theorem onScg_yields {p : Scg.Driver α} (h : p.Yields noPanic post) :
    (onScg p).Yields failure post :=
  ((h.embed Sum.inr Site.scg).embed Sum.inl id).mono (fun _ he => he.elim) fun _ ha => ha

theorem unwrap_yields {ε : Type} {r : Except ε α} (h : ∀ a, r = .ok a → post a) :
    (unwrap r).Yields failure post := by
  cases r with
  | error e => exact Prog.Yields.panic_iff.mpr (Or.inl rfl)
  | ok a => exact Prog.Yields.done_iff.mpr (h a rfl)

/-- A copy into a part of a buffer of 48 bytes. -/
theorem cloneFromSlice_yields {buf src : List Byte} {lo hi : Nat} (hbuf : buf.length = 48)
    (hlo : lo ≤ hi) (hhi : hi ≤ 48) (hsrc : src.length = hi - lo) :
    (cloneFromSlice buf lo hi src).Yields failure fun out => out.length = 48 := by
  rw [cloneFromSlice, if_pos ⟨hlo, hbuf ▸ hhi⟩, if_pos hsrc]
  refine Prog.Yields.done_iff.mpr ?_
  simp only [List.length_append, List.length_take, List.length_drop, hbuf, hsrc]
  omega

theorem init_yields (resetScg : Scg.ScgReg → Word) (resetCan : Can.CanReg → Word)
    (key : Csec.Block) : (init resetScg resetCan key).Yields failure fun _ => True := by
  have hrng : Csec.initRng.Yields unknownCode fun _ => True :=
    quiet_yields Csec.quiet_initRng (Prog.Yields.any _)
  have hload : (Csec.loadPlainkey key).Yields unknownCode fun _ => True :=
    quiet_yields (Csec.quiet_loadPlainkey key) (Prog.Yields.any _)
  exact (onScg_yields (configureSpllClock_yields resetScg)).bind fun _ _ =>
    (onAdc_yields adcInit_yields).bind fun _ _ =>
      (onCan_yields (canInit_yields resetCan)).bind fun _ _ =>
        (onCsec_yields hrng).bind fun _ _ => (unwrap_yields fun _ _ => trivial).bind fun _ _ =>
          (onCsec_yields hload).bind fun _ _ => unwrap_yields fun _ _ => trivial

theorem pollSensor_yields : pollSensor.Yields failure fun _ => True := by
  refine (onAdc_yields adcRead_yields).bind fun values _ => ?_
  rw [u8ArrayFrom16Array_values, Prog.done_bind]
  refine (onCsec_yields generateRnd_yields).bind fun r hr => (unwrap_yields hr).bind
    fun iv hiv => ?_
  have hout : (List.replicate 16 (0 : Byte)).length = (encoded values).length := by
    rw [FrameLemmas.encoded_length, List.length_replicate]
  refine (cloneFromSlice_yields List.length_replicate (by decide) (by decide) hiv).bind
    fun payload₁ hpayload₁ => ?_
  refine (onCsec_yields (encryptCbc_yields (array16 iv) hout
    (by rw [List.length_replicate]))).bind fun r hr => (unwrap_yields fun _ _ => trivial).bind
      fun _ _ => ?_
  refine (cloneFromSlice_yields hpayload₁ (by decide) (by decide) (hr.trans
    List.length_replicate)).bind fun payload₂ hpayload₂ => ?_
  have hsigned : (payload₂.drop 16).length ≤ Csec.u32Max := by
    rw [List.length_drop, hpayload₂]
    decide
  refine (onCsec_yields (generateMac_yields hsigned)).bind fun r hr => (unwrap_yields hr).bind
    fun cmac hcmac => ?_
  exact (cloneFromSlice_yields hpayload₂ (by decide) (by decide) hcmac).bind
    fun payload₃ _ => onCan_yields (transmit_yields payload₃)

end SafetyLemmas

/-- `init`, and then `poll_sensor` as often as it is scheduled, when `Watchdog::init` returns
`watchdog`, and one call of `schedule.poll_sensor` after the other `schedule 0`,
`schedule 1` and so on. -/
def firmware (watchdog : Except Unit Unit) (schedule : Nat → Except Unit Unit)
    (resetScg : Scg.ScgReg → Word) (resetCan : Can.CanReg → Word) (key : Csec.Block)
    (polls : Nat) : Program Unit := do
  initTask watchdog (schedule 0) resetScg resetCan key
  forRange polls (fun i _ => pollSensorTask (schedule (i + 1))) ()

theorem SafetyLemmas.firmware_yields (watchdog : Except Unit Unit)
    (schedule : Nat → Except Unit Unit) (resetScg : Scg.ScgReg → Word)
    (resetCan : Can.CanReg → Word) (key : Csec.Block) (polls : Nat) :
    (firmware watchdog schedule resetScg resetCan key polls).Yields failure fun _ => True := by
  have hunwrap (r : Except Unit Unit) : (unwrap r).Yields failure fun _ => True :=
    unwrap_yields fun _ _ => trivial
  have hinit : (initTask watchdog (schedule 0) resetScg resetCan key).Yields failure
      fun _ => True :=
    (hunwrap watchdog).bind fun _ _ => (init_yields resetScg resetCan key).bind
      fun _ _ => hunwrap (schedule 0)
  exact hinit.bind fun _ _ => Prog.Yields.forRange_true fun i _ _ =>
    pollSensor_yields.bind fun _ _ => hunwrap (schedule (i + 1))

/-- On any hardware, whatever its registers read as, for any number of polls and whatever
the crates for the watchdog and for the schedule return: the application panics on an error
that it unwraps, on a result code of the engine that does not exist, and on nothing else. No
slice or array is indexed out of bounds, no buffer has the wrong length, and no arm that
the source marks as unreachable or unimplemented is reached. -/
theorem firmware_panics (hw : Hw AppReg σ) (watchdog : Except Unit Unit)
    (schedule : Nat → Except Unit Unit) (resetScg : Scg.ScgReg → Word)
    (resetCan : Can.CanReg → Word) (key : Csec.Block) (polls : Nat) (s : σ) :
    (exec hw (firmware watchdog schedule resetScg resetCan key polls) s).1 = .done () ∨
      (exec hw (firmware watchdog schedule resetScg resetCan key polls) s).1 = .hung ∨
      ∃ e, failure e ∧
        (exec hw (firmware watchdog schedule resetScg resetCan key polls) s).1 = .panicked e := by
  rcases (firmware_yields watchdog schedule resetScg resetCan key polls).sound hw s with
    ⟨u, hdone, _⟩ | ⟨e, hpanic, hfailure⟩ | hhung
  · exact Or.inl hdone
  · exact Or.inr (Or.inr ⟨e, hfailure, hpanic⟩)
  · exact Or.inr (Or.inl hhung)

end App
