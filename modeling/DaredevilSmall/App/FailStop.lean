import DaredevilSmall.App.Frame
import DaredevilSmall.Csec.Single

/-!
# What the application sends, on any engine

`poll_sensor` beside an engine about which nothing is assumed, any CAN controller
and any ADC and clock hardware. The peripheral logs the commands of the engine,
so what a frame contains is said in terms of the log.

1. `exec_pollSensor_inv`: all that `poll_sensor` can do. Either its three commands
   report `NoError` and it goes on with `transmit`, or it stops at the first that
   does not, and the CAN controller is not accessed.
2. `audit_run`: over a run of any length, three commands in the log for each
   payload, and nothing else.
3. `sealed_frames`: both together.
-/

namespace App

open Mmio Data FrameLemmas SystemLemmas

section

variable {σ ε κ α : Type}

/-- The commands behind one payload: random bytes, an encryption under them, and a
MAC of both. All three report `NoError`, each is handed what the one before has
replied, and the payload is made of the three replies. -/
structure Sealed (values : Readings) (rng enc mac : Csec.Issued) (payload : List Byte) :
    Prop where
  noError : rng.NoError ∧ enc.NoError ∧ mac.NoError
  rngHanded : rng.request 0 = Csec.headerWord .rng .copy .first .secretKey
  encHanded : Csec.CbcHanded .encCbc (encoded values)
    (array16 (slice rng.reply Csec.page1Offset 16)) enc.request
  macHanded : Csec.MacHanded
    (slice rng.reply Csec.page1Offset 16 ++ slice enc.reply Csec.page2Offset 16) mac.request
  payload : payload = slice mac.reply Csec.page2Offset 16 ++
    (slice rng.reply Csec.page1Offset 16 ++ slice enc.reply Csec.page2Offset 16)

/-- The commands of a `poll_sensor` that does not get to `transmit`. There is none if the
ADC does not return. If it does, there are at most three, and all but the last report
`NoError`. -/
inductive Stopped (board : Hw BoardReg σ) (b : σ) : List Csec.Issued → Prop
  | adc : (∀ values, (execRead board b).1 ≠ .done values) → Stopped board b []
  | engine {values : Readings} (before : List Csec.Issued) {i : Csec.Issued} :
      (execRead board b).1 = .done values → before.length < 3 → (∀ j ∈ before, j.NoError) →
      ¬ i.NoError → Stopped board b (before ++ [i])

variable {board : Hw BoardReg σ} {E : Csec.Engine ε} {can : Hw Can.CanReg κ} {b : σ}
  {c : Csec.Cse ε} {k : κ}

namespace FailStopLemmas

theorem unwrap_panics {r : Except Csec.CommandResult α} (h : r.isOk = false)
    (f : α → Program Unit) : ∃ e, (unwrap r >>= f) = .panic e := by
  cases r with
  | error e => exact ⟨_, rfl⟩
  | ok a => cases h

/-- A call of the engine whose result is unwrapped. The application goes on if the command
has reported `NoError`, and stops otherwise. -/
theorem exec_answers {p : Csec.Driver α} {request : Csec.Pram → Prop} {value : Csec.Pram → α}
    {ok : α → Bool} {i : Csec.Issued} {f : α → Program Unit}
    {r : Outcome Unit × σ × Csec.Cse ε × κ}
    (hans : Csec.Answers c request value ok (exec (Csec.cseHw E) p c) i)
    (hf : ∀ a, ok a = false → ∃ e, f a = .panic e)
    (h : exec (systemHw board E can) (onCsec p >>= f) (b, c, k) = r) :
    ∃ c' : Csec.Cse ε, c'.issued = c.issued ++ [i] ∧
      ((i.NoError ∧ exec (systemHw board E can) (f (value i.reply)) (b, c', k) = r) ∨
        (¬ i.NoError ∧ ∃ out, out ≠ .done () ∧ r = (out, b, c', k))) := by
  refine ⟨_, hans.issued, ?_⟩
  by_cases hok : i.NoError
  · rw [exec_onCsec_of (hans.returns hok)] at h
    exact Or.inl ⟨hok, h⟩
  · refine Or.inr ⟨hok, ?_⟩
    rw [exec_bind, exec_onCsec] at h
    cases hout : (exec (Csec.cseHw E) p c).1 with
    | done a =>
      obtain ⟨e, he⟩ := hf a (hans.fails hok a hout)
      rw [hout, andThen_done, he] at h
      exact ⟨.panicked e, by simp, h.symm⟩
    | panicked e =>
      rw [hout] at h
      exact ⟨.panicked e, by simp, h.symm⟩
    | hung =>
      rw [hout] at h
      exact ⟨.hung, by simp, h.symm⟩

theorem array16_bytes {bytes : List Byte} (h : bytes.length = 16) :
    (array16 bytes).toList = bytes := by
  apply List.ext_getElem
  · rw [Vector.length_toList, h]
  · intro i hi hi'
    simp [array16, List.getElem?_eq_getElem hi']

end FailStopLemmas

open FailStopLemmas

/-- All that `poll_sensor` can do. -/
theorem exec_pollSensor_inv {r : Outcome Unit × σ × Csec.Cse ε × κ}
    (h : exec (systemHw board E can) pollSensor (b, c, k) = r) :
    (∃ log out b' c', Stopped board b log ∧ c'.issued = c.issued ++ log ∧ out ≠ .done () ∧
      r = (out, b', c', k)) ∨
    ∃ values rng enc mac payload b' c', execRead board b = (.done values, b') ∧
      Sealed values rng enc mac payload ∧ c'.issued = c.issued ++ [rng, enc, mac] ∧
      exec (systemHw board E can) (onCan (Can.transmit payload)) (b', c', k) = r := by
  rw [pollSensor, exec_bind, exec_onAdc_read] at h
  cases hread : execRead board b with
  | mk out b' =>
    have hstopped (hout : ∀ values, out ≠ .done values) : Stopped board b [] :=
      .adc fun values hv => hout values (by rw [← hv, hread])
    rw [hread] at h
    cases out with
    | panicked p =>
      exact Or.inl ⟨[], .panicked p, b', c, hstopped (by simp), (List.append_nil _).symm,
        by simp, h.symm⟩
    | hung =>
      exact Or.inl ⟨[], .hung, b', c, hstopped (by simp), (List.append_nil _).symm, by simp,
        h.symm⟩
    | done values =>
      have hvalues : (execRead board b).1 = .done values := congrArg Prod.fst hread
      simp only [andThen_done, u8ArrayFrom16Array_values, Prog.done_bind] at h
      -- the initialization vector
      obtain ⟨rng, hrng⟩ := Csec.generateRnd_answers (E := E) (c := c)
      obtain ⟨c₁, hlog₁, ⟨hok₁, h₁⟩ | ⟨hno, out, hout, rfl⟩⟩ :=
        exec_answers hrng (fun _ hr => unwrap_panics hr _) h
      case inr =>
        exact Or.inl ⟨[rng], out, b', c₁, .engine [] hvalues (by decide) (by simp) hno, hlog₁,
          hout, rfl⟩
      obtain ⟨iv, hiv⟩ : ∃ iv, slice rng.reply Csec.page1Offset 16 = iv := ⟨_, rfl⟩
      have hivlen : iv.length = 16 := by rw [← hiv, slice_length]
      have hzerolen : (List.replicate 16 (0 : Byte)).length = 16 := List.length_replicate
      obtain ⟨hfill₁, _, _⟩ := cloneFromSlice_payload hivlen hzerolen hzerolen
      simp only [unwrap, Prog.pure_eq, Prog.done_bind, hiv, hfill₁] at h₁
      -- the encryption
      obtain ⟨enc, henc⟩ := Csec.handleCbc_answers (E := E) (c := c₁)
        (show Csec.Command.encCbc.implemented = true from rfl) (array16 iv)
        (hzerolen.trans (encoded_length values).symm) (by rw [encoded_length])
        (by rw [encoded_length]; decide)
      rw [encoded_length] at henc
      obtain ⟨c₂, hlog₂, ⟨hok₂, h₂⟩ | ⟨hno, out, hout, rfl⟩⟩ :=
        exec_answers henc (fun _ hr => unwrap_panics hr _) h₁
      case inr =>
        rw [hlog₁, List.append_assoc] at hlog₂
        exact Or.inl ⟨[rng, enc], out, b', c₂, .engine [rng] hvalues (by simp)
          (by simpa using hok₁) hno, hlog₂, hout, rfl⟩
      obtain ⟨encrypted, hencrypted⟩ : ∃ e, slice enc.reply Csec.page2Offset 16 = e := ⟨_, rfl⟩
      have henclen : encrypted.length = 16 := by rw [← hencrypted, slice_length]
      obtain ⟨_, hfill₂, _⟩ := cloneFromSlice_payload hivlen henclen hzerolen
      simp only [unwrap, Prog.pure_eq, Prog.done_bind, hencrypted, hfill₂] at h₂
      -- the MAC
      have hsigned : (iv ++ encrypted).length ≤ Csec.maxBytes := by
        rw [List.length_append, hivlen, henclen]
        decide
      obtain ⟨mac, hmac⟩ := Csec.generateMac_answers (E := E) (c := c₂) hsigned
      obtain ⟨c₃, hlog₃, ⟨hok₃, h₃⟩ | ⟨hno, out, hout, rfl⟩⟩ :=
        exec_answers hmac (fun _ hr => unwrap_panics hr _) h₂
      case inr =>
        rw [hlog₂, hlog₁, List.append_assoc, List.append_assoc] at hlog₃
        exact Or.inl ⟨[rng, enc, mac], out, b', c₃, .engine [rng, enc] hvalues (by simp)
          (by simpa using ⟨hok₁, hok₂⟩) hno, hlog₃, hout, rfl⟩
      have hmaclen : (slice mac.reply Csec.page2Offset 16).length = 16 := slice_length _ _ _
      obtain ⟨_, _, hfill₃⟩ := cloneFromSlice_payload hivlen henclen hmaclen
      simp only [unwrap, Prog.pure_eq, Prog.done_bind, hfill₃] at h₃
      rw [hlog₂, hlog₁, List.append_assoc, List.append_assoc] at hlog₃
      refine Or.inr ⟨values, rng, enc, mac, _, b', c₃, rfl, ?_, hlog₃, h₃⟩
      exact ⟨⟨hok₁, hok₂, hok₃⟩, hrng.request, hiv ▸ henc.request,
        by rw [hiv, hencrypted]; exact hmac.request, by rw [hiv, hencrypted]⟩

/-! ## Runs -/

/-- The two commands of `init`. -/
structure Keyed (key : Csec.Block) (rng load : Csec.Issued) : Prop where
  noError : rng.NoError ∧ load.NoError
  rng : rng.request 0 = Csec.headerWord .initRng .copy .first .secretKey
  load : load.request 0 = Csec.headerWord .loadPlainKey .copy .first .ramKey ∧
    slice load.request Csec.page1Offset 16 = key.toList

/-- `Audit readings log payloads`: the commands in `log` are those behind the
payloads, three for each. -/
inductive Audit : List Readings → List Csec.Issued → List (List Byte) → Prop
  | nil : Audit [] [] []
  | snoc {readings : List Readings} {log : List Csec.Issued} {payloads : List (List Byte)}
      {values : Readings} {rng enc mac : Csec.Issued} {payload : List Byte} :
      Audit readings log payloads → Sealed values rng enc mac payload →
      Audit (readings ++ [values]) (log ++ [rng, enc, mac]) (payloads ++ [payload])

variable {resetScg : Scg.ScgReg → Word} {resetCan : Can.CanReg → Word} {key : Csec.Block}
  {s₀ s s' : σ × Csec.Cse ε × κ} {readings : List Readings}

namespace FailStopLemmas

theorem exec_init_inv
    (h : exec (systemHw board E can) (init resetScg resetCan key) s₀ = (.done (), s)) :
    ∃ rng load, Keyed key rng load ∧ s.2.1.issued = s₀.2.1.issued ++ [rng, load] ∧
      exec can (Can.init resetCan) s₀.2.2 = (.done (), s.2.2) := by
  obtain ⟨b, k, hcan, hcsec⟩ := exec_init_csec h
  obtain ⟨rng, hrng⟩ := Csec.initRng_answers (E := E) (c := s₀.2.1)
  obtain ⟨c₁, hlog₁, ⟨hok₁, h₁⟩ | ⟨_, _, hout, hstop⟩⟩ :=
    exec_answers hrng (fun _ hr => unwrap_panics hr _) hcsec
  case inr => exact absurd (congrArg Prod.fst hstop).symm hout
  obtain ⟨load, hload⟩ := Csec.loadPlainkey_answers (E := E) (c := c₁) key
  have hlast (r : Except Csec.CommandResult Unit) (hr : r.isOk = false) :
      ∃ e, (unwrap r : Program Unit) = .panic e := by
    cases r with
    | error e => exact ⟨_, rfl⟩
    | ok u => cases hr
  obtain ⟨c₂, hlog₂, ⟨hok₂, h₂⟩ | ⟨_, _, hout, hstop⟩⟩ := exec_answers hload hlast h₁
  case inr => exact absurd (congrArg Prod.fst hstop).symm hout
  obtain ⟨_, rfl⟩ := Prod.mk.inj h₂
  refine ⟨rng, load, ⟨⟨hok₁, hok₂⟩, hrng.request, hload.request⟩, ?_, hcan⟩
  rw [hlog₂, hlog₁, List.append_assoc]
  rfl

/-- One call of `transmit` more. -/
theorem exec_transmits_snoc {can : Hw Can.CanReg κ} {payloads : List (List Byte)} {k k' : κ}
    (h : exec can (Can.transmits payloads) k = (.done (), k')) (payload : List Byte) :
    exec can (Can.transmits (payloads ++ [payload])) k = exec can (Can.transmit payload) k' := by
  induction payloads generalizing k with
  | nil =>
    obtain ⟨_, rfl⟩ := Prod.mk.inj h
    rw [List.nil_append, Can.transmits, exec_bind]
    cases exec can (Can.transmit payload) k with
    | mk out k₁ => cases out <;> rfl
  | cons p payloads ih =>
    obtain ⟨_, _, hp, hrest⟩ := exec_bind_done _ h
    rw [List.cons_append, Can.transmits, exec_bind_of _ hp]
    exact ih hrest

end FailStopLemmas

/-- Over a run, three commands for each payload and nothing else. -/
theorem audit_run (h : SystemRun board E can resetScg resetCan key s₀ s readings) :
    ∃ rng load log payloads k₁, Keyed key rng load ∧ Audit readings log payloads ∧
      s.2.1.issued = s₀.2.1.issued ++ [rng, load] ++ log ∧
      exec can (Can.init resetCan) s₀.2.2 = (.done (), k₁) ∧
      exec can (Can.transmits payloads) k₁ = (.done (), s.2.2) := by
  induction h with
  | init h =>
    obtain ⟨rng, load, hkeyed, hissued, hinit⟩ := exec_init_inv h
    exact ⟨rng, load, [], [], _, hkeyed, .nil, by rw [hissued, List.append_nil], hinit, rfl⟩
  | @poll s s' b values readings _ hread hpoll ih =>
    obtain ⟨rng₀, load, log, payloads, k₁, hkeyed, haudit, hissued, hinit, htransmits⟩ := ih
    obtain ⟨b₀, c, k⟩ := s
    rcases exec_pollSensor_inv hpoll with
      ⟨_, _, _, _, _, _, hout, hstop⟩ |
      ⟨values', rng, enc, mac, payload, b', c', hread', hsealed, hlog, htransmit⟩
    · exact absurd (congrArg Prod.fst hstop).symm hout
    · obtain ⟨hvalues, _⟩ := Prod.mk.inj (hread.symm.trans hread')
      obtain rfl := Outcome.done.inj hvalues
      rw [exec_onCan] at htransmit
      obtain ⟨hdone, rfl⟩ := Prod.mk.inj htransmit
      refine ⟨rng₀, load, log ++ [rng, enc, mac], payloads ++ [payload], k₁, hkeyed,
        haudit.snoc hsealed, ?_, hinit, ?_⟩
      · rw [hlog, hissued, List.append_assoc]
      · rw [exec_transmits_snoc htransmits]
        exact exec_eq_done _ hdone

end

open FailStopLemmas

/-- For any engine, ADC, clock and CAN hardware, any run of `init` and then of
`poll_sensor`, and a last `poll_sensor` that may end in any way: the engine has
been handed two commands by `init` and three for each payload, one after the
other, all without error. The CAN controller has been accessed by `CAN::init` and by
`transmit` with these payloads. In the last `poll_sensor` it is accessed by `transmit`
with one payload more, made of the values that the ADC has returned, or not at all: then
the ADC has not returned and the engine has been handed nothing, or one of the commands
for the payload has failed and is the last. -/
theorem sealed_frames {σ ε κ : Type} (board : Hw BoardReg σ) (E : Csec.Engine ε)
    (can : Hw Can.CanReg κ) (resetScg : Scg.ScgReg → Word) (resetCan : Can.CanReg → Word)
    (key : Csec.Block) (s₀ s s' : σ × Csec.Cse ε × κ) (readings : List Readings)
    (h : SystemRun board E can resetScg resetCan key s₀ s readings) (out : Outcome Unit)
    (hlast : exec (systemHw board E can) pollSensor s = (out, s')) :
    (∃ rng load log payloads k₁, Keyed key rng load ∧ Audit readings log payloads ∧
      s.2.1.issued = s₀.2.1.issued ++ [rng, load] ++ log ∧
      exec can (Can.init resetCan) s₀.2.2 = (.done (), k₁) ∧
      exec can (Can.transmits payloads) k₁ = (.done (), s.2.2)) ∧
    ((∃ log, Stopped board s.1 log ∧ s'.2.1.issued = s.2.1.issued ++ log ∧ out ≠ .done () ∧
        s'.2.2 = s.2.2) ∨
      ∃ values rng enc mac payload, execRead board s.1 = (.done values, s'.1) ∧
        Sealed values rng enc mac payload ∧
        s'.2.1.issued = s.2.1.issued ++ [rng, enc, mac] ∧
        exec can (Can.transmit payload) s.2.2 = (out, s'.2.2)) := by
  refine ⟨audit_run h, ?_⟩
  obtain ⟨b, c, k⟩ := s
  rcases exec_pollSensor_inv hlast with
    ⟨log, out', _, _, hstopped, hissued, hout, hstop⟩ |
    ⟨values, rng, enc, mac, payload, _, _, hread, hsealed, hlog, htransmit⟩
  · obtain ⟨rfl, rfl⟩ := Prod.mk.inj hstop
    exact Or.inl ⟨log, hstopped, hissued, hout, rfl⟩
  · rw [exec_onCan] at htransmit
    obtain ⟨rfl, rfl⟩ := Prod.mk.inj htransmit
    exact Or.inr ⟨values, rng, enc, mac, payload, hread, hsealed, hlog, rfl⟩

/-- An engine that leaves the data of every command alone, and fails at the tenth. -/
def sampleFailing : Csec.Engine Nat :=
  Csec.Engine.scripted fun n => if n = 9 then .memoryFailure else .noError

/-- Two calls of `poll_sensor`, and a third one that is stopped at its second command. -/
theorem sealed_frames_stopped :
    ∃ rng load log payloads last, Keyed plainkey rng load ∧
      Audit [sampleReadings 0, sampleReadings 4] log payloads ∧
      (sampleAfter sampleFailing 0 2).2.1.issued = [rng, load] ++ log ∧
      Stopped sampleBoard (sampleAfter sampleFailing 0 2).1 last ∧ last.length = 2 ∧
      (sampleAfter sampleFailing 0 3).2.1.issued = [rng, load] ++ log ++ last ∧
      (sampleAfter sampleFailing 0 3).2.2 = (sampleAfter sampleFailing 0 2).2.2 := by
  have hread₀ : (execRead sampleBoard (sampleAfter sampleFailing 0 0).1).1 =
      .done (sampleReadings 0) := by
    decide +kernel
  have hread₁ : (execRead sampleBoard (sampleAfter sampleFailing 0 1).1).1 =
      .done (sampleReadings 4) := by
    decide +kernel
  have hinit := sample_init (E := sampleFailing) (e := 0) (by decide +kernel)
  have hpoll := sample_poll hinit hread₀ (by decide +kernel)
  have hrun := sample_poll hpoll hread₁ (by decide +kernel)
  have hcount : (sampleAfter sampleFailing 0 3).2.1.issued.length =
      (sampleAfter sampleFailing 0 2).2.1.issued.length + 2 := by
    decide +kernel
  obtain ⟨⟨rng, load, log, payloads, _, hkeyed, haudit, hissued, _⟩, hlast⟩ :=
    sealed_frames _ _ _ _ _ _ _ _ _ _ hrun _ (sample_last sampleFailing 0 2)
  rcases hlast with ⟨last, hstopped, hissued', _, hcan⟩ | ⟨_, _, _, _, _, _, _, hissued', _⟩
  · rw [hissued', List.length_append] at hcount
    exact ⟨rng, load, log, payloads, last, hkeyed, haudit, hissued, hstopped,
      Nat.add_left_cancel hcount, hissued'.trans (by rw [hissued]; rfl), hcan⟩
  · rw [hissued', List.length_append] at hcount
    exact absurd (Nat.add_left_cancel hcount) (Nat.succ_ne_self 2)

end App
