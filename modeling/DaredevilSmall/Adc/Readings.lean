import DaredevilSmall.Adc.Driver
import DaredevilSmall.Mmio.Interleave

/-!
# Which conversion a reading comes from

`converterHw` is the ADC beside the driver. A write to `SC1A` clears `COCO`,
aborts the conversion in progress and starts one on the channel written; a
conversion `Completes` at any later point between two accesses; a read of `RA`
clears `COCO`. Ghost fields number the conversions and log what `RA` held at
each read of it.

The wait of `read_adc` has the wrong polarity: it ends at the first read that
finds `COCO` clear. So `RA` is read before the conversion has completed, unless
it completes between the last two accesses of the iteration.

Results:
1. `readAdc_outline`: one iteration, from any state of the ADC.
2. `reading_iff`: for every run of `read`, an entry is the sample of its own
   sensor exactly when `COCO` was set at the read of `RA`.
3. `reading_stale`: a run in which every entry is the sample of one conversion,
   of an earlier call.
-/

namespace Adc

open Mmio

/-! ## The converter -/

/-- A conversion: its number, and the channel it converts. -/
structure Conversion where
  serial : Nat
  channel : Byte
  deriving DecidableEq, Repr

/-- One read of `RA`: its value, the conversion that the value is the sample of,
and whether `COCO` was set. -/
structure Reading where
  value : Word
  source : Option Conversion
  complete : Bool
  deriving DecidableEq, Repr

/-- The state of the ADC. `running` is the conversion in progress, `source` the
one whose sample is in `RA`; both are among the `started` so far. -/
structure Converter where
  regs : AdcReg → Word
  coco : Bool
  running : Option Conversion
  source : Option Conversion
  started : Nat
  readings : List Reading
  numbered : ∀ c, source = some c ∨ running = some c → c.serial < started

namespace Converter

/-- A write of `v` to `SC1A`. On channel `0x1F` the module is disabled. -/
def start (s : Converter) (v : Word) : Converter where
  regs := Function.update s.regs .sc1a v
  coco := false
  running := if getField v 0 5 = 0x1F then none
    else some ⟨s.started, (getField v 0 5).setWidth 8⟩
  source := s.source
  started := s.started + 1
  readings := s.readings
  numbered := by
    rintro c (hsource | hrunning)
    · exact Nat.lt_succ_of_lt (s.numbered c (Or.inl hsource))
    · split at hrunning
      · cases hrunning
      · cases hrunning
        exact Nat.lt_succ_self _

theorem start_running (s : Converter) {v : Word} (h : getField v 0 5 ≠ 0x1F) :
    (s.start v).running = some ⟨s.started, (getField v 0 5).setWidth 8⟩ := if_neg h

/-- The conversion in progress ends with the sample `v`. -/
def complete (s : Converter) (v : Word) : Converter where
  regs := Function.update s.regs .ra v
  coco := true
  running := none
  source := s.running
  started := s.started
  readings := s.readings
  numbered := by
    rintro c (hsource | hrunning)
    · exact s.numbered c (Or.inr hsource)
    · cases hrunning

/-- A read of `RA`. -/
def sample (s : Converter) : Converter where
  regs := s.regs
  coco := false
  running := s.running
  source := s.source
  started := s.started
  readings := s.readings ++ [⟨s.regs .ra, s.source, s.coco⟩]
  numbered := s.numbered

/-- A write to a register that starts nothing. -/
def store (s : Converter) (r : AdcReg) (v : Word) : Converter where
  regs := Function.update s.regs r v
  coco := s.coco
  running := s.running
  source := s.source
  started := s.started
  readings := s.readings
  numbered := s.numbered

end Converter

/-- The ADC as a peripheral with registers. -/
def converterHw : Hw AdcReg Converter where
  read
    | .sc1a, s => (setField (s.regs .sc1a) 7 1 (if s.coco then 1 else 0), s)
    | .ra, s => (s.regs .ra, s.sample)
    | r, s => (s.regs r, s)
  write
    | .sc1a, v, s => s.start v
    | .ra, _, s => s
    | r, v, s => s.store r v
  patience _ _ := 0

/-- A conversion completes. -/
inductive Completes : Converter → Converter → Prop
  | mk {s : Converter} {c : Conversion} (v : Word) :
      s.running = some c → Completes s (s.complete v)

/-- The reading is the sample of a conversion of `CHANNELS[i]`, started by
iteration `i` of a call that found `base` conversions started. Every iteration
writes `SC1A` twice. -/
def OwnSample (base i : Nat) (r : Reading) : Prop :=
  ∃ c, r.source = some c ∧ channels[i]? = some c.channel ∧
    base + 2 * i ≤ c.serial ∧ c.serial < base + 2 * (i + 1)

/-! ## One iteration -/

namespace ReadingsLemmas

theorem getField_cleared (w : Word) : getField (setField w 0 5 0) 0 5 = 0 :=
  getField_setField w 0 (by decide)

/-- The sensors are on channels of their own, and channel 0 is none of them. -/
theorem channels_enabled : ∀ j : Fin channelCount,
    getField (channels[j].setWidth 32) 0 5 ≠ 0x1F ∧
      (getField (channels[j].setWidth 32) 0 5).setWidth 8 = channels[j] ∧ channels[j] ≠ 0 := by
  decide

end ReadingsLemmas

open ReadingsLemmas

/-- Nothing has been started since `base`. What is known of the readings so far
is `past`. -/
def waiting (base : Nat) (past : List Reading → Prop) : Assertion Completes fun _ => True where
  holds s := s.started = base ∧ past s.readings
  stable := by
    rintro s _ ⟨v, _⟩ h
    exact h
  safe _ _ := trivial

/-- The first write to `SC1A` has started a conversion of channel 0. -/
def triggered (base : Nat) (past : List Reading → Prop) :
    Assertion Completes fun _ => True where
  holds s := s.started = base + 1 ∧ past s.readings ∧
    ∀ c, s.source = some c ∨ s.running = some c → c.serial < base ∨ c.channel = 0
  stable := by
    rintro s _ ⟨v, _⟩ ⟨hstarted, hpast, hold⟩
    refine ⟨hstarted, hpast, ?_⟩
    rintro c (hsource | hrunning)
    · exact hold c (Or.inr hsource)
    · cases hrunning
  safe _ _ := trivial

/-- The second write has started the conversion of channel `ch`. As long as
`COCO` is clear it is in progress and `RA` is left over from before; once `COCO`
is set `RA` is its sample. -/
def converting (base : Nat) (past : List Reading → Prop) (ch : Byte) :
    Assertion Completes fun _ => True where
  holds s := s.started = base + 2 ∧ past s.readings ∧
    match s.coco with
    | false => s.running = some ⟨base + 1, ch⟩ ∧
        ∀ c, s.source = some c → c.serial < base ∨ c.channel = 0
    | true => s.running = none ∧ s.source = some ⟨base + 1, ch⟩
  stable := by
    rintro s _ ⟨v, hrunning⟩ ⟨hstarted, hpast, hphase⟩
    refine ⟨hstarted, hpast, ?_⟩
    cases hcoco : s.coco with
    | false =>
      rw [hcoco] at hphase
      exact ⟨rfl, hphase.1⟩
    | true =>
      rw [hcoco] at hphase
      exact absurd (hphase.1.symm.trans hrunning) (by simp)
  safe _ _ := trivial

/-- The readings end with one that has the scaled value `value` and is a sample
of channel `ch` exactly when it was complete. -/
def Sampled (base : Nat) (past : List Reading → Prop) (ch : Byte) (value : Halfword)
    (readings : List Reading) : Prop :=
  ∃ log r, readings = log ++ [r] ∧ past log ∧ value = scale r.value ∧
    ((∃ c, r.source = some c ∧ c.channel = ch ∧ base ≤ c.serial ∧ c.serial < base + 2) ↔
      r.complete = true)

/-- A read of `RA` while the conversion of the iteration is in progress or has
just completed. -/
theorem sampled_of_converting {base : Nat} {past : List Reading → Prop} {ch : Byte}
    (hch : ch ≠ 0) {s : Converter} (h : (converting base past ch).holds s) :
    (waiting (base + 2) (Sampled base past ch (scale (s.regs .ra)))).holds s.sample := by
  obtain ⟨hstarted, hpast, hphase⟩ := h
  refine ⟨hstarted, s.readings, _, rfl, hpast, rfl, ?_⟩
  cases hcoco : s.coco with
  | false =>
    rw [hcoco] at hphase
    refine ⟨?_, fun h => nomatch h⟩
    rintro ⟨c, hsource, rfl, hlo, _⟩
    rcases hphase.2 c hsource with hserial | hzero
    · exact absurd hserial (Nat.not_lt.mpr hlo)
    · exact absurd hzero hch
  | true =>
    rw [hcoco] at hphase
    exact ⟨fun _ => rfl, fun _ => ⟨_, hphase.2, rfl, Nat.le_succ base, Nat.lt_succ_self _⟩⟩

/-- The first write of an iteration starts a conversion of channel 0. -/
theorem triggered_start {base : Nat} {past : List Reading → Prop} {s : Converter}
    (h : (waiting base past).holds s) (v : Word) :
    (triggered base past).holds (s.start (setField v 0 5 0)) := by
  obtain ⟨hstarted, hpast⟩ := h
  refine ⟨congrArg (· + 1) hstarted, hpast, ?_⟩
  rintro c (hsource | hrunning)
  · exact Or.inl (hstarted ▸ s.numbered c (Or.inl hsource))
  · rw [s.start_running (by rw [getField_cleared]; decide), getField_cleared] at hrunning
    cases hrunning
    exact Or.inr rfl

/-- The second write starts the conversion of the sensor. -/
theorem converting_start {base : Nat} {past : List Reading → Prop} {s : Converter}
    (h : (triggered base past).holds s) (i : Fin channelCount) :
    (converting base past channels[i]).holds (s.start (channels[i].setWidth 32)) := by
  obtain ⟨henabled, hchannel, _⟩ := channels_enabled i
  obtain ⟨hstarted, hpast, hold⟩ := h
  refine ⟨congrArg (· + 1) hstarted, hpast, ?_, fun c hsource => hold c (Or.inl hsource)⟩
  rw [s.start_running henabled, hchannel, hstarted]

/-- One iteration, from any state of the ADC. -/
theorem readAdc_outline (i : Fin channelCount) (base : Nat) (past : List Reading → Prop) :
    Outline converterHw (fun value => waiting (base + 2) (Sampled base past channels[i] value))
      (waiting base past) (readAdc i) := by
  have hne : channels[i] ≠ 0 := (channels_enabled i).2.2
  simp only [readAdc, dif_pos i.isLt]
  refine .read (fun _ => waiting base past) (fun s hs => hs) fun v => ?_
  refine .write (triggered base past) (fun s hs => triggered_start hs v) ?_
  refine .write (converting base past channels[i]) (fun s hs => converting_start hs i) ?_
  refine .poll (converting base past channels[i]) (converting base past channels[i])
    (fun s hs => hs) (fun s hs _ => hs) (fun s hs _ => hs) ?_
  refine .read (fun v => waiting (base + 2) (Sampled base past channels[i] (scale v)))
    (fun s hs => sampled_of_converting hne hs) fun v => ?_
  exact .done fun s hs => hs

/-! ## The whole call -/

/-- The readings of the first `i` iterations of a call, and the entries they
give. -/
def Iterated (base : Nat) (log : List Reading) (i : Nat)
    (sensorValues : Vector Halfword channelCount) (readings : List Reading) : Prop :=
  ∃ call : List Reading, readings = log ++ call ∧ call.length = i ∧
    ∀ j (hj : j < call.length), sensorValues[j]? = some (scale call[j].value) ∧
      (OwnSample base j call[j] ↔ call[j].complete = true)

theorem ownSample_iff (base : Nat) (i : Fin channelCount) (r : Reading) :
    OwnSample base i r ↔ ∃ c, r.source = some c ∧ c.channel = channels[i] ∧
      base + 2 * i ≤ c.serial ∧ c.serial < base + 2 * i + 2 := by
  have hget : channels[(i : Nat)]? = some channels[i] := Vector.getElem?_eq_getElem i.isLt
  simp only [OwnSample, hget, Option.some.injEq, Nat.mul_succ, ← Nat.add_assoc,
    eq_comm (a := channels[i])]

theorem iterated_succ {base : Nat} {log readings : List Reading} (i : Fin channelCount)
    {sensorValues : Vector Halfword channelCount} {value : Halfword}
    (h : Sampled (base + 2 * i) (Iterated base log i sensorValues) channels[i] value readings) :
    Iterated base log (i + 1) (sensorValues.setIfInBounds i value) readings := by
  obtain ⟨_, r, rfl, ⟨call, rfl, hlen, hcall⟩, rfl, hown⟩ := h
  refine ⟨call ++ [r], List.append_assoc _ _ _, by simp [hlen], fun j hj => ?_⟩
  rw [List.length_append, List.length_singleton] at hj
  rcases Nat.lt_succ_iff_lt_or_eq.mp hj with hold | rfl
  · have hne : (i : Nat) ≠ j := hlen ▸ Nat.ne_of_gt hold
    rw [List.getElem_append_left hold, Vector.getElem?_setIfInBounds_ne hne]
    exact hcall j hold
  · rw [List.getElem_concat_length rfl, hlen, ownSample_iff]
    exact ⟨Vector.getElem?_setIfInBounds_self_of_lt i.isLt, hown⟩

/-- `read`, from any state of the ADC. -/
theorem read_outline (base : Nat) (log : List Reading) :
    Outline converterHw
      (fun values => waiting (base + 2 * channelCount) (Iterated base log channelCount values))
      (waiting base (Iterated base log 0 (Vector.replicate channelCount 0))) read := by
  refine Outline.forRange (fun i values => waiting (base + 2 * i) (Iterated base log i values))
    fun i hi values => ?_
  refine (readAdc_outline ⟨i, hi⟩ (base + 2 * i) (Iterated base log i values)).bind fun value => ?_
  exact .done fun s hs => ⟨hs.1, iterated_succ ⟨i, hi⟩ hs.2⟩

/-- For every earlier state of the ADC and every interleaving of completions with
the accesses of `read`: each entry is the scaled value of one read of `RA`, and
it is the sample of a conversion of its own sensor, started by its own iteration,
exactly when `COCO` was set at that read. -/
theorem reading_iff (s s' : Converter) (values : Vector Halfword channelCount)
    (h : Run converterHw Completes (read, s) (.done values, s')) :
    ∃ call : Vector Reading channelCount, s'.readings = s.readings ++ call.toList ∧
      ∀ i : Fin channelCount, values[i] = scale call[i].value ∧
        (OwnSample s.started i call[i] ↔ call[i].complete = true) := by
  have hstart : Iterated s.started s.readings 0 (Vector.replicate channelCount 0) s.readings :=
    ⟨[], (List.append_nil _).symm, rfl, fun j hj => absurd hj (Nat.not_lt_zero j)⟩
  obtain ⟨_, hdone⟩ := (read_outline s.started s.readings).sound ⟨rfl, hstart⟩ h
  obtain ⟨_, call, hreadings, hlen, hcall⟩ := hdone values rfl
  refine ⟨⟨call.toArray, hlen⟩, hreadings, fun i => ?_⟩
  obtain ⟨hvalue, hown⟩ := hcall i (Nat.lt_of_lt_of_eq i.isLt hlen.symm)
  rw [Vector.getElem?_eq_getElem i.isLt] at hvalue
  exact ⟨Option.some.inj hvalue, hown⟩

/-- The ADC after an earlier call: the last conversion was one of `PTC1`, with
the sample `v`. -/
def Converter.leftOver (v : Word) : Converter where
  regs := Function.update (fun _ => 0) .ra v
  coco := false
  running := none
  source := some ⟨7, ptc1⟩
  started := 8
  readings := []
  numbered := by
    rintro c (h | h)
    · cases h
      decide
    · cases h

/-- The conversion of the first iteration completes between its last two
accesses, the other three do not: the last three entries repeat the first. -/
theorem reading_shifted :
    ∃ s', Run converterHw Completes (read, .leftOver 0xfff)
        (.done (Vector.replicate channelCount (scale 0x123)), s') ∧
      ∃ call : Vector Reading channelCount, s'.readings = [] ++ call.toList ∧
        ∀ i : Fin channelCount,
          (Vector.replicate channelCount (scale 0x123))[i] = scale call[i].value ∧
          (OwnSample 8 i call[i] ↔ call[i].complete = true) := by
  have hrun : Run converterHw Completes (read, .leftOver 0xfff)
      (.done (Vector.replicate channelCount (scale 0x123)), _) :=
    ((run_advance converterHw Completes 4 read (.leftOver 0xfff)).tail
      (.tick (.mk (c := ⟨9, ptc17⟩) 0x123 rfl))).trans
      (Run.of_done Completes (by decide +kernel))
  exact ⟨_, hrun, reading_iff _ _ _ hrun⟩

/-- No conversion completes during the call: all four entries are the sample of
`PTC1` that an earlier call left behind. -/
theorem reading_stale :
    ∃ s s' : Converter, ∃ values : Vector Halfword channelCount,
      Run converterHw Completes (read, s) (.done values, s') ∧
        ¬ ∃ call : Vector Reading channelCount, s'.readings = s.readings ++ call.toList ∧
          ∀ i : Fin channelCount, values[i] = scale call[i].value ∧
            OwnSample s.started i call[i] := by
  have hdone : (exec converterHw read (.leftOver 0xfff)).1 =
      .done (Vector.replicate channelCount (scale 0xfff)) := by
    decide +kernel
  have hlog : (exec converterHw read (.leftOver 0xfff)).2.readings =
      List.replicate channelCount ⟨0xfff, some ⟨7, ptc1⟩, false⟩ := by
    decide +kernel
  refine ⟨.leftOver 0xfff, _, _, Run.of_done Completes hdone, ?_⟩
  rintro ⟨call, hreadings, hown⟩
  have hcall : call = Vector.replicate channelCount ⟨0xfff, some ⟨7, ptc1⟩, false⟩ := by
    apply Vector.toList_inj.mp
    exact hreadings.symm.trans hlog
  subst hcall
  obtain ⟨_, c, hsource, _, hserial, _⟩ := hown ⟨0, by decide⟩
  cases hsource
  exact absurd hserial (by decide)

end Adc
