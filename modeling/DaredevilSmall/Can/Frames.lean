import DaredevilSmall.Can.Mailbox

/-!
# Frames on the bus

`transmit` copies its payload byte by byte into a buffer that may still be
active from the call before, since it does not wait until that frame has been
sent. The controller may take the frame at any point of the copying loop.

Results:
1. `transmits_outline`: what is known of the buffer at every point of successive
   calls, as long as no frame is taken while the payload is half copied.
2. `frames_whole`: then every frame carries the payload of one call.
3. `frames_torn`: a run in which a frame is taken in the middle of the loop, and
   carries bytes of two payloads.
-/

namespace Can

open Mmio

/-- The controller takes a frame, and not between the first and the last of the
`n` data bytes that a call copies. -/
def SendsUncut (n : Nat) (s s' : Controller) : Prop :=
  Sends s s' ∧ ¬ (0 < s.copied ∧ s.copied < n)

/-- The data of a buffer that holds the payload of one of the calls. Behind it
the buffer still holds `rest`. -/
def Whole (payloads : List (List Byte)) (rest data : List Byte) : Prop :=
  ∃ payload ∈ payloads, data = payload.take maxMsgLength ++ rest

/-- Every frame put on the bus carries the payload of one of the calls. -/
def WholeFrames (payloads : List (List Byte)) (rest : List Byte) (s : Controller) : Prop :=
  ∀ f ∈ s.frames, f.id = txId ∧ Whole payloads rest f.data

variable {payloads : List (List Byte)} {len : Nat} {rest : List Byte}

namespace FramesLemmas

/-- A buffer that has all the bytes of a call copied into it is whole. -/
theorem whole_of_copied (hlen : ∀ p ∈ payloads, p.length = len) {payload : List Byte}
    (hmem : payload ∈ payloads) {data : List Byte}
    (htake : data.take (min maxMsgLength len) = payload.take (min maxMsgLength len))
    (hdrop : data.drop (min maxMsgLength len) = rest) : Whole payloads rest data := by
  refine ⟨payload, hmem, ?_⟩
  have hcopied : payload.take (min maxMsgLength len) = payload.take maxMsgLength := by
    rw [← hlen payload hmem, ← List.take_take, List.take_length]
  rw [← hcopied, ← htake, ← hdrop, List.take_append_drop]

theorem wholeFrames_send {s : Controller} (hframes : WholeFrames payloads rest s)
    (hid : s.ram 1 = txId) (hwhole : Whole payloads rest s.data) :
    WholeFrames payloads rest s.send := by
  intro f hf
  rcases List.mem_append.mp hf with hold | hnew
  · exact hframes f hold
  · obtain rfl := List.mem_singleton.mp hnew
    exact ⟨hid, hwhole⟩

end FramesLemmas

open FramesLemmas

/-- Between two calls: an active buffer holds the payload of one call. -/
def between (payloads : List (List Byte)) (n : Nat) (rest : List Byte) :
    Assertion (SendsUncut n) (WholeFrames payloads rest) where
  holds s := WholeFrames payloads rest s ∧ s.data.drop n = rest ∧
    (s.code = Controller.active → s.ram 1 = txId ∧ Whole payloads rest s.data)
  stable := by
    rintro s _ ⟨⟨hactive⟩, _⟩ ⟨hframes, hrest, hwhole⟩
    obtain ⟨hid, hdata⟩ := hwhole hactive
    refine ⟨wholeFrames_send hframes hid hdata, by rwa [s.data_send], ?_⟩
    exact fun hactive' => absurd hactive' s.code_send
  safe s hs := hs.1

/-- In a call, with `i` bytes of its payload copied. Before the first of them the
buffer may still be active with the payload of an earlier call. -/
def filling (hlen : ∀ p ∈ payloads, p.length = len) (rest : List Byte) {payload : List Byte}
    (hmem : payload ∈ payloads) (i : Nat) :
    Assertion (SendsUncut (min maxMsgLength len)) (WholeFrames payloads rest) where
  holds s := WholeFrames payloads rest s ∧ s.data.drop (min maxMsgLength len) = rest ∧
    s.ram 1 = txId ∧ s.copied = i ∧ i ≤ min maxMsgLength len ∧
    s.data.take i = payload.take i ∧
    (i = 0 → s.code = Controller.active → Whole payloads rest s.data)
  stable := by
    rintro s _ ⟨⟨hactive⟩, huncut⟩ ⟨hframes, hrest, hid, rfl, hle, htake, hfirst⟩
    have hdata : Whole payloads rest s.data := by
      rcases Nat.eq_zero_or_pos s.copied with hzero | hpos
      · exact hfirst hzero hactive
      · have hall : s.copied = min maxMsgLength len :=
          Nat.le_antisymm hle (Nat.not_lt.mp fun hlt => huncut ⟨hpos, hlt⟩)
        rw [hall] at htake
        exact whole_of_copied hlen hmem htake hrest
    refine ⟨wholeFrames_send hframes hid hdata, by rwa [s.data_send],
      (s.send_ram (by decide)).trans hid, rfl, hle, by rwa [s.data_send], ?_⟩
    exact fun _ hactive' => absurd hactive' s.code_send
  safe s hs := hs.1

/-! ## One call -/

section

variable (hlen : ∀ p ∈ payloads, p.length = len) {payload : List Byte} (hmem : payload ∈ payloads)

/-- The ID is written while the buffer may still be active. -/
theorem filling_store_id {s : Controller}
    (h : (between payloads (min maxMsgLength len) rest).holds s) :
    (filling hlen rest hmem 0).holds (s.store 1 txId) := by
  obtain ⟨hframes, hrest, hwhole⟩ := h
  have hdata := s.data_store (n := 1) (Or.inl (by decide)) txId
  refine ⟨hframes, by rwa [hdata], s.store_ram_self 1 txId, rfl, Nat.zero_le _, rfl, ?_⟩
  intro _ hactive
  rw [s.code_store (by decide)] at hactive
  rw [hdata]
  exact (hwhole hactive).2

/-- One more byte is written to the buffer. -/
theorem filling_store_byte {i : Nat} (hi : i < min maxMsgLength len) (hword : 2 + i / 4 < 128)
    (hpos : i < payload.length) {s : Controller} (h : (filling hlen rest hmem i).holds s) :
    (filling hlen rest hmem (i + 1)).holds
      (s.store ⟨2 + i / 4, hword⟩ (dataByte (i % 4) payload[i] (s.ram ⟨2 + i / 4, hword⟩))) := by
  obtain ⟨hframes, hrest, hid, hcopied, _, htake, _⟩ := h
  have hdata := s.data_store_dataByte hword payload[i]
  have hlt : i < 64 := Nat.lt_of_lt_of_le hi (Nat.min_le_left _ _)
  refine ⟨hframes, ?_, ?_, ?_, hi, ?_, fun hzero => absurd hzero (Nat.succ_ne_zero i)⟩
  · rw [hdata, List.drop_set_of_lt hi, hrest]
  · exact (s.store_ram (fun h => absurd (Fin.val_eq_of_eq h) (by simp; omega)) _).trans hid
  · rw [s.store_copied (Fin.le_def.mpr (Nat.le_add_right 2 _)) (Fin.lt_def.mpr (by simp; omega)),
      hcopied]
  · rw [hdata, List.take_add_one, List.take_add_one, List.take_set_of_le (Nat.le_refl i), htake,
      List.getElem?_set_self (by rwa [s.data_length]), List.getElem?_eq_getElem hpos]

/-- The buffer is activated with the whole payload in it. -/
theorem between_store_activate {s : Controller}
    (h : (filling hlen rest hmem (min maxMsgLength len)).holds s) :
    (between payloads (min maxMsgLength len) rest).holds (s.store 0 txActivate) := by
  obtain ⟨hframes, hrest, hid, _, _, htake, _⟩ := h
  have hdata := s.data_store (n := 0) (Or.inl (by decide)) txActivate
  refine ⟨hframes, by rwa [hdata], fun _ => ⟨?_, ?_⟩⟩
  · exact (s.store_ram (by decide) _).trans hid
  · rw [hdata]
    exact whole_of_copied hlen hmem htake hrest

theorem writeByte_outline {i : Nat} (hi : i < min maxMsgLength len) :
    Outline canHw (fun _ => filling hlen rest hmem (i + 1)) (filling hlen rest hmem i)
      (transmit.writeByte payload i) := by
  have hpos : i < payload.length := hlen payload hmem ▸ Nat.lt_of_lt_of_le hi (Nat.min_le_right _ _)
  have hlt : i < 64 := Nat.lt_of_lt_of_le hi (Nat.min_le_left _ _)
  have hword : 2 + i / 4 < 128 := by omega
  have hne : (⟨2 + i / 4, hword⟩ : Fin 128) ≠ 0 := by
    intro h
    exact absurd (Fin.val_eq_of_eq h) (by simp)
  rw [writeByte_eq hpos hword]
  -- between the read and the write of the word the frame may still be taken
  refine .read (fun v => (filling hlen rest hmem i).and (fun s => s.ram ⟨2 + i / 4, hword⟩ = v) ?_)
    (fun s hs => ⟨hs, rfl⟩) fun v => ?_
  · rintro s _ ⟨⟨_⟩, _⟩ hv
    rwa [s.send_ram hne]
  refine .write (filling hlen rest hmem (i + 1)) ?_ (.done fun s hs => hs)
  rintro s ⟨hs, rfl⟩
  exact filling_store_byte hlen hmem hi hword hpos hs

end

/-- One call of `transmit`. -/
theorem transmit_outline (hlen : ∀ p ∈ payloads, p.length = len) {payload : List Byte}
    (hmem : payload ∈ payloads) :
    Outline canHw (fun _ => between payloads (min maxMsgLength len) rest)
      (between payloads (min maxMsgLength len) rest) (transmit payload) := by
  refine .write (between payloads (min maxMsgLength len) rest) (fun s hs => hs) ?_
  refine .write (filling hlen rest hmem 0) (fun s hs => filling_store_id hlen hmem hs) ?_
  rw [hlen payload hmem]
  refine (Outline.forRange (fun i _ => filling hlen rest hmem i)
    fun i hi _ => writeByte_outline hlen hmem hi).bind fun _ => ?_
  exact .write _ (fun s hs => between_store_activate hlen hmem hs) (.done fun s hs => hs)

/-! ## Successive calls -/

/-- Successive calls, each with a payload of `len` bytes. -/
theorem transmits_outline (hlen : ∀ p ∈ payloads, p.length = len) {calls : List (List Byte)}
    (hcalls : ∀ p ∈ calls, p ∈ payloads) :
    Outline canHw (fun _ => between payloads (min maxMsgLength len) rest)
      (between payloads (min maxMsgLength len) rest) (transmits calls) := by
  induction calls with
  | nil => exact .done fun s hs => hs
  | cons payload calls ih =>
    refine (transmit_outline hlen (hcalls payload List.mem_cons_self)).bind fun _ => ?_
    exact ih fun p hp => hcalls p (List.mem_cons_of_mem payload hp)

/-- For every sequence of calls with payloads of equal length, from a buffer that
is not active, and for every interleaving in which no frame is taken between the
first and the last data byte of a call: every frame put on the bus carries the
payload of one call. The bytes behind the payload are those from before the first
call. -/
theorem frames_whole (payloads : List (List Byte)) (len : Nat)
    (hlen : ∀ p ∈ payloads, p.length = len) (s : Controller) (hcode : s.code ≠ Controller.active)
    (hnone : s.frames = []) (p : Driver Unit) (s' : Controller)
    (h : Run canHw (SendsUncut (min maxMsgLength len)) (transmits payloads, s) (p, s')) :
    ∀ f ∈ s'.frames, f.id = txId ∧ ∃ payload ∈ payloads,
      f.data = payload.take maxMsgLength ++ s.data.drop (min maxMsgLength len) := by
  have hstart : (between payloads (min maxMsgLength len)
      (s.data.drop (min maxMsgLength len))).holds s := by
    refine ⟨?_, rfl, fun hactive => absurd hactive hcode⟩
    rw [WholeFrames, hnone]
    exact fun f hf => nomatch hf
  exact ((transmits_outline hlen fun _ hp => hp).sound hstart h).1

/-- The payloads of the examples. -/
def samplePayloads : List (List Byte) := [[0x11, 0x12], [0x21, 0x22]]

/-- The frame of the first call is taken when the second call has begun, but has
not copied a byte yet. -/
theorem frames_whole_late :
    ∃ s' : Controller, s'.frames = [⟨txId, [0x11, 0x12] ++ List.replicate 62 0⟩] ∧
      ∀ f ∈ s'.frames, f.id = txId ∧ ∃ payload ∈ samplePayloads,
        f.data = payload.take maxMsgLength ++ Controller.reset.data.drop (min maxMsgLength 2) := by
  have hrun := (run_advance canHw (SendsUncut (min maxMsgLength 2)) 8 (transmits samplePayloads)
    .reset).tail (.tick ⟨.mk (by decide +kernel), by decide +kernel⟩)
  exact ⟨_, by decide +kernel, frames_whole samplePayloads 2 (by decide) .reset (by decide +kernel)
    rfl _ _ hrun⟩

/-- The frame of the first call is taken when the second call has copied its
first byte: the frame carries one byte of either payload. -/
theorem frames_torn :
    ∃ (payloads : List (List Byte)) (len : Nat) (s s' : Controller) (p : Driver Unit),
      (∀ p ∈ payloads, p.length = len) ∧ s.code ≠ Controller.active ∧ s.frames = [] ∧
        Run canHw Sends (transmits payloads, s) (p, s') ∧
        ¬ ∀ f ∈ s'.frames, ∃ payload ∈ payloads,
          f.data.take (min maxMsgLength len) = payload.take maxMsgLength := by
  have hrun := (run_advance canHw Sends 11 (transmits samplePayloads) .reset).tail
    (.tick (.mk (by decide +kernel)))
  refine ⟨samplePayloads, 2, .reset, _, _, by decide, by decide +kernel, rfl, hrun, ?_⟩
  decide +kernel

end Can
