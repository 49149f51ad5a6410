import DaredevilSmall.Can.Activation
import Mathlib.Data.List.Chain

/-!
# What stands behind the payload

A frame has 64 data bytes whatever the length of its payload. `CAN::init` clears
the buffer, and `transmit` writes as many bytes as its payload has, so behind a
payload the frame carries what the calls before have left there.

Results:
1. `transmits_activate`: what successive calls activate, for every interleaving
   with a controller that leaves the data words alone.
2. `activations_padded_iff`: these are the payloads padded with zeros exactly when
   no payload leaves anything but zeros behind the next one.
3. `frames_padded_iff`: the same of every state of every run after `CAN::init`, and
   the RAM behind the buffer is not written.
4. `frames_leak`: a short payload after a long one.
-/

namespace Can

open Mmio ActivationLemmas

/-- The data bytes that a payload is to be sent with: what is behind it is 0. -/
def padded (payload : List Byte) : List Byte :=
  payload.take maxMsgLength ++ List.replicate (maxMsgLength - payload.length) 0

/-- What successive calls activate, on a buffer that holds `data`. -/
def activations : List Byte → List (List Byte) → List (List Byte)
  | _, [] => []
  | data, payload :: payloads =>
    overlay data payload :: activations (overlay data payload) payloads

/-- Behind the payload `next`, `payload` leaves zeros only. -/
def LeavesZeros (payload next : List Byte) : Prop :=
  ∀ b ∈ (payload.take maxMsgLength).drop next.length, b = 0

/-- A word of RAM behind the buffer that the controller leaves alone keeps its
value, however many calls there are. -/
def KeepsRest (payloads : List (List Byte)) : Prop :=
  ∀ (tick : Controller → Controller → Prop) (n : Fin 128), 18 ≤ n →
    (∀ s s', tick s s' → s'.ram n = s.ram n) → ∀ (s s' : Controller) (p : Driver Unit),
    Run canHw tick (transmits payloads, s) (p, s') → s'.ram n = s.ram n

/-! ## The lists of data bytes -/

namespace PaddingLemmas

variable {payload next data : List Byte} {payloads : List (List Byte)}

theorem overlay_length (hlen : data.length = 64) : (overlay data payload).length = 64 := by
  unfold overlay maxMsgLength
  simp only [List.length_append, List.length_take, List.length_drop, hlen]
  omega

theorem padded_length : (padded payload).length = 64 := by
  unfold padded maxMsgLength
  simp only [List.length_append, List.length_take, List.length_replicate]
  omega

/-- On a padded payload the next one is padded if zeros only are left behind it. -/
theorem overlay_padded_iff : overlay (padded payload) next = padded next ↔
    LeavesZeros payload next := by
  have hdrop : (payload.take maxMsgLength).drop (min maxMsgLength next.length) =
      (payload.take maxMsgLength).drop next.length := by
    cases Nat.le_total maxMsgLength next.length with
    | inl hle =>
      rw [Nat.min_eq_left hle, List.drop_eq_nil_of_le (List.length_take_le _ _),
        List.drop_eq_nil_of_le (Nat.le_trans (List.length_take_le _ _) hle)]
    | inr hle => rw [Nat.min_eq_right hle]
  have hlen : ((padded payload).drop (min maxMsgLength next.length)).length =
      maxMsgLength - next.length := by
    rw [List.length_drop, padded_length, maxMsgLength]
    omega
  have hnext : padded next =
      next.take maxMsgLength ++ List.replicate (maxMsgLength - next.length) 0 := rfl
  rw [overlay, hnext, List.append_cancel_left_eq, List.eq_replicate_iff, and_iff_right hlen,
    LeavesZeros, ← hdrop, padded, List.drop_append]
  constructor
  · exact fun h b hb => h b (List.mem_append_left _ hb)
  · intro h b hb
    cases List.mem_append.mp hb with
    | inl hleft => exact h b hleft
    | inr hright => exact List.eq_of_mem_replicate (List.mem_of_mem_drop hright)

theorem activations_take (data : List Byte) (payloads : List (List Byte)) (n : Nat) :
    (activations data payloads).take n = activations data (payloads.take n) := by
  induction payloads generalizing data n with
  | nil => simp [activations]
  | cons payload payloads ih =>
    cases n with
    | zero => rfl
    | succ n => simp only [activations, List.take_succ_cons, ih]

theorem activations_padded_cons : activations (padded payload) payloads = payloads.map padded ↔
    List.IsChain LeavesZeros (payload :: payloads) := by
  induction payloads generalizing payload with
  | nil => simp [activations]
  | cons next payloads ih =>
    rw [activations, List.map_cons, List.cons.injEq, List.isChain_cons_cons, overlay_padded_iff]
    constructor
    · rintro ⟨hzero, hrest⟩
      rw [overlay_padded_iff.mpr hzero] at hrest
      exact ⟨hzero, ih.mp hrest⟩
    · rintro ⟨hzero, hchain⟩
      rw [overlay_padded_iff.mpr hzero]
      exact ⟨hzero, ih.mpr hchain⟩

end PaddingLemmas

open PaddingLemmas

/-- On a cleared buffer, all frames are padded with zeros exactly when no payload
leaves anything but zeros behind the next one. -/
theorem activations_padded_iff (payloads : List (List Byte)) :
    activations (List.replicate 64 0) payloads = payloads.map padded ↔
      List.IsChain LeavesZeros payloads := by
  have hnil : padded [] = List.replicate 64 0 := rfl
  rw [← hnil, activations_padded_cons]
  cases payloads with
  | nil => simp
  | cons payload payloads =>
    rw [List.isChain_cons_cons]
    exact and_iff_right fun b hb => absurd hb (by simp)

/-! ## Runs of successive calls -/

/-- The activations so far are the first ones of `all`. -/
def activating (all : List (List Byte)) :
    Assertion Leaves fun s : Controller => s.activated <+: all where
  holds s := s.activated <+: all
  stable := by
    rintro s s' ⟨_, hactivated⟩ h
    exact hactivated.symm ▸ h
  safe _ h := h

/-- Successive calls, on a buffer that holds `data`. -/
theorem transmits_activate {payloads all log : List (List Byte)} {data : List Byte}
    (hlen : data.length = 64) (hall : log ++ activations data payloads = all)
    (hlog : ∀ s : Controller, s.activated = log → s.activated <+: all) :
    Outline canHw (fun _ => activating all) (holdingWith data log hlog) (transmits payloads) := by
  induction payloads generalizing data log with
  | nil => exact .done fun s hs => hlog s hs.2
  | cons payload payloads ih =>
    have hnext : (log ++ [overlay data payload]) ++ activations (overlay data payload) payloads =
        all := by
      rw [List.append_assoc, List.singleton_append]
      exact hall
    have hsafe (s : Controller) (hs : s.activated = log ++ [overlay data payload]) :
        s.activated <+: all := ⟨_, hs ▸ hnext⟩
    exact (transmit_activatesWith hlen hlog hsafe).bind fun _ =>
      ih (overlay_length hlen) hnext hsafe

namespace PaddingLemmas

/-- The registers of `transmit`. -/
theorem within_transmit (payload : List Byte) :
    (transmit payload).Within fun r => ∀ n, r = .ram n → n < 18 := by
  have hbyte : ∀ i < min maxMsgLength payload.length, ∀ _ : Unit,
      (transmit.writeByte payload i).Within fun r => ∀ n, r = .ram n → n < 18 := by
    intro i hi _
    have hlt : i < 64 := Nat.lt_of_lt_of_le hi (Nat.min_le_left _ _)
    have hpos : i < payload.length := Nat.lt_of_lt_of_le hi (Nat.min_le_right _ _)
    have hword : 2 + i / 4 < 18 := by omega
    have hram : ∀ n, CanReg.ram ⟨2 + i / 4, Nat.lt_trans hword (by decide)⟩ = .ram n → n < 18 := by
      rintro n ⟨⟩
      exact Fin.lt_def.mpr hword
    rw [writeByte_eq hpos (Nat.lt_trans hword (by decide))]
    exact ⟨hram, fun _ => ⟨hram, trivial⟩⟩
  have hiflag : ∀ n, CanReg.iflag1 = .ram n → n < 18 := by
    intro n h
    cases h
  have hid : ∀ n, CanReg.ram 1 = .ram n → n < 18 := by
    rintro n ⟨⟩
    decide
  have hactivate : ∀ n, CanReg.ram 0 = .ram n → n < 18 := by
    rintro n ⟨⟩
    decide
  exact ⟨hiflag, hid, (within_forRange hbyte).bind fun _ => ⟨hactivate, trivial⟩⟩

theorem within_transmits (payloads : List (List Byte)) :
    (transmits payloads).Within fun r => ∀ n, r = .ram n → n < 18 := by
  induction payloads with
  | nil => trivial
  | cons payload payloads ih => exact (within_transmit payload).bind fun _ => ih

theorem keepsRest (payloads : List (List Byte)) : KeepsRest payloads := by
  intro tick n hn htick s s' p hrun
  let kept : Assertion tick fun s' => s'.ram n = s.ram n :=
    ⟨fun s' => s'.ram n = s.ram n, fun s₁ s₂ ht h => (htick s₁ s₂ ht).trans h, fun _ h => h⟩
  have houtline : Outline canHw (fun _ => kept) kept (transmits payloads) := by
    refine Outline.frame (within_transmits payloads) (fun r s₁ _ h => ?_) fun r v s₁ hr h => ?_
    · exact (congrArg (fun s => s.ram n) (read_state r s₁)).trans h
    · cases r with
      | ram m =>
        have hne : n ≠ m := Fin.ne_of_gt (Fin.lt_of_lt_of_le (hr m rfl) hn)
        exact (s₁.store_ram hne v).trans h
      | _ => exact h
  exact (houtline.sound rfl hrun).1

end PaddingLemmas

/-- After `CAN::init`, for every sequence of payloads and however the controller's
moves fall between the accesses: the frames activated so far are the payloads
padded with zeros, and the RAM behind the buffer is left alone, exactly when none
of these payloads leaves anything but zeros behind the next one. -/
theorem frames_padded_iff (reset : CanReg → Word) (payloads : List (List Byte))
    (s s₁ s' : Controller) (p : Driver Unit) (hnone : s.activated = [])
    (hinit : Run canHw Leaves (init reset, s) (.done (), s₁))
    (hrun : Run canHw Leaves (transmits payloads, s₁) (p, s')) :
    (s'.activated = (payloads.take s'.activated.length).map padded ∧ KeepsRest payloads) ↔
      List.IsChain LeavesZeros (payloads.take s'.activated.length) := by
  have hclear : (cleared 0).holds s := ⟨fun _ _ _ hn => absurd hn (Nat.not_lt_zero _), hnone⟩
  obtain ⟨hdata, hactivated⟩ := ((init_outline reset).sound hclear hinit).2 () rfl
  have hsafe (s : Controller) (hs : s.activated = []) :
      s.activated <+: activations (List.replicate 64 0) payloads :=
    hs ▸ List.nil_prefix
  obtain ⟨hframes, _⟩ := (transmits_activate (by simp) (List.nil_append _) hsafe).sound
    ⟨hdata, hactivated⟩ hrun
  have htake : s'.activated =
      activations (List.replicate 64 0) (payloads.take s'.activated.length) := by
    rw [← activations_take]
    exact List.prefix_iff_eq_take.mp hframes
  rw [and_iff_left (keepsRest payloads), ← activations_padded_iff, ← htake]

/-- A controller in freeze mode, as `CAN::init` waits for it. -/
def Controller.frozen : Controller := { Controller.reset with regs := fun _ => 1 <<< 24 }

/-- It completes `CAN::init` on its own. -/
theorem run_init_frozen : Run canHw Leaves (init fun _ => 0, Controller.frozen)
    (.done (), (exec canHw (init fun _ => 0) Controller.frozen).2) :=
  Run.of_done Leaves (by decide +kernel)

/-- Payloads that do not get shorter. -/
theorem frames_padded_growing :
    ∃ s' : Controller, s'.activated.length = 2 ∧ s'.activated = [padded [1], padded [2, 3]] := by
  have hrun : (exec canHw (transmits [[1], [2, 3]])
      (exec canHw (init fun _ => 0) Controller.frozen).2).1 = .done () := by decide +kernel
  have hlen : (exec canHw (transmits [[1], [2, 3]])
      (exec canHw (init fun _ => 0) Controller.frozen).2).2.activated.length = 2 := by
    decide +kernel
  have hchain : List.IsChain LeavesZeros [[1], [2, 3]] := by
    rw [List.isChain_cons_cons]
    exact ⟨fun b hb => absurd hb (by simp [maxMsgLength]), List.isChain_singleton _⟩
  have hpadded := (frames_padded_iff (fun _ => 0) [[1], [2, 3]] Controller.frozen _ _ _ rfl
    run_init_frozen (Run.of_done Leaves hrun)).mpr (by rw [hlen]; exact hchain)
  have hframes := hpadded.1
  rw [hlen] at hframes
  exact ⟨_, hlen, hframes⟩

/-- The second payload is shorter: its frame carries two bytes of the first one. -/
theorem frames_leak :
    ∃ s₁ s' : Controller,
      Run canHw Leaves (init fun _ => 0, Controller.frozen) (.done (), s₁) ∧
      Run canHw Leaves (transmits [[1, 2, 3], [4]], s₁) (.done (), s') ∧
      s'.activated = [padded [1, 2, 3], 4 :: 2 :: 3 :: List.replicate 61 0] ∧
      s'.activated ≠ [padded [1, 2, 3], padded [4]] := by
  have hrun : (exec canHw (transmits [[1, 2, 3], [4]])
      (exec canHw (init fun _ => 0) Controller.frozen).2).1 = .done () := by decide +kernel
  have hframes : (exec canHw (transmits [[1, 2, 3], [4]])
      (exec canHw (init fun _ => 0) Controller.frozen).2).2.activated =
        [padded [1, 2, 3], 4 :: 2 :: 3 :: List.replicate 61 0] := by
    decide +kernel
  refine ⟨_, _, run_init_frozen, Run.of_done Leaves hrun, hframes, ?_⟩
  rw [hframes]
  decide

end Can
