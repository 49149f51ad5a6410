import DaredevilSmall.Csec.Reference.Requests

/-!
# MACs of the reference driver

`CSEC_DRV_GenerateMAC` and `CSEC_DRV_VerifyMAC` on the engine `she`, as chains of
commands. A message may be of any length in bits. The whole length is announced, so the
engine and the driver agree on the number of pages of any message.

1. `MacPoint` is the invariant: the engine expects what is left of the message.
   `MacPoint.more` is a command that leaves pages to come.
2. `ends_generateMac`: the call ends with the CMAC of the message.
3. `ends_verifyMac`: it ends with the verdict, unless the message ends on page 6 of its
   last command. Then it ends with a sequence error, as in the port: `ends_verifyMac_stale`.
-/

namespace Csec

namespace Reference

open Mmio Data She SheLemmas MacLemmas StepsLemmas RequestsLemmas

variable {P : Primitives} (latency : She → Pram → Nat)

/-- The state after a command that leaves more to come. -/
def State.onward (st : State) : State :=
  { st.launched.advance with errCode := .success, seq := .subsequent }

namespace MacChainLemmas

theorem proceed_generateMac {st : State} (h : st.cmd = .generateMac) (p : Pram) :
    st.proceed p =
      let st : State := { st.advance with seq := .subsequent }
      if st.index ≥ st.fullSize then
        { st.fill 0 (slice p page2Offset pageSizeInBytes) with cmdInProgress := false }
      else st := by
  simp only [State.proceed, h]

theorem proceed_verifyMac_more {st : State} (h : st.cmd = .verifyMac)
    (hwritten : st.macWritten = false) (hbusy : st.cmdInProgress = true) (p : Pram) :
    st.proceed p = { st.advance with seq := .subsequent } := by
  cases st
  subst h hwritten hbusy
  rfl

theorem proceed_verifyMac_last {st : State} (h : st.cmd = .verifyMac)
    (hwritten : st.macWritten = true) (p : Pram) :
    st.proceed p = { st.advance with
      seq := .subsequent
      cmdInProgress := false
      verifStatus := halfwordAt p macVerificationBitsOffset == 0 } := by
  cases st
  subst h hwritten
  rfl

end MacChainLemmas

open MacChainLemmas

/-! ## The commands -/

/-- The arguments of a MAC call, at one of its commands. -/
structure MacState (kind : MacKind) (st : State) : Prop where
  cmd : st.cmd = kind.command
  keyId : st.keyId = .ramKey
  length : st.inputBuff.length = st.fullSize.toNat
  bits : st.fullSize.toNat = (st.msgLen.toNat + 7) / 8
  index_le : st.index.toNat ≤ st.fullSize.toNat
  notWritten : st.cmd = .verifyMac → st.macWritten = false

namespace MacState

variable {kind : MacKind} {st : State}

theorem rest_length (h : MacState kind st) :
    st.rest.length = st.fullSize.toNat - st.index.toNat := by
  rw [State.rest, List.length_drop, h.length]

theorem isMac (h : MacState kind st) : st.cmd = .generateMac ∨ st.cmd = .verifyMac := by
  rw [h.cmd]
  cases kind with
  | generate => exact Or.inl rfl
  | verify _ => exact Or.inr rfl

theorem numBytes (h : MacState kind st) : st.numBytes.toNat = min 112 st.rest.length := by
  have hbytes : st.numBytes = Reference.numBytes st := by
    rw [State.numBytes]
    rcases h.isMac with hcmd | hcmd <;> rw [hcmd]
  have hsub : (st.fullSize - st.index).toNat = st.fullSize.toNat - st.index.toNat :=
    BitVec.toNat_sub_of_le (BitVec.le_def.mpr h.index_le)
  rw [hbytes, numBytes_toNat, hsub, h.rest_length]

theorem chunk (h : MacState kind st) : st.chunk st.numBytes = st.rest.take 112 := by
  rw [State.chunk, ← State.rest, h.numBytes]
  rcases Nat.le_total 112 st.rest.length with hle | hle
  · rw [Nat.min_eq_left hle]
  · rw [Nat.min_eq_right hle, List.take_length, List.take_of_length_le hle]

theorem macOffset (h : MacState kind st) :
    (macOffset st.numBytes).toNat = (min 112 st.rest.length + 15) / 16 * 16 := by
  rw [macOffset_toNat (numBytes_le st).1, h.numBytes]

/-- There is room for the MAC behind the bytes if page 7 is not needed. -/
theorem fits (h : MacState kind st) : st.fits = decide (st.rest.length ≤ 80) := by
  rw [State.fits, h.macOffset]
  simp only [pageSizeInBytes, show dataBytesAvailable.toNat = 112 from rfl]
  apply decide_eq_decide.mpr
  omega

theorem header (h : MacState kind st) :
    st.request.header = headerWord kind.command .copy st.seq (keyOf kind.command) := by
  rw [keyOf_command, State.request, h.cmd, h.keyId]

theorem apart (h : MacState kind st) : st.request.writes.Pairwise Apart := by
  have hchunk : (st.chunk st.numBytes).length ≤ min 112 st.rest.length := by
    rw [← h.numBytes]
    exact chunk_length_le _ _
  have hbits : macMessageLengthOffset + 4 ≤ page1Offset := by decide
  have hlen : macLengthOffset + 2 ≤ macMessageLengthOffset := by decide
  have hlen' : macLengthOffset + 2 ≤ page1Offset := by decide
  rcases h.isMac with hcmd | hcmd
  · simp only [State.request, hcmd, List.pairwise_cons, List.mem_singleton, forall_eq]
    exact ⟨Or.inr hbits, by simp⟩
  · have hoffset := h.macOffset
    cases hfits : st.fits with
    | false =>
      simp only [State.request, hcmd, hfits, Bool.false_eq_true, if_false, List.append_nil,
        List.pairwise_cons, List.mem_cons, forall_eq_or_imp]
      exact ⟨⟨Or.inr hbits, Or.inr hlen', by simp⟩, ⟨Or.inr hlen, by simp⟩, by simp⟩
    | true =>
      have hbehind : page1Offset + (st.chunk st.numBytes).length ≤
          page1Offset + (Reference.macOffset st.numBytes).toNat := by omega
      simp only [State.request, hcmd, hfits, if_true, List.cons_append, List.nil_append,
        List.pairwise_cons, List.mem_cons, forall_eq_or_imp]
      exact ⟨⟨Or.inr hbits, Or.inr hlen', Or.inl hbehind, by simp⟩,
        ⟨Or.inr hlen, Or.inl (Nat.le_add_right_of_le hbits), by simp⟩,
        ⟨Or.inl (Nat.le_add_right_of_le hlen'), by simp⟩, by simp⟩

/-- The engine finds the next bytes of the message on page 1. -/
theorem slice_chunk (h : MacState kind st) (p : Pram) :
    slice (st.request.handed p) page1Offset (st.rest.take 112).length = st.rest.take 112 := by
  have hmem : (page1Offset, st.chunk st.numBytes) ∈ st.request.writes := by
    rcases h.isMac with hcmd | hcmd <;> simp [State.request, hcmd]
  have hfit : page1Offset + (st.chunk st.numBytes).length ≤ 128 :=
    Nat.add_le_add_left (Nat.le_trans (chunk_length_le _ _) (numBytes_le st).1) 16
  have hfound := slice_apart _ h.apart p hmem (show 4 ≤ page1Offset by decide) hfit
  rwa [h.chunk] at hfound

/-- It finds the length of the message as it is. -/
theorem bitLength_handed (h : MacState kind st) (p : Pram) :
    bitLength (st.request.handed p) = st.msgLen.toNat := by
  have hmem : (macMessageLengthOffset, bytesOf st.msgLen) ∈ st.request.writes := by
    rcases h.isMac with hcmd | hcmd <;> simp [State.request, hcmd]
  exact bitLength_of_slice (slice_apart _ h.apart p hmem
    (show 4 ≤ macMessageLengthOffset by decide) (show macMessageLengthOffset + 4 ≤ 128 by decide))

theorem macLength_handed (h : MacState kind st) (hcmd : st.cmd = .verifyMac) (p : Pram) :
    halfwordAt (st.request.handed p) macLengthOffset = st.macLen.setWidth 16 := by
  have hmem : (macLengthOffset, [hi (st.macLen.setWidth 16), lo (st.macLen.setWidth 16)]) ∈
      st.request.writes := by
    simp [State.request, hcmd]
  exact halfwordAt_of_slice (slice_apart _ h.apart p hmem
    (show 4 ≤ macLengthOffset by decide) (show macLengthOffset + 2 ≤ 128 by decide))

/-- The engine finds the MAC on the page behind the bytes. -/
theorem page_mac (h : MacState kind st) (hcmd : st.cmd = .verifyMac) (hroom : st.rest.length ≤ 80)
    (p : Pram) :
    page (st.request.handed p) (page1Offset + 16 * ((st.rest.length + 15) / 16)) = st.mac := by
  have hoffset := h.macOffset
  rw [Nat.min_eq_right (Nat.le_trans hroom (by decide)), Nat.mul_comm] at hoffset
  have hmem : (page1Offset + (Reference.macOffset st.numBytes).toNat, st.mac.toList) ∈
      st.request.writes := by
    simp [State.request, hcmd, h.fits, hroom]
  have hlen : st.mac.toList.length = 16 := Vector.length_toList
  have hfound := slice_apart _ h.apart p hmem (Nat.le_add_right_of_le (by decide))
    (by simp only [page1Offset, hlen, hoffset]; omega)
  rw [hlen, hoffset] at hfound
  apply Vector.toList_inj.mp
  rw [page_toList, hfound]

end MacState

/-- The driver follows a command up with another one, when so many bytes are left. -/
def FollowedUp (kind : MacKind) (n : Nat) : Prop :=
  match kind with
  | .generate => 112 < n
  | .verify _ => 80 < n

namespace MacState

variable {kind : MacKind} {st : State}

theorem index_onward (h : MacState kind st) :
    st.onward.index.toNat = st.index.toNat + min 112 st.rest.length := by
  have hpart : (st.launched.partSize.setWidth 8).setWidth 32 =
      (st.numBytes.setWidth 32 : Word) := by
    rw [launched_part]
  have hlen := h.rest_length
  have hle := h.index_le
  have hfit := st.fullSize.isLt
  change (st.index + (st.launched.partSize.setWidth 8).setWidth 32).toNat = _
  rw [hpart, BitVec.toNat_add, toNat_part, h.numBytes]
  exact Nat.mod_eq_of_lt (by omega)

theorem rest_onward (h : MacState kind st) : st.onward.rest = st.rest.drop 112 := by
  have hdrop : st.onward.rest = st.rest.drop (min 112 st.rest.length) := by
    rw [State.rest, h.index_onward, State.rest, List.drop_drop]
    rfl
  rw [hdrop]
  rcases Nat.le_total 112 st.rest.length with hle | hle
  · rw [Nat.min_eq_left hle]
  · rw [Nat.min_eq_right hle, List.drop_length, List.drop_eq_nil_of_le hle]

theorem onward (h : MacState kind st) (hgoes : FollowedUp kind st.rest.length) :
    MacState kind st.onward where
  cmd := h.cmd
  keyId := h.keyId
  length := h.length
  bits := h.bits
  index_le := by
    rw [h.index_onward, h.rest_length]
    have hle := h.index_le
    change _ ≤ st.fullSize.toNat
    omega
  notWritten hcmd := by
    change (st.macWritten || (st.cmd == .verifyMac && st.fits)) = false
    have hcmd' : st.cmd = .verifyMac := hcmd
    cases kind with
    | generate => exact absurd (hcmd'.symm.trans h.cmd) (by decide)
    | verify _ =>
      have hroom : ¬ st.rest.length ≤ 80 := Nat.not_le.mpr hgoes
      rw [h.notWritten hcmd', h.fits, decide_eq_false hroom, Bool.and_false, Bool.or_false]

/-- The driver goes on after a success. -/
theorem answered_onward (h : MacState kind st) (hbusy : st.cmdInProgress = true)
    (hgoes : FollowedUp kind st.rest.length) {p : Pram}
    (hok : Status.ofErrorBits (status p) = .success) : st.launched.answered p = st.onward := by
  rw [answered_success hok]
  cases kind with
  | generate =>
    have hmore : ¬ st.onward.index ≥ st.onward.fullSize := by
      have hindex := h.index_onward
      have hlen := h.rest_length
      have hgoes' : 112 < st.rest.length := hgoes
      change ¬ st.fullSize.toNat ≤ st.onward.index.toNat
      omega
    rw [proceed_generateMac (by exact h.cmd)]
    exact if_neg hmore
  | verify n =>
    have hwritten : st.launched.macWritten = false := (h.onward hgoes).notWritten h.cmd
    exact (proceed_verifyMac_more (by exact h.cmd) (by exact hwritten) (by exact hbusy) _).trans rfl

/-- The state after the last command of a generation. -/
theorem answered_generated (h : MacState .generate st) (hlast : st.rest.length ≤ 112) {p : Pram}
    (hok : Status.ofErrorBits (status p) = .success) :
    st.launched.answered p =
      { st.onward.fill 0 (slice p page2Offset pageSizeInBytes) with cmdInProgress := false } := by
  have hover : st.onward.index ≥ st.onward.fullSize := by
    have hindex := h.index_onward
    have hlen := h.rest_length
    have hle := h.index_le
    change st.fullSize.toNat ≤ st.onward.index.toNat
    omega
  rw [answered_success hok, proceed_generateMac (by exact h.cmd)]
  exact if_pos hover

/-- The state after the command of a verification that carries the MAC. -/
theorem answered_verified {n : Nat} (h : MacState (.verify n) st) (hroom : st.rest.length ≤ 80)
    {p : Pram} (hok : Status.ofErrorBits (status p) = .success) :
    st.launched.answered p = { st.onward with
      cmdInProgress := false
      verifStatus := halfwordAt p macVerificationBitsOffset == 0 } := by
  have hwritten : st.launched.macWritten = true := by
    have hcmd : st.cmd = .verifyMac := h.cmd
    have hfits : st.fits = true := by
      rw [h.fits]
      exact decide_eq_true hroom
    rw [State.launched, hcmd, hfits]
    exact Bool.or_true _
  rw [answered_success hok]
  exact (proceed_verifyMac_last (by exact h.cmd) (by exact hwritten) _).trans rfl

end MacState

/-! ## The engine -/

/-- The engine expects what is left of the message behind the pages that it has seen. -/
structure MacPoint (P : Primitives) (kind : MacKind) (seen : List Block) (c : Point She) :
    Prop where
  state : MacState kind c.1
  front : c.1.inputBuff <+: ofBlocks seen ++ c.1.rest
  takes : ∀ p, Takes P c.2.2 kind c.1.seq c.1.msgLen.toNat (macPages kind (8 * c.1.rest.length))
    seen (c.1.request.handed p)

namespace MacPoint

variable {kind : MacKind} {seen : List Block} {c : Point She}

/-- The engine's side of a command that leaves pages to come. -/
theorem core_more (h : MacPoint P kind seen c) (hmore : 7 < macPages kind (8 * c.1.rest.length)) :
    c.core (she P latency) = (report (c.1.request.handed c.2.1) .noError,
      { c.2.2 with
        job := .mac kind c.1.msgLen.toNat (macPages kind (8 * c.1.rest.length) - 7)
          (seen ++ pages (c.1.request.handed c.2.1) page1Offset 7) }) := by
  have htakes := h.takes c.2.1
  rw [Takes, mac_of_lt hmore] at htakes
  exact she_run (command_implemented kind) h.state.header htakes

/-- The engine's side of its last command. -/
theorem core_last (h : MacPoint P kind seen c) (hlast : macPages kind (8 * c.1.rest.length) ≤ 7) :
    c.core (she P latency) = (report (finishMac P c.2.2 kind c.1.msgLen.toNat
        (seen ++ pages (c.1.request.handed c.2.1) page1Offset
          (macPages kind (8 * c.1.rest.length))) (c.1.request.handed c.2.1)) .noError,
      { c.2.2 with job := .idle }) := by
  have htakes := h.takes c.2.1
  rw [Takes, mac_of_le hlast] at htakes
  exact she_run (command_implemented kind) h.state.header htakes

theorem followedUp {n : Nat} (h : 7 < macPages kind (8 * n)) : FollowedUp kind n := by
  cases kind with
  | generate =>
    change 112 < n
    simp only [macPages, messagePages] at h
    omega
  | verify _ =>
    change 80 < n
    simp only [macPages, messagePages] at h
    omega

theorem macPages_drop {n : Nat} (h : 7 < macPages kind (8 * n)) :
    macPages kind (8 * n) - 7 = macPages kind (8 * (n - 112)) := by
  cases kind with
  | generate =>
    simp only [macPages, messagePages] at h ⊢
    omega
  | verify _ =>
    simp only [macPages, messagePages] at h ⊢
    omega

/-- A command that leaves pages to come. -/
theorem more (h : MacPoint P kind seen c) (hbusy : c.busy = true)
    (hmore : 7 < macPages kind (8 * c.1.rest.length)) :
    (c.step (she P latency)).1 = c.1.onward ∧
      { (c.step (she P latency)).2.2 with job := .idle } = { c.2.2 with job := .idle } ∧
      ∃ seen, MacPoint P kind seen (c.step (she P latency)) := by
  have hcore := h.core_more latency hmore
  have hgoes := followedUp hmore
  have hstep : c.step (she P latency) = (c.1.onward, c.core (she P latency)) := by
    rw [Point.step, hcore, h.state.answered_onward hbusy hgoes (status_noError _)]
  have hrest := h.state.rest_onward
  have hlen : c.1.onward.rest.length = c.1.rest.length - 112 := by
    rw [hrest, List.length_drop]
  refine ⟨congrArg Prod.fst hstep, ?_, seen ++ pages (c.1.request.handed c.2.1) page1Offset 7,
    ⟨?_, ?_, ?_⟩⟩
  · rw [hstep, hcore]
  · rw [hstep]
    exact h.state.onward hgoes
  · rw [hstep, hrest]
    exact prefix_more h.front (h.state.slice_chunk c.2.1)
  · intro p
    rw [hstep, hcore, hlen, ← macPages_drop hmore]
    exact takes_subsequent rfl _

/-- The MAC of the message at the front of the pages. -/
theorem macOf_message {key : Block} {bits : Nat} {message : List Byte} {pgs : List Block}
    (hbits : bits ≤ 8 * message.length) (h : message <+: ofBlocks pgs) :
    macOf P key bits pgs = P.cmac key ((bitsOf message).take bits) := by
  obtain ⟨junk, hjunk⟩ := h
  rw [macOf, ← hjunk, bitsOf_append, List.take_append_of_le_length (by rwa [bitsOf_length])]

end MacPoint

/-! ## The calls -/

/-- From command to command of a MAC call. -/
structure MacRun (P : Primitives) (kind : MacKind) (c₀ c : Point She) : Prop where
  args : SameCall c₀.1 c.1
  output : c.1.outputBuff = c₀.1.outputBuff
  engine : { c.2.2 with job := .idle } = { c₀.2.2 with job := .idle }
  point : ∃ seen, MacPoint P kind seen c

namespace MacRun

variable {kind : MacKind} {c₀ c : Point She}

theorem start {seen : List Block} (h : MacPoint P kind seen c) : MacRun P kind c c :=
  ⟨.refl c.1, rfl, rfl, seen, h⟩

theorem ramKey (h : MacRun P kind c₀ c) : c.2.2.ramKey = c₀.2.2.ramKey := by
  have hkey := congrArg She.ramKey h.engine
  exact hkey

/-- A command that leaves pages to come. -/
theorem more (h : MacRun P kind c₀ c) (hbusy : c.busy = true)
    (hmore : 7 < macPages kind (8 * c.1.rest.length)) :
    (c.step (she P latency)).busy = true ∧ MacRun P kind c₀ (c.step (she P latency)) ∧
      (c.step (she P latency)).left = c.left - 112 := by
  obtain ⟨seen, hpoint⟩ := h.point
  obtain ⟨hstate, hengine, hnext⟩ := hpoint.more latency hbusy hmore
  refine ⟨?_, ⟨h.args.trans (same_step _ c), ?_, hengine.trans h.engine, hnext⟩, ?_⟩
  · rw [Point.busy, hstate]
    exact hbusy
  · rw [hstate]
    exact h.output
  · rw [Point.left, hstate, hpoint.state.rest_onward, List.length_drop]
    rfl

/-- The MAC of the message of the call. -/
theorem macOf_call {seen : List Block} (h : MacRun P kind c₀ c) (hpoint : MacPoint P kind seen c)
    (hlast : c.1.rest.length ≤ 112) :
    macOf P c.2.2.ramKey c.1.msgLen.toNat (seen ++ pages (c.1.request.handed c.2.1) page1Offset
        ((c.1.rest.length + 15) / 16)) =
      P.cmac c₀.2.2.ramKey ((bitsOf c₀.1.inputBuff).take c₀.1.msgLen.toNat) := by
  have hchunk := hpoint.state.slice_chunk c.2.1
  rw [List.take_of_length_le hlast] at hchunk
  have hbits : c.1.msgLen.toNat ≤ 8 * c.1.inputBuff.length := by
    have hlen := hpoint.state.length
    have hcount := hpoint.state.bits
    omega
  rw [MacPoint.macOf_message hbits (prefix_last hpoint.front hchunk), h.ramKey, h.args.inputBuff,
    h.args.msgLen]

/-- The last command of a generation. -/
theorem generated (h : MacRun P .generate c₀ c)
    (hlast : macPages .generate (8 * c.1.rest.length) ≤ 7) :
    (c.step (she P latency)).busy = false ∧ Ended c₀ (c.step (she P latency)) .success
      ((P.cmac c₀.2.2.ramKey ((bitsOf c₀.1.inputBuff).take c₀.1.msgLen.toNat)).toList ++
        c₀.1.outputBuff.drop 16) := by
  obtain ⟨seen, hpoint⟩ := h.point
  have hcore := hpoint.core_last latency hlast
  have hpages : macPages .generate (8 * c.1.rest.length) = (c.1.rest.length + 15) / 16 := by
    simp only [macPages, messagePages]
    omega
  have hshort : c.1.rest.length ≤ 112 := by omega
  rw [hpages, finishMac, h.macOf_call hpoint hshort] at hcore
  obtain ⟨mac, hmac⟩ : ∃ mac,
      P.cmac c₀.2.2.ramKey ((bitsOf c₀.1.inputBuff).take c₀.1.msgLen.toNat) = mac := ⟨_, rfl⟩
  rw [hmac] at hcore ⊢
  have hread : slice (c.core (she P latency)).1 page2Offset pageSizeInBytes = mac.toList := by
    rw [hcore, slice_report _ _ (by decide)]
    exact slice_splice_page _ _ (by decide)
  have hstate : (c.step (she P latency)).1 =
      { c.1.onward.fill 0 mac.toList with cmdInProgress := false } := by
    rw [← hread, Point.step, hcore,
      hpoint.state.answered_generated hshort (status_noError _)]
  refine ⟨by rw [Point.busy, hstate], h.args.trans (same_step _ c), by rw [hstate]; rfl, ?_, ?_⟩
  · rw [hstate]
    change c.1.outputBuff.take 0 ++ mac.toList ++ c.1.outputBuff.drop (0 + mac.toList.length) = _
    rw [Vector.length_toList, h.output]
    rfl
  · rw [← h.engine]
    exact congrArg Prod.snd hcore

/-- The command of a verification that carries the MAC. -/
theorem verified {n : Nat} (h : MacRun P (.verify n) c₀ c) (hroom : c.1.rest.length ≤ 80) :
    (c.step (she P latency)).busy = false ∧
      Ended c₀ (c.step (she P latency)) .success c₀.1.outputBuff ∧
      (c.step (she P latency)).1.verifStatus = agree n
        (P.cmac c₀.2.2.ramKey ((bitsOf c₀.1.inputBuff).take c₀.1.msgLen.toNat)) c₀.1.mac := by
  obtain ⟨seen, hpoint⟩ := h.point
  have hcmd : c.1.cmd = .verifyMac := hpoint.state.cmd
  have hpages : macPages (.verify n) (8 * c.1.rest.length) = (c.1.rest.length + 15) / 16 + 1 := by
    simp only [macPages, messagePages]
    omega
  have hcore := hpoint.core_last latency (by omega)
  rw [hpages, pages_succ, hpoint.state.page_mac hcmd hroom, ← List.append_assoc, finishMac,
    List.dropLast_concat, List.getLastD_concat,
    h.macOf_call hpoint (Nat.le_trans hroom (by decide))] at hcore
  obtain ⟨mac, hmac⟩ : ∃ mac,
      P.cmac c₀.2.2.ramKey ((bitsOf c₀.1.inputBuff).take c₀.1.msgLen.toNat) = mac := ⟨_, rfl⟩
  rw [hmac, h.args.mac] at hcore
  rw [hmac]
  have hread : (halfwordAt (c.core (she P latency)).1 macVerificationBitsOffset == 0) =
      agree n mac c₀.1.mac := by
    rw [hcore, halfwordAt_report _ _ (by decide), halfwordAt_splice_self _ _ (by decide)]
    cases hagree : agree n mac c₀.1.mac with
    | true => rfl
    | false => exact beq_eq_false_iff_ne.mpr P.mismatch_ne
  have hstate : (c.step (she P latency)).1 = { c.1.onward with
      cmdInProgress := false
      verifStatus := agree n mac c₀.1.mac } := by
    rw [← hread, Point.step, hcore, hpoint.state.answered_verified hroom (status_noError _)]
  refine ⟨by rw [Point.busy, hstate], ⟨h.args.trans (same_step _ c), by rw [hstate]; rfl, ?_, ?_⟩,
    by rw [hstate]⟩
  · rw [hstate]
    exact h.output
  · rw [← h.engine]
    exact congrArg Prod.snd hcore

end MacRun

/-- A verification whose MAC the engine does not wait for. -/
structure MacOverrun (n : Nat) (c₀ c : Point She) : Prop where
  args : SameCall c₀.1 c.1
  output : c.1.outputBuff = c₀.1.outputBuff
  engine : c.2.2 = { c₀.2.2 with job := .idle }
  state : MacState (.verify n) c.1
  seq : c.1.seq = .subsequent

/-- The message ends on page 6. The engine takes page 7 for the MAC and is done. -/
theorem MacRun.overrun {n : Nat} {c₀ c : Point She} (h : MacRun P (.verify n) c₀ c)
    (hbusy : c.busy = true) (hmore : 80 < c.1.rest.length) (hlast : c.1.rest.length ≤ 96) :
    (c.step (she P latency)).busy = true ∧ MacOverrun n c₀ (c.step (she P latency)) ∧
      (c.step (she P latency)).left = 0 := by
  obtain ⟨seen, hpoint⟩ := h.point
  have hpages : macPages (.verify n) (8 * c.1.rest.length) ≤ 7 := by
    simp only [macPages, messagePages]
    omega
  have hcore := hpoint.core_last latency hpages
  have hgoes : FollowedUp (.verify n) c.1.rest.length := hmore
  have hstate : (c.step (she P latency)).1 = c.1.onward := by
    rw [Point.step, hcore]
    exact hpoint.state.answered_onward hbusy hgoes (status_noError _)
  refine ⟨by rw [Point.busy, hstate]; exact hbusy, ⟨h.args.trans (same_step _ c), ?_, ?_, ?_, ?_⟩,
    ?_⟩
  · rw [hstate]
    exact h.output
  · rw [← h.engine]
    exact congrArg Prod.snd hcore
  · rw [hstate]
    exact hpoint.state.onward hgoes
  · rw [hstate]
    rfl
  · rw [Point.left, hstate, hpoint.state.rest_onward, List.length_drop]
    exact Nat.sub_eq_zero_of_le (Nat.le_trans hlast (by decide))

/-- The command that carries the MAC is then out of sequence. -/
theorem MacOverrun.refused {n : Nat} {c₀ c : Point She} (h : MacOverrun n c₀ c) :
    (c.step (she P latency)).busy = false ∧
      Ended c₀ (c.step (she P latency)) .secSequenceError c₀.1.outputBuff := by
  have hidle : c.2.2.job = .idle := by rw [h.engine]
  have hnone : c.2.2.step P (MacKind.verify n).command c.1.seq (c.1.request.handed c.2.1) =
      none := by
    rw [h.seq]
    exact step_idle hidle _ _
  have hcore : c.core (she P latency) =
      (report (c.1.request.handed c.2.1) .sequenceError, c.2.2) :=
    she_outOfSequence (command_implemented _) h.state.header hnone
  have hstate : (c.step (she P latency)).1 =
      { c.1.launched with errCode := .secSequenceError, cmdInProgress := false } := by
    rw [Point.step, hcore]
    exact answered_sequenceError _
  refine ⟨by rw [Point.busy, hstate], h.args.trans (same_step _ c), by rw [hstate], ?_, ?_⟩
  · rw [hstate]
    exact h.output
  · exact (congrArg Prod.snd hcore).trans h.engine

/-! ## Whole calls -/

section Calls

variable {st : State} {p : Pram} {e : She} {message : List Byte} {msgLen : Word}

namespace MacChainLemmas

theorem macPages_bits (kind : MacKind) (hlen : message.length = (msgLen.toNat + 7) / 8) :
    macPages kind msgLen.toNat = macPages kind (8 * message.length) := by
  cases kind with
  | generate =>
    simp only [macPages, messagePages]
    omega
  | verify _ =>
    simp only [macPages, messagePages]
    omega

theorem macState_generateMac (st : State) (hlen : message.length = (msgLen.toNat + 7) / 8)
    (hfit : msgLen.toNat + 7 < 2 ^ 32) (output : List Byte) :
    MacState .generate ((generateMac .ramKey message msgLen output).init st) :=
  ⟨rfl, rfl, hlen.trans (roundTo_toNat hfit).symm, roundTo_toNat hfit, Nat.zero_le _,
    fun (h : Command.generateMac = .verifyMac) => absurd h (by decide)⟩

theorem macState_verifyMac (st : State) (hlen : message.length = (msgLen.toNat + 7) / 8)
    (hfit : msgLen.toNat + 7 < 2 ^ 32) (mac : Block) (macLen : Halfword) :
    MacState (.verify macLen.toNat) ((verifyMac .ramKey message msgLen mac macLen).init st) :=
  ⟨rfl, rfl, hlen.trans (roundTo_toNat hfit).symm, roundTo_toNat hfit, Nat.zero_le _,
    fun _ => rfl⟩

theorem point_generateMac (hidle : e.job = .idle) (hlen : message.length = (msgLen.toNat + 7) / 8)
    (hfit : msgLen.toNat + 7 < 2 ^ 32) (output : List Byte) :
    MacPoint P .generate [] ((generateMac .ramKey message msgLen output).point st p e) := by
  have hstate := macState_generateMac st hlen hfit output
  refine ⟨hstate, List.prefix_refl _, fun p => ?_⟩
  have htakes := takes_generate (P := P) hidle
    (((generateMac .ramKey message msgLen output).init st).request.handed p)
  rw [hstate.bitLength_handed p] at htakes
  have hpages := macPages_bits .generate hlen
  exact (congrArg (Takes P e .generate .first msgLen.toNat · [] _) hpages).mp htakes

theorem point_verifyMac (hidle : e.job = .idle) (hlen : message.length = (msgLen.toNat + 7) / 8)
    (hfit : msgLen.toNat + 7 < 2 ^ 32) (mac : Block) (macLen : Halfword) :
    MacPoint P (.verify macLen.toNat) []
      ((verifyMac .ramKey message msgLen mac macLen).point st p e) := by
  have hstate := macState_verifyMac st hlen hfit mac macLen
  refine ⟨hstate, List.prefix_refl _, fun p => ?_⟩
  have htakes := takes_verify (P := P) hidle
    (((verifyMac .ramKey message msgLen mac macLen).init st).request.handed p)
  have hmacLen : ((verifyMac .ramKey message msgLen mac macLen).init st).macLen.setWidth 16 =
      macLen := BitVec.setWidth_setWidth_of_le macLen (by decide) |>.trans (BitVec.setWidth_eq _)
  rw [hstate.bitLength_handed p, hstate.macLength_handed rfl p, hmacLen] at htakes
  have hpages := macPages_bits (.verify macLen.toNat) hlen
  exact (congrArg (Takes P e (.verify macLen.toNat) .first msgLen.toNat · [] _) hpages).mp htakes

end MacChainLemmas

/-- `CSEC_DRV_GenerateMAC` ends with the CMAC of the message, however long it is. -/
theorem ends_generateMac (latency : She → Pram → Nat) (hidle : e.job = .idle)
    (hlen : message.length = (msgLen.toNat + 7) / 8) (hfit : msgLen.toNat + 7 < 2 ^ 32)
    (output : List Byte) :
    ∃ n c', n ≤ message.length + 1 ∧ Ends Point.busy (Point.step (she P latency)) n
        ((generateMac .ramKey message msgLen output).point st p e) c' ∧
      Ended ((generateMac .ramKey message msgLen output).point st p e) c' .success
        ((P.cmac e.ramKey ((bitsOf message).take msgLen.toNat)).toList ++ output.drop 16) := by
  refine Ends.rule (MacRun P .generate _) _ Point.left (fun c hbusy h => ?_) rfl
    (.start (point_generateMac hidle hlen hfit output))
  rcases Nat.lt_or_ge 7 (macPages .generate (8 * c.1.rest.length)) with hmore | hlast
  · obtain ⟨hnext, hrun, hleft⟩ := h.more latency hbusy hmore
    have hgoes : 112 < c.left := MacPoint.followedUp hmore
    exact Or.inl ⟨hnext, hrun, by omega⟩
  · exact Or.inr (h.generated latency hlast)

/-- `CSEC_DRV_VerifyMAC` ends with the verdict on the first bits of the MAC, if the message
does not end on page 6 of its last command. -/
theorem ends_verifyMac (latency : She → Pram → Nat) (hidle : e.job = .idle)
    (hlen : message.length = (msgLen.toNat + 7) / 8) (hfit : msgLen.toNat + 7 < 2 ^ 32)
    (hband : ¬ (81 ≤ message.length % 112 ∧ message.length % 112 ≤ 96)) (mac : Block)
    (macLen : Halfword) :
    ∃ n c', n ≤ message.length + 1 ∧ Ends Point.busy (Point.step (she P latency)) n
        ((verifyMac .ramKey message msgLen mac macLen).point st p e) c' ∧
      Ended ((verifyMac .ramKey message msgLen mac macLen).point st p e) c' .success [] ∧
      c'.1.verifStatus =
        agree macLen.toNat (P.cmac e.ramKey ((bitsOf message).take msgLen.toNat)) mac := by
  refine Ends.rule (fun c => MacRun P (.verify macLen.toNat)
      ((verifyMac .ramKey message msgLen mac macLen).point st p e) c ∧
      ¬ (81 ≤ c.left % 112 ∧ c.left % 112 ≤ 96)) _ Point.left (fun c hbusy h => ?_) rfl
    ⟨.start (point_verifyMac hidle hlen hfit mac macLen), hband⟩
  obtain ⟨hrun, hband⟩ := h
  rcases Nat.lt_or_ge 80 c.left with hmore | hroom
  · have hpages : 7 < macPages (.verify macLen.toNat) (8 * c.left) := by
      simp only [macPages, messagePages]
      omega
    obtain ⟨hnext, hrun', hleft⟩ := hrun.more latency hbusy hpages
    exact Or.inl ⟨hnext, ⟨hrun', by omega⟩, by omega⟩
  · exact Or.inr (hrun.verified latency hroom)

/-- Otherwise it ends with a sequence error. -/
theorem ends_verifyMac_stale (latency : She → Pram → Nat) (hidle : e.job = .idle)
    (hlen : message.length = (msgLen.toNat + 7) / 8) (hfit : msgLen.toNat + 7 < 2 ^ 32)
    (hband : 81 ≤ message.length % 112 ∧ message.length % 112 ≤ 96) (mac : Block)
    (macLen : Halfword) :
    ∃ n c', n ≤ message.length + 1 ∧ Ends Point.busy (Point.step (she P latency)) n
        ((verifyMac .ramKey message msgLen mac macLen).point st p e) c' ∧
      Ended ((verifyMac .ramKey message msgLen mac macLen).point st p e) c'
        .secSequenceError [] := by
  refine Ends.rule (fun c => (MacRun P (.verify macLen.toNat)
      ((verifyMac .ramKey message msgLen mac macLen).point st p e) c ∧
      81 ≤ c.left % 112 ∧ c.left % 112 ≤ 96) ∨
      MacOverrun macLen.toNat ((verifyMac .ramKey message msgLen mac macLen).point st p e) c)
    _ Point.left (fun c hbusy h => ?_) rfl
    (Or.inl ⟨.start (point_verifyMac hidle hlen hfit mac macLen), hband⟩)
  rcases h with ⟨hrun, hband⟩ | hover
  · have hmore : 80 < c.1.rest.length := by
      change 80 < c.left
      omega
    rcases Nat.lt_or_ge 96 c.left with hlong | hshort
    · have hpages : 7 < macPages (.verify macLen.toNat) (8 * c.left) := by
        simp only [macPages, messagePages]
        omega
      obtain ⟨hnext, hrun', hleft⟩ := hrun.more latency hbusy hpages
      exact Or.inl ⟨hnext, Or.inl ⟨hrun', by omega⟩, by omega⟩
    · obtain ⟨hnext, hover, hleft⟩ := hrun.overrun latency hbusy hmore hshort
      exact Or.inl ⟨hnext, Or.inr hover, by omega⟩
  · exact Or.inr (hover.refused latency)

end Calls

end Reference

end Csec
