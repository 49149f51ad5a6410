import DaredevilSmall.Csec.Reference.Requests
import DaredevilSmall.Csec.Overrun

/-!
# CBC of the reference driver

`CSEC_DRV_EncryptCBC` and `CSEC_DRV_DecryptCBC` on the engine `she`, as chains of
commands. The output buffer is written from command to command: its front is CBC of the
input so far, and the rest is what was there before.

1. `CbcRun` is the invariant, and `CbcRun.collected` is one command.
2. `ends_cbc`: the call ends with CBC of its input, for any input of less than 65536 pages.
-/

namespace Csec

namespace Reference

open Mmio Data Crypto She SheLemmas StepsLemmas RequestsLemmas OverrunLemmas

variable {P : Primitives} (latency : She → Pram → Nat)

namespace CbcChainLemmas

/-- The pages that a command can carry. -/
theorem avail_le (seq : Sequence) :
    partOffset seq + 16 * handleCbc.availPages seq = 128 ∧ 16 ≤ partOffset seq := by
  cases seq <;> decide

theorem step_of_first (direction : Direction) {e : She} (h : e.job = .idle) (p : Pram) :
    e.step P direction.command .first p =
      some (e.cbc P direction (halfwordAt p pageLengthOffset).toNat (page p page1Offset)
        (partOffset .first) (handleCbc.availPages .first) p) :=
  CbcLemmas.step_first direction h p

/-- CBC of a longer input. -/
theorem cbcBytes_append (direction : Direction) (key iv : Block) {a : List Byte}
    (h : a.length % 16 = 0) (b : List Byte) :
    cbcBytes P direction key iv (a ++ b) = cbcBytes P direction key iv a ++
      cbcBytes P direction key (stream (cbcStep P key direction) iv (toBlocks 16 a)).2 b := by
  rw [cbcBytes, toBlocks_append (by decide) h, stream_append, ofBlocks_append]
  rfl

end CbcChainLemmas

open CbcChainLemmas

/-! ## The commands -/

/-- The arguments of a CBC call, at one of its commands. -/
structure CbcState (direction : Direction) (st : State) : Prop where
  cmd : st.cmd = direction.command
  keyId : st.keyId = .ramKey
  length : st.inputBuff.length = st.fullSize.toNat
  pages : st.fullSize.toNat % 16 = 0
  index_le : st.index.toNat ≤ st.fullSize.toNat
  indexPages : st.index.toNat % 16 = 0

namespace CbcState

variable {direction : Direction} {st : State}

theorem isCbc (h : CbcState direction st) : st.cmd = .encCbc ∨ st.cmd = .decCbc := by
  rw [h.cmd]
  cases direction with
  | enc => exact Or.inl rfl
  | dec => exact Or.inr rfl

theorem rest_length (h : CbcState direction st) :
    st.rest.length = st.fullSize.toNat - st.index.toNat := by
  rw [State.rest, List.length_drop, h.length]

theorem numBytes (h : CbcState direction st) :
    st.numBytes.toNat = 16 * min (st.rest.length / 16) (handleCbc.availPages st.seq) := by
  have hsub : (st.fullSize - st.index).toNat = st.rest.length := by
    rw [h.rest_length]
    exact BitVec.toNat_sub_of_le (BitVec.le_def.mpr h.index_le)
  have hsix := numPages_toNat (show (dataPagesAvailable - 1).toNat ≤ 7 by decide) st
  have hseven := numPages_toNat (show dataPagesAvailable.toNat ≤ 7 by decide) st
  rw [hsub, Nat.min_comm] at hsix hseven
  rw [State.numBytes]
  rcases h.isCbc with hcmd | hcmd
  · rw [hcmd]
    cases hseq : st.seq with
    | first => exact hsix
    | subsequent => exact hseven
  · rw [hcmd]
    cases hseq : st.seq with
    | first => exact hsix
    | subsequent => exact hseven

theorem chunk (h : CbcState direction st) :
    st.chunk st.numBytes = st.rest.take st.numBytes.toNat ∧
      (st.chunk st.numBytes).length = st.numBytes.toNat := by
  refine ⟨rfl, List.length_take_of_le ?_⟩
  have hbytes := h.numBytes
  change st.numBytes.toNat ≤ st.rest.length
  omega

theorem header (h : CbcState direction st) : st.request.header =
    headerWord direction.command .copy st.seq (keyOf direction.command) := by
  rw [CbcLemmas.keyOf_command, State.request, h.cmd, h.keyId]

/-- What a CBC command writes. -/
theorem writes (h : CbcState direction st) : st.request.writes =
    (match st.seq with
      | .first => [(page1Offset, st.iv.toList), (page2Offset, st.chunk st.numBytes)]
      | .subsequent => [(page1Offset, st.chunk st.numBytes)]) ++
      [(pageLengthOffset, [hi ((st.fullSize >>> 4).setWidth 16),
        lo ((st.fullSize >>> 4).setWidth 16)])] := by
  cases hseq : st.seq with
  | first => rcases h.isCbc with hcmd | hcmd <;> simp only [State.request, hcmd, hseq]
  | subsequent => rcases h.isCbc with hcmd | hcmd <;> simp only [State.request, hcmd, hseq]

theorem apart (h : CbcState direction st) : st.request.writes.Pairwise Apart := by
  have hcount : pageLengthOffset + 2 ≤ page1Offset := by decide
  have hcount' : pageLengthOffset + 2 ≤ page2Offset := by decide
  have hiv : page1Offset + st.iv.toList.length ≤ page2Offset := by
    rw [Vector.length_toList]
    decide
  rw [h.writes]
  cases st.seq with
  | first =>
    simp only [List.cons_append, List.nil_append, List.pairwise_cons, List.mem_cons,
      forall_eq_or_imp]
    exact ⟨⟨Or.inl hiv, Or.inr hcount, by simp⟩, ⟨Or.inr hcount', by simp⟩, by simp⟩
  | subsequent =>
    simp only [List.cons_append, List.nil_append, List.pairwise_cons, List.mem_cons,
      forall_eq_or_imp]
    exact ⟨⟨Or.inr hcount, by simp⟩, by simp⟩

/-- The engine finds the next pages of the input where it looks for them. -/
theorem slice_chunk (h : CbcState direction st) (p : Pram) :
    slice (st.request.handed p) (partOffset st.seq) st.numBytes.toNat = st.chunk st.numBytes := by
  have hmem : (partOffset st.seq, st.chunk st.numBytes) ∈ st.request.writes := by
    rw [h.writes]
    cases hseq : st.seq with
    | first => simp [partOffset]
    | subsequent => simp [partOffset]
  have hlen := h.chunk.2
  have hbytes := h.numBytes
  obtain ⟨hend, hstart⟩ := avail_le st.seq
  have hfound := slice_apart _ h.apart p hmem (by simp only; omega) (by simp only [hlen]; omega)
  rwa [hlen] at hfound

/-- It finds the initialization vector on page 1, and the number of pages. -/
theorem parameters (h : CbcState direction st) (p : Pram) :
    halfwordAt (st.request.handed p) pageLengthOffset = (st.fullSize >>> 4).setWidth 16 ∧
      (st.seq = .first → page (st.request.handed p) page1Offset = st.iv) := by
  constructor
  · have hmem : (pageLengthOffset, [hi ((st.fullSize >>> 4).setWidth 16),
        lo ((st.fullSize >>> 4).setWidth 16)]) ∈ st.request.writes := by
      rw [h.writes]
      exact List.mem_append_right _ List.mem_cons_self
    exact halfwordAt_of_slice (slice_apart _ h.apart p hmem
      (show 4 ≤ pageLengthOffset by decide) (show pageLengthOffset + 2 ≤ 128 by decide))
  · intro hseq
    have hmem : (page1Offset, st.iv.toList) ∈ st.request.writes := by
      rw [h.writes, hseq]
      simp
    have hlen : st.iv.toList.length = 16 := Vector.length_toList
    have hfound := slice_apart _ h.apart p hmem (show 4 ≤ page1Offset by decide)
      (show page1Offset + st.iv.toList.length ≤ 128 by rw [hlen]; decide)
    rw [hlen] at hfound
    apply Vector.toList_inj.mp
    rw [page_toList, hfound]

end CbcState

/-- The state after a success, with the bytes that have been read. -/
def State.collected (st : State) (bytes : List Byte) : State :=
  State.collect { st.launched with errCode := .success } bytes

namespace CbcState

variable {direction : Direction} {st : State}

theorem index_collected (h : CbcState direction st) (bytes : List Byte) :
    (st.collected bytes).index.toNat = st.index.toNat + st.numBytes.toNat := by
  have hbytes := h.numBytes
  have hlen := h.rest_length
  have hle := h.index_le
  have hfit := st.fullSize.isLt
  change (st.index + (st.launched.partSize.setWidth 8).setWidth 32).toNat = _
  rw [launched_part, BitVec.toNat_add, toNat_part]
  exact Nat.mod_eq_of_lt (by omega)

theorem rest_collected (h : CbcState direction st) (bytes : List Byte) :
    (st.collected bytes).rest = st.rest.drop st.numBytes.toNat := by
  rw [State.rest, h.index_collected, State.rest, List.drop_drop]
  rfl

theorem collected (h : CbcState direction st) (bytes : List Byte) :
    CbcState direction (st.collected bytes) where
  cmd := h.cmd
  keyId := h.keyId
  length := h.length
  pages := h.pages
  index_le := by
    have hbytes := h.numBytes
    have hlen := h.rest_length
    have hle := h.index_le
    rw [h.index_collected]
    change _ ≤ st.fullSize.toNat
    omega
  indexPages := by
    have hbytes := h.numBytes
    have hpages := h.indexPages
    rw [h.index_collected]
    omega

/-- The driver reads what the command has put out, and stores it. -/
theorem answered (h : CbcState direction st) {p : Pram}
    (hok : Status.ofErrorBits (status p) = .success) :
    st.launched.answered p =
      let st' := st.collected (slice p (partOffset st.seq) st.numBytes.toNat)
      if st'.index ≥ st'.fullSize then { st' with cmdInProgress := false } else st' := by
  have hread : slice p (partOffset st.seq) (st.launched.partSize.setWidth 8).toNat =
      slice p (partOffset st.seq) st.numBytes.toNat := by
    rw [launched_part]
  have hcmd : st.launched.cmd = .encCbc ∨ st.launched.cmd = .decCbc := h.isCbc
  rw [answered_success hok, ← hread]
  unfold State.proceed State.collected
  rcases hcmd with hcmd | hcmd <;> simp only [hcmd] <;> rfl

end CbcState

/-! ## The engine -/

/-- From command to command of a CBC call. -/
structure CbcRun (P : Primitives) (direction : Direction) (c₀ c : Point She) : Prop where
  args : SameCall c₀.1 c.1
  state : CbcState direction c.1
  output : c.1.outputBuff = cbcBytes P direction c₀.2.2.ramKey c₀.1.iv
    (c₀.1.inputBuff.take c.1.index.toNat) ++ c₀.1.outputBuff.drop c.1.index.toNat
  engine : { c.2.2 with job := .idle } = { c₀.2.2 with job := .idle }
  takes : ∀ p, c.2.2.step P direction.command c.1.seq (c.1.request.handed p) =
    some (c.2.2.cbc P direction (c.1.rest.length / 16)
      (stream (cbcStep P c₀.2.2.ramKey direction) c₀.1.iv
        (toBlocks 16 (c₀.1.inputBuff.take c.1.index.toNat))).2
      (partOffset c.1.seq) (handleCbc.availPages c.1.seq) (c.1.request.handed p))

namespace CbcRun

variable {direction : Direction} {c₀ c : Point She}

theorem ramKey (h : CbcRun P direction c₀ c) : c.2.2.ramKey = c₀.2.2.ramKey := by
  have hkey := congrArg She.ramKey h.engine
  exact hkey

theorem drawn (h : CbcRun P direction c₀ c) : c.2.2.drawn = c₀.2.2.drawn := by
  have hdrawn := congrArg She.drawn h.engine
  exact hdrawn

/-- The chaining value in front of the next command. -/
def chain (P : Primitives) (direction : Direction) (c₀ c : Point She) : Block :=
  (stream (cbcStep P c₀.2.2.ramKey direction) c₀.1.iv
    (toBlocks 16 (c₀.1.inputBuff.take c.1.index.toNat))).2

/-- The engine's side of a command. -/
theorem core (h : CbcRun P direction c₀ c) :
    ∃ p job, c.core (she P latency) = (report p .noError, { c₀.2.2 with job := job }) ∧
      slice p (partOffset c.1.seq) c.1.numBytes.toNat =
        cbcBytes P direction c₀.2.2.ramKey (chain P direction c₀ c) (c.1.chunk c.1.numBytes) ∧
      job = if c.1.rest.length / 16 ≤ handleCbc.availPages c.1.seq then .idle else
        .cbc direction ((c.1.rest.drop c.1.numBytes.toNat).length / 16)
          (stream (cbcStep P c₀.2.2.ramKey direction) (chain P direction c₀ c)
            (toBlocks 16 (c.1.chunk c.1.numBytes))).2 := by
  have hbytes := h.state.numBytes
  obtain ⟨_, hlen⟩ := h.state.chunk
  obtain ⟨hend, _⟩ := avail_le c.1.seq
  have hslice := h.state.slice_chunk c.2.1
  have hstep := h.takes c.2.1
  simp only [She.cbc, She.pages, ← hbytes, hslice, h.ramKey, h.drawn] at hstep
  have hrun : c.core (she P latency) = _ :=
    she_run (CbcLemmas.command_implemented direction) h.state.header hstep
  refine ⟨_, _, hrun, ?_, ?_⟩
  · have hmod : (c.1.chunk c.1.numBytes).length % 16 = 0 := by omega
    have hout : (cbcBytes P direction c₀.2.2.ramKey (chain P direction c₀ c)
        (c.1.chunk c.1.numBytes)).length = c.1.numBytes.toNat := by
      rw [cbcBytes_length hmod, hlen]
    have hself := slice_splice_self (c.1.request.handed c.2.1)
      (show partOffset c.1.seq + (cbcBytes P direction c₀.2.2.ramKey (chain P direction c₀ c)
        (c.1.chunk c.1.numBytes)).length ≤ 128 by omega)
    rwa [hout] at hself
  · have hdrop : (c.1.rest.drop c.1.numBytes.toNat).length / 16 = c.1.rest.length / 16 -
        min (c.1.rest.length / 16) (handleCbc.availPages c.1.seq) := by
      rw [List.length_drop]
      omega
    rw [hdrop]
    rfl

/-- What has been written to the output buffer after a command. -/
theorem output_collected (h : CbcRun P direction c₀ c) {bytes : List Byte}
    (hbytes : bytes = cbcBytes P direction c₀.2.2.ramKey (chain P direction c₀ c)
      (c.1.chunk c.1.numBytes)) :
    c₀.1.inputBuff.take (c.1.collected bytes).index.toNat =
        c₀.1.inputBuff.take c.1.index.toNat ++ c.1.chunk c.1.numBytes ∧
      (c.1.collected bytes).outputBuff = cbcBytes P direction c₀.2.2.ramKey c₀.1.iv
        (c₀.1.inputBuff.take (c.1.collected bytes).index.toNat) ++
          c₀.1.outputBuff.drop (c.1.collected bytes).index.toNat := by
  have hindex := h.state.index_collected bytes
  have hpart := h.state.numBytes
  obtain ⟨_, hlen⟩ := h.state.chunk
  have hinput : c₀.1.inputBuff.take (c.1.collected bytes).index.toNat =
      c₀.1.inputBuff.take c.1.index.toNat ++ c.1.chunk c.1.numBytes := by
    rw [hindex, List.take_add, State.chunk, h.args.inputBuff]
  refine ⟨hinput, ?_⟩
  have htake : (c₀.1.inputBuff.take c.1.index.toNat).length = c.1.index.toNat := by
    refine List.length_take_of_le ?_
    have hle := h.state.index_le
    rwa [← h.state.length, h.args.inputBuff] at hle
  have hblocks : (c₀.1.inputBuff.take c.1.index.toNat).length % 16 = 0 := by
    rw [htake]
    exact h.state.indexPages
  have hfront : (cbcBytes P direction c₀.2.2.ramKey c₀.1.iv
      (c₀.1.inputBuff.take c.1.index.toNat)).length = c.1.index.toNat := by
    rw [cbcBytes_length hblocks, htake]
  have hbytesLen : bytes.length = c.1.numBytes.toNat := by
    rw [hbytes, cbcBytes_length (by omega), hlen]
  have hwritten : c.1.outputBuff.take c.1.index.toNat = cbcBytes P direction c₀.2.2.ramKey
      c₀.1.iv (c₀.1.inputBuff.take c.1.index.toNat) := by
    rw [h.output, List.take_left' hfront]
  have hbehind : c.1.outputBuff.drop (c.1.index.toNat + bytes.length) =
      c₀.1.outputBuff.drop (c.1.index.toNat + c.1.numBytes.toNat) := by
    rw [h.output, ← List.drop_drop, List.drop_left' hfront, List.drop_drop, hbytesLen]
  rw [hinput, cbcBytes_append direction _ _ hblocks, hindex, ← hbehind, ← hwritten]
  change c.1.outputBuff.take c.1.index.toNat ++ bytes ++
    c.1.outputBuff.drop (c.1.index.toNat + bytes.length) = _
  rw [hbytes]
  rfl

/-- The chaining value after a command. -/
theorem chain_collected (h : CbcRun P direction c₀ c) {st : State}
    (hinput : c₀.1.inputBuff.take st.index.toNat =
      c₀.1.inputBuff.take c.1.index.toNat ++ c.1.chunk c.1.numBytes) :
    (stream (cbcStep P c₀.2.2.ramKey direction) c₀.1.iv
        (toBlocks 16 (c₀.1.inputBuff.take st.index.toNat))).2 =
      (stream (cbcStep P c₀.2.2.ramKey direction) (chain P direction c₀ c)
        (toBlocks 16 (c.1.chunk c.1.numBytes))).2 := by
  have hlen : (c₀.1.inputBuff.take c.1.index.toNat).length % 16 = 0 := by
    have hle := h.state.index_le
    rw [← h.state.length, h.args.inputBuff] at hle
    rw [List.length_take_of_le hle]
    exact h.state.indexPages
  rw [hinput, toBlocks_append (by decide) hlen, stream_append]
  rfl

/-- One command. It leaves more to come, or the call is over. -/
theorem collected (h : CbcRun P direction c₀ c) (hbusy : c.busy = true) :
    ((c.step (she P latency)).busy = true ∧ CbcRun P direction c₀ (c.step (she P latency)) ∧
        (c.step (she P latency)).left < c.left) ∨
      ((c.step (she P latency)).busy = false ∧ Ended c₀ (c.step (she P latency)) .success
        (cbcBytes P direction c₀.2.2.ramKey c₀.1.iv c₀.1.inputBuff ++
          c₀.1.outputBuff.drop c₀.1.inputBuff.length)) := by
  obtain ⟨p, job, hcore, hread, hjob⟩ := h.core latency
  obtain ⟨hinput, houtput⟩ := h.output_collected hread
  obtain ⟨bytes, hbytes⟩ : ∃ bytes, slice p (partOffset c.1.seq) c.1.numBytes.toNat = bytes :=
    ⟨_, rfl⟩
  have hstate := h.state.answered (status_noError p)
  rw [slice_report p _ (Nat.le_trans (by decide) (avail_le c.1.seq).2), hbytes] at hstate
  rw [hbytes] at houtput hinput
  have hnext := h.state.collected bytes
  have hindex := h.state.index_collected bytes
  have hrest := h.state.rest_collected bytes
  have hargs := h.args.trans (same_step (she P latency) c)
  have hpart := h.state.numBytes
  have hlen := h.state.rest_length
  have hpages := h.state.pages
  have hpages' := h.state.indexPages
  have havail : 6 ≤ handleCbc.availPages c.1.seq := by cases c.1.seq <;> decide
  have hsize : (c.1.collected bytes).fullSize = c.1.fullSize := rfl
  have hcore2 : (c.step (she P latency)).2.2 = { c₀.2.2 with job := job } :=
    congrArg Prod.snd hcore
  rcases Nat.lt_or_ge (c.1.collected bytes).index.toNat c.1.fullSize.toNat with hmore | hover
  · left
    have hstep : (c.step (she P latency)).1 = c.1.collected bytes := by
      rw [Point.step, hcore, hstate]
      exact if_neg (Nat.not_le.mpr hmore)
    have hjob' : job = .cbc direction ((c.1.collected bytes).rest.length / 16)
        (stream (cbcStep P c₀.2.2.ramKey direction) c₀.1.iv
          (toBlocks 16 (c₀.1.inputBuff.take (c.1.collected bytes).index.toNat))).2 := by
      rw [hjob, if_neg (by omega), hrest, h.chain_collected hinput]
    have hshort : (c.1.collected bytes).rest.length = c.1.rest.length - c.1.numBytes.toNat := by
      rw [hrest, List.length_drop]
    refine ⟨by rw [Point.busy, hstep]; exact hbusy, ⟨hargs, ?_, ?_, ?_, ?_⟩, ?_⟩
    · rw [hstep]
      exact hnext
    · rw [hstep]
      exact houtput
    · rw [hcore2]
    · intro p
      rw [hstep, hcore2]
      exact CbcLemmas.step_subsequent hjob' _
    · rw [Point.left, hstep, Point.left, hshort]
      omega
  · right
    have hstep : (c.step (she P latency)).1 =
        { c.1.collected bytes with cmdInProgress := false } := by
      rw [Point.step, hcore, hstate]
      exact if_pos hover
    have hall : (c.1.collected bytes).index.toNat = c₀.1.inputBuff.length := by
      rw [← h.args.inputBuff, h.state.length]
      exact Nat.le_antisymm hnext.index_le hover
    rw [hall, List.take_length] at houtput
    refine ⟨by rw [Point.busy, hstep], hargs, by rw [hstep]; rfl, by rw [hstep]; exact houtput, ?_⟩
    rw [hcore2, hjob, if_pos (by omega)]

/-- The first command of a call. -/
theorem start (hstate : CbcState direction c.1) (hindex : c.1.index = 0) (hseq : c.1.seq = .first)
    (hidle : c.2.2.job = .idle) (hcount : c.1.fullSize.toNat / 16 < 65536) :
    CbcRun P direction c c := by
  have hnone : c.1.inputBuff.take c.1.index.toNat = [] := by
    rw [hindex]
    exact List.take_zero
  have hrest : c.1.rest.length = c.1.fullSize.toNat := by
    rw [hstate.rest_length, hindex]
    exact Nat.sub_zero _
  have hblocks : toBlocks 16 ([] : List Byte) = [] := toBlocks_of_lt (by decide)
  have hpages : ((c.1.fullSize >>> 4).setWidth 16 : Halfword).toNat = c.1.rest.length / 16 := by
    rw [BitVec.toNat_setWidth, BitVec.toNat_ushiftRight, Nat.shiftRight_eq_div_pow, hrest]
    exact Nat.mod_eq_of_lt hcount
  refine ⟨.refl _, hstate, ?_, rfl, fun p => ?_⟩
  · rw [hnone, hindex, cbcBytes, hblocks]
    rfl
  · obtain ⟨hcountOf, hiv⟩ := hstate.parameters p
    rw [hseq, step_of_first direction hidle, hcountOf, hiv hseq, hpages, hnone, hblocks]
    rfl

end CbcRun

/-! ## Whole calls -/

/-- A CBC call in either direction. -/
def cbcCall : Direction → KeyID → List Byte → Word → Block → List Byte → Call
  | .enc => encryptCbc
  | .dec => decryptCbc

theorem cbcCall_init (direction : Direction) (input output : List Byte) (length : Word)
    (iv : Block) (st : State) :
    (cbcCall direction .ramKey input length iv output).init st =
      { initState .ramKey direction.command input output length st with iv := iv } := by
  cases direction with
  | enc => rfl
  | dec => rfl

/-- `CSEC_DRV_EncryptCBC` and `CSEC_DRV_DecryptCBC` end with CBC of the input in the output
buffer. -/
theorem ends_cbc (direction : Direction) {st : State} {p : Pram} {e : She} {input : List Byte}
    {length : Word} (hidle : e.job = .idle) (hlen : input.length = length.toNat)
    (hpages : length.toNat % 16 = 0) (hcount : length.toNat / 16 < 65536) (iv : Block)
    (output : List Byte) :
    ∃ n c', n ≤ input.length + 1 ∧ Ends Point.busy (Point.step (she P latency)) n
        ((cbcCall direction .ramKey input length iv output).point st p e) c' ∧
      Ended ((cbcCall direction .ramKey input length iv output).point st p e) c' .success
        (cbcBytes P direction e.ramKey iv input ++ output.drop input.length) := by
  have hinit := cbcCall_init direction input output length iv st
  obtain ⟨c₀, hc₀⟩ : ∃ c₀, c₀ = (cbcCall direction .ramKey input length iv output).point st p e :=
    ⟨_, rfl⟩
  rw [Call.point, hinit] at hc₀
  rw [Call.point, hinit, ← hc₀]
  have hstart : CbcRun P direction c₀ c₀ := by
    rw [hc₀]
    exact CbcRun.start ⟨rfl, rfl, hlen, hpages, Nat.zero_le _, rfl⟩ rfl rfl hidle hcount
  have hbusy : c₀.busy = true := by
    rw [hc₀]
    rfl
  obtain ⟨n, c', hn, hends, hended⟩ : ∃ n c', n ≤ c₀.left + 1 ∧
      Ends Point.busy (Point.step (she P latency)) n c₀ c' ∧
      Ended c₀ c' .success (cbcBytes P direction c₀.2.2.ramKey c₀.1.iv c₀.1.inputBuff ++
        c₀.1.outputBuff.drop c₀.1.inputBuff.length) :=
    Ends.rule (CbcRun P direction c₀) _ Point.left (fun c hbusy h => h.collected latency hbusy)
      hbusy hstart
  refine ⟨n, c', ?_, hends, ?_⟩
  · rw [hc₀] at hn
    exact hn
  rw [hc₀] at hended ⊢
  exact hended

end Reference

end Csec
