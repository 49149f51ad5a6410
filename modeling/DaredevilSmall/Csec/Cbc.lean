import DaredevilSmall.Csec.She

/-!
# CBC in one shot

`encrypt_cbc` and `decrypt_cbc` cut their input into commands of six and then
seven pages. The engine carries the chaining value from one command to the next,
so together the commands compute CBC over the whole buffer:

1. `run_cbcRequests`: what a session of CBC commands reads back is the stream of
   the engine's steps over the blocks of the input.
2. `cbc_oneShot`: both calls on the engine `she`, and their round trip.
-/

namespace Csec

open Mmio Data Crypto She SheLemmas SessionLemmas

variable {P : Primitives} (latency : She → Pram → Nat) {s : Cse She}

/-- CBC encryption of a byte string of whole blocks. -/
def encryptBytes (P : Primitives) (key iv : Block) (input : List Byte) : List Byte :=
  ofBlocks (cbcEncrypt Block.xor (P.encrypt key) iv (toBlocks 16 input))

/-- CBC decryption of a byte string of whole blocks. -/
def decryptBytes (P : Primitives) (key iv : Block) (input : List Byte) : List Byte :=
  ofBlocks (cbcDecrypt Block.xor (P.decrypt key) iv (toBlocks 16 input))

theorem encryptBytes_length (key iv : Block) {input : List Byte} (h : input.length % 16 = 0) :
    (encryptBytes P key iv input).length = input.length := by
  rw [encryptBytes, ofBlocks_length, cbcEncrypt, stream_length, toBlocks_length h]

theorem decryptBytes_encryptBytes (key iv : Block) {input : List Byte}
    (h : input.length % 16 = 0) :
    decryptBytes P key iv (encryptBytes P key iv input) = input := by
  rw [decryptBytes, encryptBytes, toBlocks_ofBlocks (by decide),
    cbcDecrypt_cbcEncrypt Block.xor_xor (P.decrypt_encrypt key), ofBlocks_toBlocks h]

def Direction.command : Direction → Command
  | enc => .encCbc
  | dec => .decCbc

namespace CbcLemmas

theorem command_implemented (direction : Direction) : direction.command.implemented = true := by
  cases direction <;> rfl

theorem keyOf_command (direction : Direction) : keyOf direction.command = .ramKey := by
  cases direction <;> rfl

theorem step_first (direction : Direction) {e : She} (h : e.job = .idle) (p : Pram) :
    e.step P direction.command .first p =
      some (e.cbc P direction (halfwordAt p pageLengthOffset).toNat (page p page1Offset)
        page2Offset 6 p) := by
  cases direction <;> simp only [Direction.command, step, h]

theorem step_subsequent {direction : Direction} {e : She} {n : Nat} {chain : Block}
    (h : e.job = .cbc direction n chain) (p : Pram) :
    e.step P direction.command .subsequent p =
      some (e.cbc P direction n chain page1Offset 7 p) := by
  cases direction <;> simp only [Direction.command, step, h]

theorem chunk_le {sequence : Sequence} {chunk : List Byte} {n : Nat}
    (h : chunk.length = 16 * min n (handleCbc.availPages sequence) ∨
      chunk = [] ∧ n ≤ handleCbc.availPages sequence) :
    chunk.length ≤ 16 * handleCbc.availPages sequence := by
  rcases h with hlen | ⟨rfl, _⟩
  · omega
  · exact Nat.zero_le _

theorem ordered_cbcRequest {command : Command} {sequence : Sequence} {chunk : List Byte}
    (h : chunk.length ≤ 16 * handleCbc.availPages sequence) :
    Ordered (handleCbc.pageOffset sequence) (cbcRequest command sequence chunk).writes := by
  obtain ⟨_, _, _, hfit⟩ := handleCbc.layout sequence
  exact ⟨Nat.le_refl _, Nat.le_trans (Nat.add_le_add_left h _) (Nat.le_of_eq hfit), trivial⟩

end CbcLemmas

open CbcLemmas

/-- One command of a CBC session: the blocks of its chunk go through the
engine's stream, and the engine is left with the pages still to come. The first
command of an empty input carries no block at all. -/
theorem run_cbcRequest {direction : Direction} {sequence : Sequence} (chunk : List Byte) {n : Nat}
    {chain : Block}
    (hstep : s.engine.step P direction.command sequence
        ((cbcRequest direction.command sequence chunk).handed s.pram) =
      some (s.engine.cbc P direction n chain (handleCbc.pageOffset sequence)
        (handleCbc.availPages sequence)
        ((cbcRequest direction.command sequence chunk).handed s.pram)))
    (hchunk : chunk.length = 16 * min n (handleCbc.availPages sequence) ∨
      chunk = [] ∧ n ≤ handleCbc.availPages sequence)
    (cs : List (Request (List Byte))) :
    ∃ s' : Cse She, s'.engine = { s.engine with
        job := if n ≤ handleCbc.availPages sequence then .idle else
          .cbc direction (n - min n (handleCbc.availPages sequence))
            (stream (cbcStep P s.engine.ramKey direction) chain (toBlocks 16 chunk)).2 } ∧
      Session.run (she P latency) (cbcRequest direction.command sequence chunk :: cs) s =
        { Session.run (she P latency) cs s' with
          observed := ofBlocks
              (stream (cbcStep P s.engine.ramKey direction) chain (toBlocks 16 chunk)).1 ::
            (Session.run (she P latency) cs s').observed } := by
  obtain ⟨hoff, _, _, hfit⟩ := handleCbc.layout sequence
  obtain ⟨s', _, hengine, hrun⟩ := run_done latency
    (command_implemented direction) (by rw [keyOf_command]; rfl) hstep cs
  have hslice := (cbcRequest direction.command sequence chunk).slice_handed
    (ordered_cbcRequest (chunk_le hchunk)) (by omega) s.pram List.mem_cons_self
  have hobserve (p : Pram) : (cbcRequest direction.command sequence chunk).observe p =
      slice p (handleCbc.pageOffset sequence) chunk.length := rfl
  refine ⟨s', hengine.trans ?_, hrun.trans ?_⟩
  · rcases hchunk with hlen | ⟨_, hle⟩
    · simp only [pages, ← hlen, hslice]
    · simp only [if_pos hle]
  · rw [hobserve, slice_report _ _ (by omega)]
    rcases hchunk with hlen | ⟨rfl, _⟩
    · have hout : chunk.length = (ofBlocks (stream (cbcStep P s.engine.ramKey direction) chain
          (toBlocks 16 chunk)).1).length := by
        rw [ofBlocks_length, stream_length, toBlocks_length (by omega)]
      simp only [pages, ← hlen, hslice]
      congr 2
      conv_lhs => rw [hout]
      exact slice_splice_self _ (by omega)
    · rw [toBlocks_of_lt (by decide)]
      rfl

/-- A CBC session over `input`, as the engine sees it: every command is in
sequence, what it reads back is the stream of the engine's steps, and the engine
is idle at the end. -/
structure CbcDone (P : Primitives) (direction : Direction) (e : She) (chain : Block)
    (input : List Byte) (r : Session.Result She (List Byte)) : Prop where
  ending : r.ending = .done (.ok ())
  output : r.observed.flatten =
    ofBlocks (stream (cbcStep P e.ramKey direction) chain (toBlocks 16 input)).1
  engine : r.state.engine = { e with job := .idle }

/-- The last command of a session. -/
theorem CbcDone.last {direction : Direction} {e : She} {chain : Block} {input : List Byte}
    {s' : Cse She} (h : s'.engine = { e with job := .idle }) :
    CbcDone P direction e chain input
      { Session.run (she P latency) ([] : List (Request (List Byte))) s' with
        observed := [ofBlocks (stream (cbcStep P e.ramKey direction) chain
          (toBlocks 16 input)).1] } :=
  ⟨rfl, List.flatten_singleton, h⟩

/-- A command of whole blocks in front of the rest of a session. -/
theorem CbcDone.cons {direction : Direction} {e : She} {chain : Block} {k : Nat}
    {input : List Byte} {s' : Cse She} {cs : List (Request (List Byte))} {job : Job}
    (hengine : s'.engine = { e with job := job }) (hk : (input.take (16 * k)).length = 16 * k)
    (h : CbcDone P direction s'.engine
      (stream (cbcStep P e.ramKey direction) chain (toBlocks 16 (input.take (16 * k)))).2
      (input.drop (16 * k)) (Session.run (she P latency) cs s')) :
    CbcDone P direction e chain input
      { Session.run (she P latency) cs s' with
        observed := ofBlocks (stream (cbcStep P e.ramKey direction) chain
            (toBlocks 16 (input.take (16 * k)))).1 ::
          (Session.run (she P latency) cs s').observed } := by
  refine ⟨h.ending, ?_, h.engine.trans (by rw [hengine])⟩
  have hblocks := toBlocks_append (n := 16) (by decide) (a := input.take (16 * k))
    (by rw [hk]; exact Nat.mul_mod_right 16 k) (input.drop (16 * k))
  rw [List.take_append_drop] at hblocks
  rw [List.flatten_cons, h.output, hblocks, stream_append, ofBlocks_append, hengine]

theorem run_cbcRequests_subsequent {direction : Direction} (input : List Byte) {chain : Block}
    (hpages : input.length % 16 = 0) (hpos : 0 < input.length)
    (hjob : s.engine.job = .cbc direction (input.length / 16) chain) :
    CbcDone P direction s.engine chain input
      (Session.run (she P latency) (cbcRequests direction.command .subsequent input) s) := by
  induction hlen : input.length using Nat.strongRecOn generalizing input chain s with
  | ind n ih =>
    rcases Nat.lt_or_ge 112 input.length with hmore | hlast
    · have htake : (input.take 112).length = 112 := List.length_take_of_le (Nat.le_of_lt hmore)
      have hdrop : (input.drop 112).length / 16 = input.length / 16 - 7 := by
        rw [List.length_drop]
        omega
      obtain ⟨s', hengine, hrun⟩ := run_cbcRequest latency (input.take 112)
        (step_subsequent hjob _)
        (Or.inl (show (input.take 112).length = 16 * min (input.length / 16) 7 by omega))
        (cbcRequests direction.command .subsequent (input.drop 112))
      rw [show handleCbc.availPages .subsequent = 7 from rfl, if_neg (by omega),
        Nat.min_eq_right (by omega), ← hdrop] at hengine
      rw [show cbcRequests direction.command .subsequent input = _ from cbcRequests_of_lt hmore]
      refine (congrArg (CbcDone P direction s.engine chain input) hrun).mpr ?_
      refine CbcDone.cons latency (k := 7) hengine htake ?_
      exact ih (input.drop 112).length (by rw [List.length_drop]; omega) (input.drop 112)
        (by rw [List.length_drop]; omega) (by rw [List.length_drop]; omega) (by rw [hengine]) rfl
    · obtain ⟨s', hengine, hrun⟩ := run_cbcRequest latency input (step_subsequent hjob _)
        (Or.inl (show input.length = 16 * min (input.length / 16) 7 by omega)) []
      rw [show handleCbc.availPages .subsequent = 7 from rfl, if_pos (by omega)] at hengine
      rw [cbcRequests_of_le hlast]
      exact (congrArg (CbcDone P direction s.engine chain input) hrun).mpr
        (CbcDone.last latency hengine)

namespace CbcLemmas

/-- The page count and the initialization vector survive the first chunk. -/
theorem parameters_handed (input : List Byte) (initVec : Block) (command : Command)
    {chunk : List Byte} (h : chunk.length ≤ 96) :
    halfwordAt ((cbcRequest command .first chunk).handed (s.prepareCbc input initVec).pram)
        pageLengthOffset = announcedPages input ∧
      page ((cbcRequest command .first chunk).handed (s.prepareCbc input initVec).pram)
        page1Offset = initVec := by
  have hordered : Ordered page2Offset (cbcRequest command .first chunk).writes :=
    ⟨Nat.le_refl _, Nat.add_le_add_left h 32, trivial⟩
  constructor
  · rw [Request.halfwordAt_handed _ hordered _ (by decide) (by decide)]
    exact halfwordAt_splice_self _ _ (by decide)
  · apply Vector.toList_inj.mp
    have hslice : slice ((cbcRequest command .first chunk).handed (s.prepareCbc input initVec).pram)
        page1Offset 16 = slice (splice s.pram page1Offset initVec.toList) page1Offset 16 :=
      (slice_congr fun j hj => Request.byteAt_handed _ hordered _
        (Nat.le_add_right_of_le (by decide)) (Nat.add_lt_add_left hj 16)).trans
        (slice_splice_of_disjoint _ (Or.inr (show 14 + 2 ≤ 16 by decide)))
    rw [page_toList, hslice]
    exact slice_splice_page s.pram initVec (by decide)

/-- The first command of a call starts a job of the announced pages. -/
theorem step_prepared (direction : Direction) (hidle : s.engine.job = .idle) (input : List Byte)
    (initVec : Block) {chunk : List Byte} (h : chunk.length ≤ 96) :
    s.engine.step P direction.command .first
        ((cbcRequest direction.command .first chunk).handed (s.prepareCbc input initVec).pram) =
      some (s.engine.cbc P direction (announcedPages input).toNat initVec page2Offset 6
        ((cbcRequest direction.command .first chunk).handed
          (s.prepareCbc input initVec).pram)) := by
  obtain ⟨hcount, hiv⟩ := parameters_handed (s := s) input initVec direction.command h
  rw [step_first direction hidle, hcount, hiv]

/-- A page count that fits is announced as it is. -/
theorem announcedPages_of_le {input : List Byte} (hcount : input.length / 16 ≤ 65535) :
    (announcedPages input).toNat = max (input.length / 16) 1 := by
  rw [announcedPages_toNat]
  exact congrArg (max · 1) (Nat.mod_eq_of_lt (Nat.lt_succ_of_le hcount))

end CbcLemmas

/-- The session of a CBC call. -/
theorem run_cbcRequests (direction : Direction) (hidle : s.engine.job = .idle)
    (input : List Byte) (initVec : Block) (hpages : input.length % 16 = 0)
    (hcount : input.length / 16 ≤ 65535) :
    CbcDone P direction s.engine initVec input
      (Session.run (she P latency) (cbcRequests direction.command .first input)
        (s.prepareCbc input initVec)) := by
  have hstep (chunk : List Byte) (h : chunk.length ≤ 96) :=
    step_prepared (P := P) (s := s) direction hidle input initVec h
  have hpagesOf := announcedPages_of_le hcount
  generalize (announcedPages input).toNat = n at hstep hpagesOf
  have hsix : handleCbc.availPages .first = 6 := rfl
  rcases Nat.lt_or_ge 96 input.length with hmore | hlast
  · have htake : (input.take 96).length = 96 := List.length_take_of_le (Nat.le_of_lt hmore)
    have hdrop : (input.drop 96).length / 16 = n - 6 := by
      rw [List.length_drop]
      omega
    obtain ⟨s', hengine, hrun⟩ := run_cbcRequest latency
      (s := s.prepareCbc input initVec) (input.take 96) (hstep _ (List.length_take_le _ _))
      (Or.inl (by rw [hsix]; omega))
      (cbcRequests direction.command .subsequent (input.drop 96))
    rw [hsix, if_neg (by omega),
      Nat.min_eq_right (by omega), ← hdrop] at hengine
    rw [show cbcRequests direction.command .first input = _ from cbcRequests_of_lt hmore]
    refine (congrArg (CbcDone P direction s.engine initVec input) hrun).mpr ?_
    refine CbcDone.cons latency (k := 6) hengine htake ?_
    exact run_cbcRequests_subsequent latency (input.drop 96) (by rw [List.length_drop]; omega)
      (by rw [List.length_drop]; omega) (by rw [hengine]; rfl)
  · obtain ⟨s', hengine, hrun⟩ := run_cbcRequest latency
      (s := s.prepareCbc input initVec) input (hstep _ hlast)
      (by
        rcases Nat.eq_zero_or_pos input.length with hzero | hpos
        · exact Or.inr ⟨List.eq_nil_of_length_eq_zero hzero, by rw [hsix]; omega⟩
        · exact Or.inl (by rw [hsix]; omega)) []
    rw [hsix, if_pos (by omega)] at hengine
    rw [cbcRequests_of_le hlast]
    exact (congrArg (CbcDone P direction s.engine initVec input) hrun).mpr
      (CbcDone.last latency hengine)

/-- A CBC call from an idle engine. -/
theorem exec_handleCbc_she (direction : Direction) (hidle : s.engine.job = .idle)
    {input output : List Byte} (initVec : Block) (hpages : input.length % 16 = 0)
    (hcount : input.length / 16 ≤ 65535) (hout : output.length = input.length) :
    ∃ s' : Cse She, s'.engine = s.engine ∧
      exec (cseHw (she P latency)) (handleCbc direction.command input initVec output) s =
        (.done (.ok (), ofBlocks
          (stream (cbcStep P s.engine.ramKey direction) initVec (toBlocks 16 input)).1), s') := by
  have hdone := run_cbcRequests latency (P := P) direction hidle input initVec hpages
    hcount
  have hengine : { s.engine with job := .idle } = s.engine := by
    rw [← hidle]
  refine ⟨_, hdone.engine.trans hengine, ?_⟩
  have hlen : (ofBlocks (stream (cbcStep P s.engine.ramKey direction) initVec
      (toBlocks 16 input)).1).length = output.length := by
    rw [ofBlocks_length, stream_length, toBlocks_length hpages, hout]
  rw [exec_handleCbc (command_implemented direction) initVec hout hpages,
    finishCbc_done hdone.ending, hdone.output, hlen, List.drop_length, List.append_nil]

/-- `encrypt_cbc` from an idle engine. -/
theorem exec_encryptCbc (P : Primitives) (hidle : s.engine.job = .idle) (input : List Byte)
    (initVec : Block) (output : List Byte) (hpages : input.length % 16 = 0)
    (hcount : input.length / 16 ≤ 65535) (hout : output.length = input.length) :
    ∃ s' : Cse She, s'.engine = s.engine ∧
      exec (cseHw (she P latency)) (encryptCbc input initVec output) s =
        (.done (.ok (), encryptBytes P s.engine.ramKey initVec input), s') :=
  exec_handleCbc_she latency .enc hidle initVec hpages hcount hout

/-- `decrypt_cbc` from an idle engine. -/
theorem exec_decryptCbc (P : Primitives) (hidle : s.engine.job = .idle) (input : List Byte)
    (initVec : Block) (output : List Byte) (hpages : input.length % 16 = 0)
    (hcount : input.length / 16 ≤ 65535) (hout : output.length = input.length) :
    ∃ s' : Cse She, s'.engine = s.engine ∧
      exec (cseHw (she P latency)) (decryptCbc input initVec output) s =
        (.done (.ok (), decryptBytes P s.engine.ramKey initVec input), s') :=
  exec_handleCbc_she latency .dec hidle initVec hpages hcount hout

/-- For every key, initialization vector and content of PRAM, from an idle engine:
both calls compute CBC over the whole buffer, however it is cut into commands,
and leave the engine as it was. Hence decryption gives the plaintext back. -/
theorem cbc_oneShot (P : Primitives) (latency : She → Pram → Nat) (s : Cse She)
    (hidle : s.engine.job = .idle) (initVec : Block) (input output : List Byte)
    (hpages : input.length % 16 = 0) (hcount : input.length / 16 ≤ 65535)
    (hout : output.length = input.length) :
    (∃ s', s'.engine = s.engine ∧
      exec (cseHw (she P latency)) (encryptCbc input initVec output) s =
        (.done (.ok (), encryptBytes P s.engine.ramKey initVec input), s')) ∧
    (∃ s', s'.engine = s.engine ∧
      exec (cseHw (she P latency)) (decryptCbc input initVec output) s =
        (.done (.ok (), decryptBytes P s.engine.ramKey initVec input), s')) ∧
    ∃ ciphertext s', exec (cseHw (she P latency)) (encryptCbc input initVec output) s =
        (.done (.ok (), ciphertext), s') ∧
      ∀ buffer : List Byte, buffer.length = input.length → ∃ s'', s''.engine = s.engine ∧
        exec (cseHw (she P latency)) (decryptCbc ciphertext initVec buffer) s' =
          (.done (.ok (), input), s'') := by
  obtain ⟨s', hengine, henc⟩ := exec_encryptCbc latency P hidle input initVec output hpages hcount
    hout
  have hdec := exec_decryptCbc latency P hidle input initVec output hpages hcount hout
  have hlen := encryptBytes_length (P := P) s.engine.ramKey initVec hpages
  refine ⟨⟨s', hengine, henc⟩, hdec, _, s', henc, fun buffer hbuffer => ?_⟩
  obtain ⟨s₂, hengine₂, hback⟩ := exec_decryptCbc latency P (hengine ▸ hidle) _ initVec buffer
    (hlen.symm ▸ hpages) (hlen.symm ▸ hcount) (hbuffer.trans hlen.symm)
  refine ⟨s₂, hengine₂.trans hengine, hback.trans ?_⟩
  rw [hengine]
  exact congrArg (fun b => (Outcome.done (Except.ok (), b), s₂))
    (decryptBytes_encryptBytes s.engine.ramKey initVec hpages)

/-- Fourteen pages whose ciphertext under `sampleCipher` is `sampleCipher` again and again. -/
def samplePages : List Byte := ofBlocks (List.replicate 14 (samplePlain.xor sampleCipher))

/-- Three commands over what others have left in PRAM, and the way back. -/
theorem cbc_oneShot_sample : ∃ s', s'.engine = She.sample ∧
    exec (cseHw (she .sample fun _ _ => 3))
        (encryptCbc samplePages sampleCipher (List.replicate 224 0)) (Cse.stale She.sample) =
      (.done (.ok (), ofBlocks (List.replicate 14 sampleCipher)), s') ∧
    ∃ s'', s''.engine = She.sample ∧
      exec (cseHw (she .sample fun _ _ => 3)) (decryptCbc
          (ofBlocks (List.replicate 14 sampleCipher)) sampleCipher (List.replicate 224 0xff)) s' =
        (.done (.ok (), samplePages), s'') := by
  have hlen : samplePages.length = 224 := by
    rw [samplePages, ofBlocks_length, List.length_replicate]
  have henc : encryptBytes .sample (Cse.stale She.sample).engine.ramKey sampleCipher
      samplePages = ofBlocks (List.replicate 14 sampleCipher) := by
    rw [encryptBytes, samplePages, toBlocks_ofBlocks (by decide)]
    decide +kernel
  obtain ⟨⟨s', hengine, hencrypt⟩, _, ciphertext, s₁, hexec, hback⟩ := cbc_oneShot .sample
    (fun _ _ => 3) (Cse.stale She.sample) rfl sampleCipher samplePages (List.replicate 224 0)
    (by rw [hlen]) (by rw [hlen]; decide) (by rw [hlen, List.length_replicate])
  obtain ⟨houtcome, rfl⟩ := Prod.mk.inj (hencrypt.symm.trans hexec)
  obtain rfl : encryptBytes .sample (Cse.stale She.sample).engine.ramKey sampleCipher
      samplePages = ciphertext := by
    simpa using houtcome
  rw [henc] at hencrypt hback
  exact ⟨s', hengine, hencrypt, hback (List.replicate 224 0xff)
    (by rw [hlen, List.length_replicate])⟩

end Csec
