import DaredevilSmall.Csec.Verify
import DaredevilSmall.Csec.Cbc
import DaredevilSmall.Csec.ErrorPath

/-!
# When the engine and the driver disagree

The driver cuts its input into commands, and the engine counts down the pages it
was told to expect. Nothing but the announced number keeps the two together.
Here the numbers are arbitrary: if the engine is done before the driver, the next
command is out of sequence, and the engine is idle whatever happens.

1. `run_mac_pages`: a session of MAC commands on an engine that expects `n` pages.
2. `exec_generateMac_idle`, `exec_verifyMac_idle`: every MAC call leaves the engine
   as it was, and `exec_verifyMac_long`: on a message of 8192 bytes or more
   `verify_mac` runs into a sequence error.
3. `exec_handleCbc_overrun`: a CBC call whose page count is announced short, with
   the contents of the output buffer.
-/

namespace Csec

open Mmio Data Crypto She SheLemmas SessionLemmas MacLemmas VerifyLemmas CbcLemmas

variable {P : Primitives} (latency : She → Pram → Nat) {s : Cse She} {β : Type}

/-! ## Commands out of sequence -/

/-- A command out of sequence ends the session and leaves the engine alone. -/
theorem run_outOfSequence_state {c : Request β} {cmd : Command} {sequence : Sequence}
    (himpl : cmd.implemented = true)
    (hheader : c.header = headerWord cmd .copy sequence (keyOf cmd))
    (hstep : s.engine.step P cmd sequence (c.handed s.pram) = none) (cs : List (Request β)) :
    (Session.run (she P latency) (c :: cs) s).ending = .done (.error .sequenceError) ∧
      (Session.run (she P latency) (c :: cs) s).state.engine = s.engine ∧
      (Session.run (she P latency) (c :: cs) s).observed = [] := by
  have hdecode : decode (c.handed s.pram 0) = some (cmd, sequence) := by
    rw [Request.handed, Function.update_self, hheader, decode_headerWord himpl]
  have hrun : (she P latency).run s.engine (c.handed s.pram) =
      (report (c.handed s.pram) .sequenceError, s.engine) := by
    simp only [she, hdecode, hstep]
  rw [run_cons, serve_outOfSequence latency himpl hheader hstep, status_report]
  exact ⟨rfl, congrArg Prod.snd hrun, rfl⟩

/-! ## MAC calls -/

/-- The command continues a MAC call. -/
def Continues (kind : MacKind) (c : Request β) : Prop :=
  c.header = headerWord kind.command .copy .subsequent .ramKey

/-- A session of MAC commands on an engine that expects `n` more pages. The engine is
idle at the end if there are enough commands for these pages, and the session
ends with a sequence error if there are more. -/
theorem run_mac_pages {kind : MacKind} {c : Request β} {cs : List (Request β)}
    {sequence : Sequence} {bits n : Nat} {seen : List Block}
    (htakes : Takes P s.engine kind sequence bits n seen (c.handed s.pram))
    (hheader : c.header = headerWord kind.command .copy sequence .ramKey)
    (hrest : ∀ c ∈ cs, Continues kind c) (hn : n ≤ 7 * (cs.length + 1)) :
    (Session.run (she P latency) (c :: cs) s).state.engine = { s.engine with job := .idle } ∧
      (cs ≠ [] → n ≤ 7 * cs.length →
        (Session.run (she P latency) (c :: cs) s).ending = .done (.error .sequenceError)) := by
  induction cs generalizing c s sequence n seen with
  | nil =>
    obtain ⟨s', hengine, _, hrun⟩ := run_mac_last latency htakes hheader hn []
    rw [hrun]
    exact ⟨hengine, fun hne => absurd rfl hne⟩
  | cons c' cs ih =>
    have hheader' : Continues kind c' := hrest c' List.mem_cons_self
    cases Nat.lt_or_ge 7 n with
    | inl hmore =>
      obtain ⟨s', hengine, hrun⟩ := run_mac_more latency htakes hheader hmore (c' :: cs)
      rw [List.length_cons] at hn
      obtain ⟨hidle, herror⟩ := ih (s := s') (takes_subsequent (by rw [hengine]) _) hheader'
        (fun d hd => hrest d (List.mem_cons_of_mem _ hd))
        (show n - 7 ≤ 7 * (cs.length + 1) by omega)
      rw [hrun]
      refine ⟨hidle.trans (by rw [hengine]), fun _ hle => herror ?_ ?_⟩
      · rintro rfl
        simp only [List.length_cons, List.length_nil] at hle
        omega
      · rw [List.length_cons] at hle
        omega
    | inr hlast =>
      -- the engine is done, but the session is not
      obtain ⟨s', hengine, _, hrun⟩ := run_mac_last latency htakes hheader hlast (c' :: cs)
      have hnone := step_idle (P := P) (e := s'.engine) (by rw [hengine]) kind (c'.handed s'.pram)
      obtain ⟨hending, hstate, _⟩ := run_outOfSequence_state latency
        (MacLemmas.command_implemented kind) (by rw [MacLemmas.keyOf_command]; exact hheader') hnone
        cs
      rw [hrun]
      exact ⟨hstate.trans hengine, fun _ _ => hending⟩

namespace OverrunLemmas

/-- A call of `generate_mac` as a first command and those that continue it. -/
theorem macRequests_split (message : List Byte) :
    ∃ chunk cs, chunk.length ≤ maxBytes ∧
      macRequests .first message = macRequest .first chunk :: cs ∧
      (∀ c ∈ cs, Continues .generate c) ∧
      cs.length + 1 = Op.commandsFor 112 message.length := by
  have hcount := ErrorPathLemmas.length_macRequests message
  have hcontinues (rest : List Byte) : ∀ c ∈ macRequests .subsequent rest,
      Continues .generate c := by
    intro c hc
    rw [macRequests, sequenced_subsequent, List.map_map] at hc
    obtain ⟨_, _, rfl⟩ := List.mem_map.mp hc
    rfl
  cases Nat.lt_or_ge maxBytes message.length with
  | inl hmore =>
    rw [macRequests_of_lt hmore] at hcount ⊢
    exact ⟨_, _, List.length_take_le _ _, rfl, hcontinues _, hcount⟩
  | inr hlast =>
    rw [macRequests_of_le hlast] at hcount ⊢
    exact ⟨message, [], hlast, rfl, by simp, hcount⟩

/-- A call of `verify_mac` as a first command and those that continue it. -/
theorem verifyRequests_split (cmac : Block) (message : List Byte) :
    ∃ chunk appended cs, chunk.length ≤ maxBytes ∧ (appended = true → chunk.length ≤ 80) ∧
      verifyRequests cmac.toList .first message =
        verifyRequest cmac.toList .first chunk appended :: cs ∧
      (∀ c ∈ cs, Continues (.verify 0) c) ∧
      cs.length + 1 = Op.commandsFor 80 message.length := by
  have hcount := ErrorPathLemmas.length_verifyRequests cmac.toList message
  have hcontinues (rest : List Byte) : ∀ c ∈ verifyRequests cmac.toList .subsequent rest,
      Continues (.verify 0) c := by
    intro c hc
    rw [verifyRequests, sequenced_subsequent, List.map_map] at hc
    obtain ⟨_, _, rfl⟩ := List.mem_map.mp hc
    rfl
  cases Nat.lt_or_ge 80 message.length with
  | inl hmore =>
    rw [verifyRequests_of_lt hmore] at hcount ⊢
    exact ⟨_, _, _, List.length_take_le _ _, by simp, rfl, hcontinues _, hcount⟩
  | inr hlast =>
    rw [verifyRequests_of_le hlast] at hcount ⊢
    exact ⟨message, true, [], Nat.le_trans hlast (by decide), fun _ => hlast, rfl, by simp,
      hcount⟩

/-- What the engine latches at the first command of `verify_mac`, for a message of
any length. -/
theorem takes_verify_any (hidle : s.engine.job = .idle) (message : List Byte) (cmac : Block)
    {chunk : List Byte} {appended : Bool} (hchunk : chunk.length ≤ maxBytes)
    (happended : appended = true → chunk.length ≤ 80) :
    Takes P s.engine (.verify 0) .first (8 * message.length % 65536)
      ((8 * message.length % 65536 + 127) / 128 + 1) []
      ((verifyRequest cmac.toList .first chunk appended).handed
        (s.prepareVerifyMac message).pram) := by
  have hordered := ordered_verifyRequest cmac .first appended hchunk happended
  obtain ⟨_, hbits, hmacLength⟩ := parameters_prepared s message
  have htakes := takes_verify (P := P) hidle ((verifyRequest cmac.toList .first chunk
    appended).handed (s.prepareVerifyMac message).pram)
  rwa [bitLength_handed hordered, Request.halfwordAt_handed _ hordered _ (by decide) (by decide),
    hbits, hmacLength] at htakes

theorem idle_eq {e : She} (hidle : e.job = .idle) : { e with job := .idle } = e := by
  rw [← hidle]

end OverrunLemmas

open OverrunLemmas

/-- `generate_mac` leaves the engine as it was, on a message of any length. -/
theorem exec_generateMac_idle (P : Primitives) (hidle : s.engine.job = .idle)
    {message : List Byte} (hlen : message.length ≤ u32Max) :
    (exec (cseHw (she P latency)) (generateMac message) s).2.engine = s.engine := by
  obtain ⟨chunk, cs, hchunk, hsplit, hcontinues, hcount⟩ := macRequests_split message
  have hpages : (8 * message.length % 65536 + 127) / 128 ≤ 7 * (cs.length + 1) := by
    rw [hcount, Op.commandsFor]
    omega
  have hrun := run_mac_pages latency (P := P) (s := s.prepareGenerateMac message)
    (takes_prepared hidle message hchunk) rfl hcontinues hpages
  rw [exec_generateMac hlen, finish_state, hsplit]
  exact hrun.1.trans (idle_eq hidle)

/-- `verify_mac` leaves the engine as it was, on a message of any length. A message
of 8192 bytes or more runs into a sequence error. -/
theorem exec_verifyMac_idle (P : Primitives) (hidle : s.engine.job = .idle)
    {message : List Byte} (hpos : 0 < message.length) (hlen : message.length ≤ u32Max)
    (cmac : Block) :
    (exec (cseHw (she P latency)) (verifyMac message cmac) s).2.engine = s.engine ∧
      (8192 ≤ message.length → (exec (cseHw (she P latency)) (verifyMac message cmac) s).1 =
        .done (.error .sequenceError)) := by
  obtain ⟨chunk, appended, cs, hchunk, happended, hsplit, hcontinues, hcount⟩ :=
    verifyRequests_split cmac message
  have hcommands : cs.length + 1 = 1 + (message.length - 80 + 111) / 112 := hcount
  have hpages : (8 * message.length % 65536 + 127) / 128 + 1 ≤ 7 * (cs.length + 1) := by
    omega
  obtain ⟨hstate, herror⟩ := run_mac_pages latency (P := P) (s := s.prepareVerifyMac message)
    (takes_verify_any hidle message cmac hchunk happended) rfl hcontinues hpages
  rw [exec_verifyMac hpos hlen, hsplit]
  refine ⟨?_, fun hlong => ?_⟩
  · rw [finish_state]
    exact hstate.trans (idle_eq hidle)
  · have hne : cs ≠ [] := by
      rintro rfl
      simp only [List.length_nil] at hcommands
      omega
    exact congrArg Prod.fst (finish_error (herror hne (by omega)) _)

/-! ## CBC calls -/

/-- The bytes that a CBC call of the engine makes of whole blocks. -/
def cbcBytes (P : Primitives) (direction : Direction) (key initVec : Block) (input : List Byte) :
    List Byte :=
  ofBlocks (stream (cbcStep P key direction) initVec (toBlocks 16 input)).1

/-- A command of more pages than the engine still expects: the pages behind the last
of them are left as they were handed over. -/
def cutShort (P : Primitives) (direction : Direction) (key initVec : Block) (n : Nat)
    (input : List Byte) : List Byte :=
  cbcBytes P direction key initVec (input.take (16 * n)) ++ input.drop (16 * n)

namespace OverrunLemmas

theorem slice_take (p : Pram) (offset : Nat) {a b : Nat} (h : a ≤ b) :
    slice p offset a = (slice p offset b).take a := by
  obtain ⟨k, rfl⟩ := Nat.exists_eq_add_of_le h
  rw [← slice_append, List.take_left' (slice_length _ _ _)]

theorem slice_drop (p : Pram) (offset a b : Nat) :
    slice p (offset + a) b = (slice p offset (a + b)).drop a := by
  rw [← slice_append, List.drop_left' (slice_length _ _ _)]

theorem cbcBytes_length {direction : Direction} {key initVec : Block} {input : List Byte}
    (h : input.length % 16 = 0) :
    (cbcBytes P direction key initVec input).length = input.length := by
  rw [cbcBytes, ofBlocks_length, stream_length, toBlocks_length h]

theorem cutShort_length {direction : Direction} {key initVec : Block} {n : Nat} {input : List Byte}
    (h : 16 * n ≤ input.length) :
    (cutShort P direction key initVec n input).length = input.length := by
  have hblocks : (input.take (16 * n)).length % 16 = 0 := by
    rw [List.length_take_of_le h]
    exact Nat.mul_mod_right 16 n
  rw [cutShort, List.length_append, cbcBytes_length hblocks, ← List.length_append,
    List.take_append_drop]

/-- The last command that the engine takes, when the driver has more to come. -/
theorem run_cbc_last {direction : Direction} {sequence : Sequence} (chunk : List Byte) {n : Nat}
    {chain : Block}
    (hstep : s.engine.step P direction.command sequence
        ((cbcRequest direction.command sequence chunk).handed s.pram) =
      some (s.engine.cbc P direction n chain (handleCbc.pageOffset sequence)
        (handleCbc.availPages sequence)
        ((cbcRequest direction.command sequence chunk).handed s.pram)))
    (hchunk : chunk.length = 16 * handleCbc.availPages sequence)
    (hn : n ≤ handleCbc.availPages sequence) (cs : List (Request (List Byte))) :
    ∃ s' : Cse She, s'.engine = { s.engine with job := .idle } ∧
      Session.run (she P latency) (cbcRequest direction.command sequence chunk :: cs) s =
        { Session.run (she P latency) cs s' with
          observed := cutShort P direction s.engine.ramKey chain n chunk ::
            (Session.run (she P latency) cs s').observed } := by
  obtain ⟨hoff, _, _, hfit⟩ := handleCbc.layout sequence
  obtain ⟨s', _, hengine, hrun⟩ := run_done latency
    (CbcLemmas.command_implemented direction) (by rw [CbcLemmas.keyOf_command]; rfl) hstep cs
  have hslice := (cbcRequest direction.command sequence chunk).slice_handed
    (ordered_cbcRequest (Nat.le_of_eq hchunk)) (by omega) s.pram List.mem_cons_self
  generalize (cbcRequest direction.command sequence chunk).handed s.pram = p at *
  change slice p (handleCbc.pageOffset sequence) chunk.length = chunk at hslice
  have hle : 16 * n ≤ chunk.length := by omega
  have hpages : slice p (handleCbc.pageOffset sequence) (16 * n) = chunk.take (16 * n) := by
    rw [slice_take p _ hle, hslice]
  have hout : (cbcBytes P direction s.engine.ramKey chain (chunk.take (16 * n))).length =
      16 * n := by
    rw [cbcBytes_length (by rw [List.length_take_of_le hle]; omega), List.length_take_of_le hle]
  have hfront : slice (splice p (handleCbc.pageOffset sequence)
      (cbcBytes P direction s.engine.ramKey chain (chunk.take (16 * n))))
        (handleCbc.pageOffset sequence) (16 * n) =
      cbcBytes P direction s.engine.ramKey chain (chunk.take (16 * n)) := by
    have hself := slice_splice_self p (show handleCbc.pageOffset sequence + (cbcBytes P direction
      s.engine.ramKey chain (chunk.take (16 * n))).length ≤ 128 by omega)
    rwa [hout] at hself
  have hback : slice (splice p (handleCbc.pageOffset sequence)
      (cbcBytes P direction s.engine.ramKey chain (chunk.take (16 * n))))
        (handleCbc.pageOffset sequence + 16 * n) (chunk.length - 16 * n) = chunk.drop (16 * n) := by
    rw [slice_splice_of_disjoint p (Or.inr (by omega)), slice_drop, Nat.add_sub_cancel' hle, hslice]
  have hobserve : slice (report (splice p (handleCbc.pageOffset sequence)
      (cbcBytes P direction s.engine.ramKey chain (chunk.take (16 * n)))) .noError)
        (handleCbc.pageOffset sequence) chunk.length =
      cutShort P direction s.engine.ramKey chain n chunk := by
    rw [slice_report _ _ (by omega), ← Nat.add_sub_cancel' hle, ← slice_append, hfront, hback]
    rfl
  refine ⟨s', hengine.trans (by rw [if_pos hn]), hrun.trans ?_⟩
  rw [← hobserve]
  simp only [Nat.min_eq_left hn, pages, hpages]
  rfl

/-- The end of a session whose engine is already idle. -/
theorem run_cbc_refused (direction : Direction) (hidle : s.engine.job = .idle)
    (input : List Byte) :
    (Session.run (she P latency) (cbcRequests direction.command .subsequent input) s).ending =
        .done (.error .sequenceError) ∧
      (Session.run (she P latency) (cbcRequests direction.command .subsequent input)
        s).state.engine = s.engine ∧
      (Session.run (she P latency) (cbcRequests direction.command .subsequent input) s).observed =
        [] := by
  have hstep (p : Pram) : s.engine.step P direction.command .subsequent p = none := by
    cases direction <;> simp only [Direction.command, step, hidle]
  obtain ⟨chunk, cs, hcs⟩ : ∃ chunk cs, cbcRequests direction.command .subsequent input =
      cbcRequest direction.command .subsequent chunk :: cs := by
    rw [cbcRequests, pieces]
    exact ⟨_, _, rfl⟩
  rw [hcs]
  exact run_outOfSequence_state latency (CbcLemmas.command_implemented direction)
    (by rw [CbcLemmas.keyOf_command]; rfl) (hstep _) cs

end OverrunLemmas

/-- A CBC session that the engine ends after `n` pages, in the command that carries
the input up to byte `taken`. -/
structure CbcCut (P : Primitives) (direction : Direction) (e : She) (chain : Block)
    (n taken : Nat) (input : List Byte) (r : Session.Result She (List Byte)) : Prop where
  ending : r.ending = .done (.error .sequenceError)
  output : r.observed.flatten = cutShort P direction e.ramKey chain n (input.take taken)
  engine : r.state.engine = { e with job := .idle }

/-- The command in which the engine ends the session. -/
theorem CbcCut.last {direction : Direction} {e : She} {chain : Block} {n k : Nat}
    {input : List Byte} {s' : Cse She} (h : s'.engine = { e with job := .idle }) :
    CbcCut P direction e chain n (16 * k) input
      { Session.run (she P latency)
          (cbcRequests direction.command .subsequent (input.drop (16 * k))) s' with
        observed := cutShort P direction e.ramKey chain n (input.take (16 * k)) ::
          (Session.run (she P latency)
            (cbcRequests direction.command .subsequent (input.drop (16 * k))) s').observed } := by
  obtain ⟨hending, hengine, hobserved⟩ := run_cbc_refused (P := P) latency
    direction (s := s') (by rw [h]) (input.drop (16 * k))
  refine ⟨hending, ?_, hengine.trans h⟩
  rw [hobserved, List.flatten_singleton]

/-- A command of whole blocks in front of the rest of a session. -/
theorem CbcCut.cons {direction : Direction} {e : She} {chain : Block} {k n taken : Nat}
    {input : List Byte} {s' : Cse She} {cs : List (Request (List Byte))} {job : Job}
    (hengine : s'.engine = { e with job := job }) (hk : (input.take (16 * k)).length = 16 * k)
    (hn : k ≤ n) (htaken : 16 * n ≤ taken)
    (h : CbcCut P direction s'.engine
      (stream (cbcStep P e.ramKey direction) chain (toBlocks 16 (input.take (16 * k)))).2
      (n - k) (taken - 16 * k) (input.drop (16 * k)) (Session.run (she P latency) cs s')) :
    CbcCut P direction e chain n taken input
      { Session.run (she P latency) cs s' with
        observed := ofBlocks (stream (cbcStep P e.ramKey direction) chain
            (toBlocks 16 (input.take (16 * k)))).1 ::
          (Session.run (she P latency) cs s').observed } := by
  refine ⟨h.ending, ?_, h.engine.trans (by rw [hengine])⟩
  have hsplit : input.take taken =
      input.take (16 * k) ++ (input.drop (16 * k)).take (taken - 16 * k) := by
    conv_lhs => rw [← List.take_append_drop (16 * k) input]
    rw [List.take_append, hk, List.take_of_length_le (by omega)]
  have hrest : 16 * n - 16 * k = 16 * (n - k) := (Nat.mul_sub 16 n k).symm
  have hfront : (input.take taken).take (16 * n) =
      input.take (16 * k) ++ ((input.drop (16 * k)).take (taken - 16 * k)).take (16 * (n - k)) := by
    rw [hsplit, List.take_append, hk, hrest, List.take_of_length_le (by omega)]
  have hback : (input.take taken).drop (16 * n) =
      ((input.drop (16 * k)).take (taken - 16 * k)).drop (16 * (n - k)) := by
    rw [hsplit, List.drop_append, hk, hrest, List.drop_eq_nil_of_le (by omega), List.nil_append]
  rw [List.flatten_cons, h.output, hengine, cutShort, cutShort, hfront, hback, cbcBytes, cbcBytes,
    toBlocks_append (by decide) (by rw [hk]; exact Nat.mul_mod_right 16 k), stream_append,
    ofBlocks_append, List.append_assoc]

/-- The engine expects `n` more pages, and the driver has more than fit in the
commands for them. -/
theorem run_cbc_overrun {direction : Direction} {n : Nat} (hpos : 0 < n) (input : List Byte)
    {chain : Block} (hlong : 112 * ((n + 6) / 7) < input.length)
    (hjob : s.engine.job = .cbc direction n chain) :
    CbcCut P direction s.engine chain n (112 * ((n + 6) / 7)) input
      (Session.run (she P latency) (cbcRequests direction.command .subsequent input) s) := by
  induction n using Nat.strongRecOn generalizing input chain s with
  | ind n ih =>
    have hmore : 112 < input.length := by omega
    have htake : (input.take 112).length = 112 := List.length_take_of_le (Nat.le_of_lt hmore)
    rw [show cbcRequests direction.command .subsequent input = _ from cbcRequests_of_lt hmore]
    cases Nat.lt_or_ge 7 n with
    | inl hn =>
      obtain ⟨s', hengine, hrun⟩ := run_cbcRequest latency (input.take 112)
        (step_subsequent hjob _) (Or.inl (show (input.take 112).length = 16 * min n 7 by omega))
        (cbcRequests direction.command .subsequent (input.drop 112))
      rw [show handleCbc.availPages .subsequent = 7 from rfl, if_neg (Nat.not_le.mpr hn),
        Nat.min_eq_right (Nat.le_of_lt hn)] at hengine
      have htaken : 112 * ((n + 6) / 7) - 16 * 7 = 112 * ((n - 7 + 6) / 7) := by omega
      refine (congrArg (CbcCut P direction s.engine chain n _ input) hrun).mpr ?_
      refine CbcCut.cons latency hengine htake (Nat.le_of_lt hn) (by omega) ?_
      rw [htaken]
      exact ih (n - 7) (by omega) (by omega) (input.drop 112)
        (by rw [List.length_drop]; omega) (by rw [hengine])
    | inr hn =>
      obtain ⟨s', hengine, hrun⟩ := run_cbc_last latency (input.take 112)
        (step_subsequent hjob _) htake hn
        (cbcRequests direction.command .subsequent (input.drop 112))
      have htaken : 112 * ((n + 6) / 7) = 16 * 7 := by omega
      rw [htaken]
      exact (congrArg (CbcCut P direction s.engine chain n _ input) hrun).mpr
        (CbcCut.last latency hengine)

/-- How many bytes the commands carry in which the engine takes its `n` pages. -/
def carried (n : Nat) : Nat := 96 + 112 * ((n - 6 + 6) / 7)

theorem OverrunLemmas.announced_short {input : List Byte} (hcount : 65536 ≤ input.length / 16) :
    0 < (announcedPages input).toNat ∧
      (announcedPages input).toNat + 65535 ≤ input.length / 16 := by
  have hsize : pageSizeInBytes = 16 := rfl
  rw [announcedPages_toNat, hsize]
  omega

/-- A CBC call of 65536 pages or more: the number of pages is announced short, and
the engine ends the session after as many. -/
theorem run_cbc_announcedShort (direction : Direction) (hidle : s.engine.job = .idle)
    {input : List Byte} (initVec : Block) (hcount : 65536 ≤ input.length / 16) :
    CbcCut P direction s.engine initVec (announcedPages input).toNat
      (carried (announcedPages input).toNat) input
      (Session.run (she P latency) (cbcRequests direction.command .first input)
        (s.prepareCbc input initVec)) := by
  have hstep (chunk : List Byte) (h : chunk.length ≤ 96) :=
    step_prepared (P := P) (s := s) direction hidle input initVec h
  obtain ⟨hpos, hshort⟩ := announced_short hcount
  generalize (announcedPages input).toNat = n at hstep hpos hshort
  have hmore : 96 < input.length := by omega
  have htake : (input.take 96).length = 96 := List.length_take_of_le (Nat.le_of_lt hmore)
  rw [show cbcRequests direction.command .first input = _ from cbcRequests_of_lt hmore]
  cases Nat.lt_or_ge 6 n with
  | inl hn =>
    obtain ⟨s', hengine, hrun⟩ := run_cbcRequest latency (s := s.prepareCbc input initVec)
      (input.take 96) (hstep _ (List.length_take_le _ _))
      (Or.inl (show (input.take 96).length = 16 * min n 6 by omega))
      (cbcRequests direction.command .subsequent (input.drop 96))
    rw [show handleCbc.availPages .first = 6 from rfl, if_neg (Nat.not_le.mpr hn),
      Nat.min_eq_right (Nat.le_of_lt hn)] at hengine
    have htaken : carried n - 16 * 6 = 112 * ((n - 6 + 6) / 7) := Nat.add_sub_cancel_left _ _
    refine (congrArg (CbcCut P direction s.engine initVec n _ input) hrun).mpr ?_
    refine CbcCut.cons latency hengine htake (Nat.le_of_lt hn) (by rw [carried]; omega) ?_
    rw [htaken]
    exact run_cbc_overrun latency (by omega) (input.drop 96) (by rw [List.length_drop]; omega)
      (by rw [hengine])
  | inr hn =>
    obtain ⟨s', hengine, hrun⟩ := run_cbc_last latency (s := s.prepareCbc input initVec)
      (input.take 96) (hstep _ (List.length_take_le _ _)) htake hn
      (cbcRequests direction.command .subsequent (input.drop 96))
    have htaken : carried n = 16 * 6 := by rw [carried]; omega
    rw [htaken]
    exact (congrArg (CbcCut P direction s.engine initVec n _ input) hrun).mpr
      (CbcCut.last latency hengine)

/-- A CBC call of 65536 pages or more returns a sequence error. The first pages of the
output buffer are processed, some pages behind them hold the input as it is, and the
rest is what was there before. -/
theorem exec_handleCbc_overrun (P : Primitives) (direction : Direction)
    (hidle : s.engine.job = .idle) {input output : List Byte} (initVec : Block)
    (hpages : input.length % 16 = 0) (hcount : 65536 ≤ input.length / 16)
    (hout : output.length = input.length) :
    ∃ s' : Cse She, s'.engine = s.engine ∧
      exec (cseHw (she P latency)) (handleCbc direction.command input initVec output) s =
        (.done (.error .sequenceError,
          cutShort P direction s.engine.ramKey initVec (announcedPages input).toNat
            (input.take (carried (announcedPages input).toNat)) ++
          output.drop (carried (announcedPages input).toNat)), s') := by
  have hcut := run_cbc_announcedShort latency (P := P) direction hidle initVec hcount
  refine ⟨_, hcut.engine.trans (idle_eq hidle), ?_⟩
  obtain ⟨_, hshort⟩ := announced_short hcount
  have hlen : (cutShort P direction s.engine.ramKey initVec (announcedPages input).toNat
      (input.take (carried (announcedPages input).toNat))).length =
        carried (announcedPages input).toNat := by
    generalize (announcedPages input).toNat = n at hshort
    have hle : carried n ≤ input.length := by
      rw [carried]
      omega
    have hpart : 16 * n ≤ carried n := by
      rw [carried]
      omega
    rw [cutShort_length (by rwa [List.length_take_of_le hle]), List.length_take_of_le hle]
  rw [exec_handleCbc (CbcLemmas.command_implemented direction) initVec hout hpages,
    finishCbc_done hcut.ending, hcut.output, hlen]

end Csec
