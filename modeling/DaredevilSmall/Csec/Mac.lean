import DaredevilSmall.Csec.She

/-!
# MAC generation

`generate_mac` announces the length of its message and hands over the message in
chunks of seven pages; the engine counts the pages it still expects. What the
engine computes is right as long as the two agree on the number of pages.

1. `run_macRequests`: a session of commands on an engine that expects the pages
   of the message ends with the CMAC of the message on page 2.
2. `run_macRequests_overrun`: on an engine that expects too few pages the
   session runs into a sequence error.
3. `generateMac_iff`: since only the lower half of the length is written, the
   first case holds for messages of less than 8192 bytes and the second for all
   others.
-/

namespace Csec

open Mmio Data She SheLemmas SessionLemmas

variable {P : Primitives} (latency : She → Pram → Nat) {s : Cse She} {β : Type}

def MacKind.command : MacKind → Command
  | generate => .generateMac
  | verify _ => .verifyMac

/-- The engine takes a command as the next one of a MAC call that expects `n`
more pages after `seen`. -/
def Takes (P : Primitives) (e : She) (kind : MacKind) (sequence : Sequence) (bits n : Nat)
    (seen : List Block) (p : Pram) : Prop :=
  e.step P kind.command sequence p = some (e.mac P kind bits n seen p)

namespace MacLemmas

theorem command_implemented (kind : MacKind) : kind.command.implemented = true := by
  cases kind <;> rfl

theorem keyOf_command (kind : MacKind) : keyOf kind.command = .ramKey := by
  cases kind <;> rfl

theorem takes_subsequent {e : She} {kind : MacKind} {bits n : Nat} {seen : List Block}
    (h : e.job = .mac kind bits n seen) (p : Pram) : Takes P e kind .subsequent bits n seen p := by
  cases kind <;> simp only [Takes, MacKind.command, step, h]

theorem takes_generate {e : She} (h : e.job = .idle) (p : Pram) :
    Takes P e .generate .first (bitLength p) (macPages .generate (bitLength p)) [] p := by
  simp only [Takes, MacKind.command, step, h]

theorem takes_verify {e : She} (h : e.job = .idle) (p : Pram) :
    Takes P e (.verify (halfwordAt p macLengthOffset).toNat) .first (bitLength p)
      (macPages (.verify (halfwordAt p macLengthOffset).toNat) (bitLength p)) [] p := by
  simp only [Takes, MacKind.command, step, h]

/-- A MAC call that is over cannot be continued. -/
theorem step_idle {e : She} (h : e.job = .idle) (kind : MacKind) (p : Pram) :
    e.step P kind.command .subsequent p = none := by
  cases kind <;> simp only [MacKind.command, step, h]

theorem mac_of_lt {e : She} {kind : MacKind} {bits n : Nat} {seen : List Block} {p : Pram}
    (h : 7 < n) : e.mac P kind bits n seen p =
      (p, { e with job := .mac kind bits (n - 7) (seen ++ pages p page1Offset 7) }) := by
  simp only [She.mac, if_neg (Nat.not_le.mpr h), Nat.min_eq_right (Nat.le_of_lt h)]

theorem mac_of_le {e : She} {kind : MacKind} {bits n : Nat} {seen : List Block} {p : Pram}
    (h : n ≤ 7) : e.mac P kind bits n seen p =
      (finishMac P e kind bits (seen ++ pages p page1Offset n) p, { e with job := .idle }) := by
  simp only [She.mac, if_pos h, Nat.min_eq_left h]

theorem ofBlocks_pages (p : Pram) (offset n : Nat) :
    ofBlocks (pages p offset n) = slice p offset (16 * n) :=
  ofBlocks_toBlocks (by rw [slice_length]; exact Nat.mul_mod_right 16 n)

theorem pages_succ (p : Pram) (offset n : Nat) :
    pages p offset (n + 1) = pages p offset n ++ [page p (offset + 16 * n)] := by
  have hlast : toBlocks 16 (slice p (offset + 16 * n) 16) = [page p (offset + 16 * n)] := by
    rw [← page_toList, ← List.append_nil (page p (offset + 16 * n)).toList,
      toBlocks_toList_append (by decide), toBlocks_of_lt (by decide)]
  rw [pages, pages, Nat.mul_succ, ← slice_append, toBlocks_append (by decide)
    (by rw [slice_length]; exact Nat.mul_mod_right 16 n), hlast]

/-- The pages after a chunk that does not fill the last of them. -/
theorem slice_of_chunk {p : Pram} {chunk : List Byte} {len : Nat}
    (h : slice p page1Offset chunk.length = chunk) (hle : chunk.length ≤ len) :
    ∃ junk, slice p page1Offset len = chunk ++ junk := by
  obtain ⟨k, rfl⟩ := Nat.exists_eq_add_of_le hle
  exact ⟨_, by rw [← slice_append, h]⟩

/-- The pages seen so far and the bytes still to come keep the message at their
front, over a command that carries seven pages. -/
theorem prefix_more {p : Pram} {message rest : List Byte} {seen : List Block}
    (hinit : message <+: ofBlocks seen ++ rest)
    (h : slice p page1Offset (rest.take maxBytes).length = rest.take maxBytes) :
    message <+: ofBlocks (seen ++ pages p page1Offset 7) ++ rest.drop maxBytes := by
  rw [ofBlocks_append, ofBlocks_pages]
  rcases Nat.lt_or_ge rest.length maxBytes with hshort | hfull
  · rw [List.take_of_length_le (Nat.le_of_lt hshort)] at h
    obtain ⟨junk, hjunk⟩ := slice_of_chunk h (Nat.le_of_lt hshort)
    rw [show 16 * 7 = maxBytes from rfl, hjunk, List.drop_eq_nil_of_le (Nat.le_of_lt hshort),
      List.append_nil, ← List.append_assoc]
    exact hinit.trans (List.prefix_append _ _)
  · rw [List.length_take_of_le hfull] at h
    rwa [show 16 * 7 = maxBytes from rfl, h, List.append_assoc, List.take_append_drop]

/-- The pages that hold the rest of the message. -/
theorem prefix_last {p : Pram} {message rest : List Byte} {seen : List Block}
    (hinit : message <+: ofBlocks seen ++ rest)
    (h : slice p page1Offset rest.length = rest) :
    message <+: ofBlocks (seen ++ pages p page1Offset ((rest.length + 15) / 16)) := by
  obtain ⟨junk, hjunk⟩ := slice_of_chunk h
    (show rest.length ≤ 16 * ((rest.length + 15) / 16) by omega)
  rw [ofBlocks_append, ofBlocks_pages, hjunk, ← List.append_assoc]
  exact hinit.trans (List.prefix_append _ _)

/-- The engine's CMAC is that of the message at the front of the pages. -/
theorem macOf_of_prefix {message : List Byte} {seen : List Block} (key : Block)
    (h : message <+: ofBlocks seen) :
    macOf P key (8 * message.length) seen = P.cmac key (bitsOf message) := by
  obtain ⟨junk, hjunk⟩ := h
  rw [macOf, ← hjunk, bitsOf_append_take]

end MacLemmas

open MacLemmas

section Command

variable {kind : MacKind} {sequence : Sequence} {bits n : Nat} {seen : List Block} {c : Request β}

/-- A command of a MAC call that leaves pages to come. -/
theorem run_mac_more (htakes : Takes P s.engine kind sequence bits n seen (c.handed s.pram))
    (hheader : c.header = headerWord kind.command .copy sequence .ramKey) (hn : 7 < n)
    (cs : List (Request β)) :
    ∃ s' : Cse She, s'.engine = { s.engine with
        job := .mac kind bits (n - 7) (seen ++ pages (c.handed s.pram) page1Offset 7) } ∧
      Session.run (she P latency) (c :: cs) s = { Session.run (she P latency) cs s' with
        observed := c.observe s'.pram :: (Session.run (she P latency) cs s').observed } := by
  rw [Takes, mac_of_lt hn] at htakes
  obtain ⟨s', hpram, hengine, hrun⟩ := run_done latency (command_implemented kind)
    (by rw [keyOf_command]; exact hheader) htakes cs
  exact ⟨s', hengine, by rw [hpram]; exact hrun⟩

/-- The last command of a MAC call. -/
theorem run_mac_last (htakes : Takes P s.engine kind sequence bits n seen (c.handed s.pram))
    (hheader : c.header = headerWord kind.command .copy sequence .ramKey) (hn : n ≤ 7)
    (cs : List (Request β)) :
    ∃ s' : Cse She, s'.engine = { s.engine with job := .idle } ∧
      s'.pram = report (finishMac P s.engine kind bits
        (seen ++ pages (c.handed s.pram) page1Offset n) (c.handed s.pram)) .noError ∧
      Session.run (she P latency) (c :: cs) s = { Session.run (she P latency) cs s' with
        observed := c.observe s'.pram :: (Session.run (she P latency) cs s').observed } := by
  rw [Takes, mac_of_le hn] at htakes
  obtain ⟨s', hpram, hengine, hrun⟩ := run_done latency (command_implemented kind)
    (by rw [keyOf_command]; exact hheader) htakes cs
  exact ⟨s', hengine, hpram, by rw [hpram]; exact hrun⟩

end Command

/-! ## `generate_mac` -/

/-- A session of `generate_mac` on an engine that expects the pages of the rest
of the message. -/
theorem run_macRequests {message : List Byte} (rest : List Byte) {seen : List Block}
    {sequence : Sequence} (hinit : message <+: ofBlocks seen ++ rest)
    (htakes : ∀ chunk : List Byte, chunk.length ≤ maxBytes →
      Takes P s.engine .generate sequence (8 * message.length) ((rest.length + 15) / 16) seen
        ((macRequest sequence chunk).handed s.pram)) :
    (Session.run (she P latency) (macRequests sequence rest) s).ending = .done (.ok ()) ∧
    (Session.run (she P latency) (macRequests sequence rest) s).state.engine =
      { s.engine with job := .idle } ∧
    slice (Session.run (she P latency) (macRequests sequence rest) s).state.pram page2Offset 16 =
      (P.cmac s.engine.ramKey (bitsOf message)).toList := by
  induction hlen : rest.length using Nat.strongRecOn generalizing rest seen sequence s with
  | ind n ih =>
    rcases Nat.lt_or_ge maxBytes rest.length with hmore | hlast
    · have hbytes : maxBytes = 112 := rfl
      have hchunk := (macRequest sequence (rest.take maxBytes)).slice_handed
        (ordered_chunk (List.length_take_le _ _)) (by decide) s.pram List.mem_cons_self
      obtain ⟨s', hengine, hrun⟩ := run_mac_more latency
        (htakes _ (List.length_take_le maxBytes rest)) rfl (by omega)
        (macRequests .subsequent (rest.drop maxBytes))
      have hdrop : (rest.drop maxBytes).length = rest.length - 112 := List.length_drop
      have hremaining : (rest.length + 15) / 16 - 7 = ((rest.drop maxBytes).length + 15) / 16 := by
        omega
      have hrest := ih _ (by omega) (rest.drop maxBytes) (s := s') (prefix_more hinit hchunk)
        (fun chunk _ => takes_subsequent (by rw [hengine, hremaining]) _) rfl
      rw [macRequests_of_lt hmore, hrun]
      rw [hengine] at hrest
      exact hrest
    · have hchunk := (macRequest sequence rest).slice_handed (ordered_chunk hlast) (by decide)
        s.pram List.mem_cons_self
      obtain ⟨s', hengine, hpram, hrun⟩ := run_mac_last latency (htakes rest hlast) rfl
        (by simp only [maxBytes] at hlast; omega) []
      rw [macRequests_of_le hlast, hrun]
      refine ⟨rfl, hengine, ?_⟩
      have hmac := macOf_of_prefix (P := P) s.engine.ramKey (prefix_last hinit hchunk)
      simp only [Session.run, hpram, finishMac, hmac]
      rw [slice_report _ _ (by decide)]
      exact slice_splice_page _ _ (by decide)

/-- A session of `generate_mac` on an engine that expects too few pages. -/
theorem run_macRequests_overrun (rest : List Byte) {seen : List Block} {sequence : Sequence}
    {bits n : Nat} (hshort : 16 * n + 112 < rest.length)
    (htakes : ∀ chunk : List Byte, chunk.length ≤ maxBytes →
      Takes P s.engine .generate sequence bits n seen
        ((macRequest sequence chunk).handed s.pram)) :
    (Session.run (she P latency) (macRequests sequence rest) s).ending =
      .done (.error .sequenceError) := by
  induction n using Nat.strongRecOn generalizing rest seen sequence s with
  | ind n ih =>
    have hmore : maxBytes < rest.length := by simp only [maxBytes]; omega
    have hdrop : (rest.drop maxBytes).length = rest.length - 112 := List.length_drop
    rw [macRequests_of_lt hmore]
    rcases Nat.lt_or_ge 7 n with hn | hn
    · obtain ⟨s', hengine, hrun⟩ := run_mac_more latency
        (htakes _ (List.length_take_le maxBytes rest)) rfl hn
        (macRequests .subsequent (rest.drop maxBytes))
      rw [hrun]
      exact ih (n - 7) (by omega) (rest.drop maxBytes) (by omega)
        fun chunk _ => takes_subsequent (by rw [hengine]) _
    · -- the engine is done, but the session is not
      obtain ⟨s', hengine, _, hrun⟩ := run_mac_last latency
        (htakes _ (List.length_take_le maxBytes rest)) rfl hn
        (macRequests .subsequent (rest.drop maxBytes))
      rw [hrun]
      obtain ⟨cs, hcs⟩ := macRequests_cons .subsequent (rest.drop maxBytes)
      rw [hcs]
      exact run_outOfSequence latency (command_implemented .generate) rfl
        (step_idle (by rw [hengine]) .generate _) cs

namespace MacLemmas

/-- The length field keeps 16 bits of the length in bits, and the MAC length is
cleared. -/
theorem parameters_prepared (s : Cse She) (message : List Byte) :
    bitLength (s.prepareGenerateMac message).pram = 8 * message.length % 65536 ∧
      bitLength (s.prepareVerifyMac message).pram = 8 * message.length % 65536 ∧
      halfwordAt (s.prepareVerifyMac message).pram macLengthOffset = 0 := by
  obtain ⟨v, hv⟩ : ∃ v : Halfword, v = (BitVec.ofNat 32 (message.length * 8)).setWidth 16 :=
    ⟨_, rfl⟩
  have hfield : (s.prepareGenerateMac message).pram =
      splice (splice s.pram 12 [hi 0, lo 0]) 14 [hi v, lo v] := by
    rw [show (14 : Nat) = 12 + [hi 0, lo 0].length from rfl, splice_append, hv]
    rfl
  have hverify : (s.prepareVerifyMac message).pram =
      splice (s.prepareGenerateMac message).pram 8 [hi 0, lo 0] := rfl
  have hlower : halfwordAt (s.prepareGenerateMac message).pram 14 = v := by
    rw [hfield]
    exact halfwordAt_splice_self _ v (by decide)
  have hupper : halfwordAt (s.prepareGenerateMac message).pram 12 = 0 := by
    rw [hfield, halfwordAt_splice_of_disjoint _ (Or.inl (by decide))]
    exact halfwordAt_splice_self _ 0 (by decide)
  have hbits : ((0 : Halfword) ++ v).toNat = 8 * message.length % 65536 := by
    have hzero : (0 : Halfword).toNat <<< 16 = 0 := rfl
    rw [BitVec.toNat_append, hzero, Nat.zero_or, hv, BitVec.toNat_setWidth, BitVec.toNat_ofNat]
    omega
  refine ⟨?_, ?_, ?_⟩
  · rw [bitLength, macMessageLengthOffset, hupper, hlower, hbits]
  · rw [bitLength, macMessageLengthOffset, hverify,
      halfwordAt_splice_of_disjoint _ (Or.inr (show 8 + 2 ≤ 12 by decide)),
      halfwordAt_splice_of_disjoint _ (Or.inr (show 8 + 2 ≤ 14 by decide)), hupper, hlower, hbits]
  · rw [hverify]
    exact halfwordAt_splice_self _ 0 (by decide)

theorem bitLength_handed {c : Request β} (h : Ordered page1Offset c.writes) (p : Pram) :
    bitLength (c.handed p) = bitLength p := by
  rw [bitLength, bitLength, c.halfwordAt_handed h p (by decide) (by decide),
    c.halfwordAt_handed h p (by decide) (by decide)]

/-- What the engine latches at the first command of `generate_mac`. -/
theorem takes_prepared (hidle : s.engine.job = .idle) (message : List Byte) {chunk : List Byte}
    (h : chunk.length ≤ maxBytes) :
    Takes P s.engine .generate .first (8 * message.length % 65536)
      ((8 * message.length % 65536 + 127) / 128) []
      ((macRequest .first chunk).handed (s.prepareGenerateMac message).pram) := by
  have htakes := takes_generate (P := P) hidle
    ((macRequest .first chunk).handed (s.prepareGenerateMac message).pram)
  rwa [bitLength_handed (ordered_chunk h), (parameters_prepared s message).1] at htakes

end MacLemmas

/-- `generate_mac` on a short message. -/
theorem exec_generateMac_short (hidle : s.engine.job = .idle) {message : List Byte}
    (hlen : message.length < 8192) :
    ∃ s' : Cse She, s'.engine = s.engine ∧
      exec (cseHw (she P latency)) (generateMac message) s =
        (.done (.ok (P.cmac s.engine.ramKey (bitsOf message)).toList), s') := by
  have hbits : 8 * message.length % 65536 = 8 * message.length := Nat.mod_eq_of_lt (by omega)
  have hpages : (8 * message.length + 127) / 128 = (message.length + 15) / 16 := by omega
  obtain ⟨hend, hengine, hmac⟩ := run_macRequests (P := P) latency message
    (s := s.prepareGenerateMac message)
    (show message <+: ofBlocks [] ++ message from List.prefix_refl _) fun chunk hchunk => by
      have htakes := takes_prepared (P := P) hidle message hchunk
      rwa [hbits, hpages] at htakes
  refine ⟨_, hengine.trans (by rw [← hidle]; rfl), ?_⟩
  rw [exec_generateMac (Nat.le_of_lt (Nat.lt_trans hlen (by decide))), finish_ok hend, hmac]
  rfl

/-- `generate_mac` on a long message: the engine is told a length that is short
by a multiple of 8192 bytes. -/
theorem exec_generateMac_long (hidle : s.engine.job = .idle) {message : List Byte}
    (hlong : 8192 ≤ message.length) (hlen : message.length ≤ u32Max) :
    (exec (cseHw (she P latency)) (generateMac message) s).1 = .done (.error .sequenceError) := by
  have hshort : 16 * ((8 * message.length % 65536 + 127) / 128) + 112 < message.length := by omega
  have hend := run_macRequests_overrun (P := P) latency message
    (s := s.prepareGenerateMac message) hshort fun chunk hchunk =>
      takes_prepared hidle message hchunk
  rw [exec_generateMac hlen, finish_error hend]

/-- For every key, every content of PRAM and every message that passes the
assertion, from an idle engine: `generate_mac` returns the CMAC of its message
and leaves the engine idle exactly when the message has less than 8192 bytes. -/
theorem generateMac_iff (P : Primitives) (latency : She → Pram → Nat) (s : Cse She)
    (hidle : s.engine.job = .idle) (message : List Byte) (hlen : message.length ≤ u32Max) :
    (∃ s' : Cse She, s'.engine.job = .idle ∧
      exec (cseHw (she P latency)) (generateMac message) s =
        (.done (.ok (P.cmac s.engine.ramKey (bitsOf message)).toList), s')) ↔
      message.length < 8192 := by
  constructor
  · rintro ⟨s', _, hok⟩
    by_contra hlong
    have herror := exec_generateMac_long latency (P := P) hidle (Nat.not_lt.mp hlong) hlen
    rw [hok] at herror
    exact absurd herror (by simp)
  · intro hshort
    obtain ⟨s', hengine, hok⟩ := exec_generateMac_short latency (P := P) hidle hshort
    exact ⟨s', hengine ▸ hidle, hok⟩

/-- Three commands over what others have left in PRAM; the last page is not full. -/
theorem generateMac_sample :
    ∃ s' : Cse She, s'.engine.job = .idle ∧
      exec (cseHw (she .sample fun _ _ => 3)) (generateMac (List.replicate 250 0x61))
        (Cse.stale She.sample) = (.done (.ok sampleCmac.toList), s') :=
  have hlen : (List.replicate 250 (0x61 : Byte)).length = 250 := List.length_replicate
  (generateMac_iff .sample (fun _ _ => 3) (Cse.stale She.sample) rfl (List.replicate 250 0x61)
    (by rw [hlen]; decide)).mpr (by rw [hlen]; decide)

/-- The shortest message for which the upper half of the length is not zero. -/
theorem generateMac_truncated :
    ¬ ∃ s' : Cse She, s'.engine.job = .idle ∧
      exec (cseHw (she .sample fun _ _ => 3)) (generateMac (List.replicate 8192 0))
          (Cse.reset She.sample) =
        (.done (.ok (Primitives.sample.cmac sampleKey (bitsOf (List.replicate 8192 0))).toList),
          s') := by
  rintro ⟨s', _, hok⟩
  have hlen : (List.replicate 8192 (0 : Byte)).length = 8192 := List.length_replicate
  have herror := exec_generateMac_long (fun _ _ => 3) (P := .sample) (s := Cse.reset She.sample) rfl
    (Nat.le_of_eq hlen.symm) (by rw [hlen]; decide)
  rw [hok] at herror
  exact nomatch Outcome.done.inj herror

end Csec
