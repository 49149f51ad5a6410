import DaredevilSmall.Csec.Mac

/-!
# MAC verification

The engine expects the CMAC on the page right after the message. `verify_mac`
appends it when that page is below page 7, and otherwise sends it with another
command. When the message ends on page 6 of its last command, the engine still
has a page to read in that command and takes page 7 for the CMAC.

1. `run_verifyRequests`: otherwise the verdict is that of the comparison.
2. `run_verifyRequests_stale`: in that case the session ends with a sequence
   error.
3. `macsAgree_iff`: when `verify_mac` accepts what `generate_mac` returns, and
   nothing else.
-/

namespace Csec

open Mmio Data She SheLemmas SessionLemmas MacLemmas

variable {P : Primitives} (latency : She → Pram → Nat) {s : Cse She}

namespace VerifyLemmas

/-- The verdict the engine reports for a CMAC. -/
def verdict (P : Primitives) (expected cmac : Block) : Halfword :=
  if expected == cmac then 0 else P.mismatch

theorem finishMac_verify {e : She} {bits : Nat} (pgs : List Block) (cmac : Block) (p : Pram) :
    finishMac P e (.verify 0) bits (pgs ++ [cmac]) p =
      splice p macVerificationBitsOffset [hi (verdict P (macOf P e.ramKey bits pgs) cmac),
        lo (verdict P (macOf P e.ramKey bits pgs) cmac)] := by
  simp only [finishMac, List.dropLast_concat, List.getLastD_concat, agree, if_pos, verdict]

theorem verdict_eq_zero {expected cmac : Block} :
    (some (verdict P expected cmac) == some 0) = (expected == cmac) := by
  unfold verdict
  split
  · next h => rw [h]; rfl
  · next h =>
    rw [Bool.eq_false_iff.mpr h]
    exact beq_eq_false_iff_ne.mpr fun hzero => P.mismatch_ne (Option.some.inj hzero)

theorem ordered_verifyRequest (cmac : Block) (sequence : Sequence) (appended : Bool)
    {chunk : List Byte} (hchunk : chunk.length ≤ maxBytes)
    (happended : appended = true → chunk.length ≤ 80) :
    Ordered page1Offset (verifyRequest cmac.toList sequence chunk appended).writes := by
  obtain ⟨hlo, hhi, _⟩ := ordered_chunk hchunk
  cases appended with
  | false => exact ⟨hlo, hhi, trivial⟩
  | true =>
    obtain ⟨hbehind, hfit⟩ := verifyMac.room (happended rfl)
    exact ⟨hlo, hhi, hbehind, Vector.length_toList.symm ▸ hfit, trivial⟩

/-- The last pages of a message with the CMAC right behind them. -/
theorem pages_handed (cmac : Block) (sequence : Sequence) {rest : List Byte}
    (h : rest.length ≤ 80) (p : Pram) :
    slice ((verifyRequest cmac.toList sequence rest true).handed p) page1Offset rest.length = rest ∧
      pages ((verifyRequest cmac.toList sequence rest true).handed p) page1Offset
          ((rest.length + 15) / 16 + 1) =
        pages ((verifyRequest cmac.toList sequence rest true).handed p) page1Offset
          ((rest.length + 15) / 16) ++ [cmac] := by
  have hordered := ordered_verifyRequest cmac sequence true
    (Nat.le_trans h (by decide)) fun _ => h
  have hchunk := (verifyRequest cmac.toList sequence rest true).slice_handed hordered (by decide) p
    List.mem_cons_self
  have hcmac := (verifyRequest cmac.toList sequence rest true).slice_handed hordered (by decide) p
    (List.mem_cons_of_mem _ List.mem_cons_self)
  have hoffset : verifyMac.nextPage rest.length * pageSizeInBytes =
      page1Offset + 16 * ((rest.length + 15) / 16) := by
    simp only [verifyMac.nextPage, page1Offset, pageSizeInBytes]
    omega
  refine ⟨hchunk, ?_⟩
  rw [pages_succ, ← hoffset]
  congr 2
  apply Vector.toList_inj.mp
  rw [page_toList]
  exact (congrArg _ Vector.length_toList.symm).trans hcmac

end VerifyLemmas

open VerifyLemmas

/-- A session of `verify_mac` on an engine that expects the pages of the rest of
the message and a page with the CMAC. -/
theorem run_verifyRequests (cmac : Block) {message : List Byte} (rest : List Byte)
    {seen : List Block} {sequence : Sequence} (hinit : message <+: ofBlocks seen ++ rest)
    (hband : ¬ (81 ≤ rest.length % 112 ∧ rest.length % 112 ≤ 96))
    (htakes : ∀ (chunk : List Byte) appended, chunk.length ≤ maxBytes →
      (appended = true → chunk.length ≤ 80) →
      Takes P s.engine (.verify 0) sequence (8 * message.length) ((rest.length + 15) / 16 + 1) seen
        ((verifyRequest cmac.toList sequence chunk appended).handed s.pram)) :
    (Session.run (she P latency) (verifyRequests cmac.toList sequence rest) s).ending =
        .done (.ok ()) ∧
    (Session.run (she P latency) (verifyRequests cmac.toList sequence rest) s).observed.getLast? =
      some (verdict P (P.cmac s.engine.ramKey (bitsOf message)) cmac) := by
  induction hlen : rest.length using Nat.strongRecOn generalizing rest seen sequence s with
  | ind n ih =>
    rcases Nat.lt_or_ge 80 rest.length with hmore | hlast
    · have hchunk := (verifyRequest cmac.toList sequence (rest.take maxBytes) false).slice_handed
        (ordered_verifyRequest cmac sequence false (List.length_take_le _ _) (by simp)) (by decide)
        s.pram List.mem_cons_self
      obtain ⟨s', hengine, hrun⟩ := run_mac_more latency
        (htakes _ false (List.length_take_le maxBytes rest) (by simp)) rfl (by omega)
        (verifyRequests cmac.toList .subsequent (rest.drop maxBytes))
      have hdrop : (rest.drop maxBytes).length = rest.length - 112 := List.length_drop
      have hremaining : (rest.length + 15) / 16 + 1 - 7 =
          ((rest.drop maxBytes).length + 15) / 16 + 1 := by
        omega
      obtain ⟨hend, hobs⟩ := ih _ (by omega) (rest.drop maxBytes) (s := s')
        (prefix_more hinit hchunk) (by omega)
        (fun chunk appended _ _ => takes_subsequent (by rw [hengine, hremaining]) _) rfl
      rw [verifyRequests_of_lt hmore, hrun]
      refine ⟨hend, ?_⟩
      rw [List.getLast?_cons, hobs, hengine]
      rfl
    · obtain ⟨hchunk, hpages⟩ := pages_handed cmac sequence hlast s.pram
      obtain ⟨s', hengine, hpram, hrun⟩ := run_mac_last latency
        (htakes rest true (Nat.le_trans hlast (by decide)) fun _ => hlast) rfl (by omega) []
      rw [verifyRequests_of_le hlast, hrun]
      refine ⟨rfl, ?_⟩
      have hmac := macOf_of_prefix (P := P) s.engine.ramKey (prefix_last hinit hchunk)
      rw [hpages, ← List.append_assoc, finishMac_verify, hmac] at hpram
      have hobserve : (verifyRequest cmac.toList sequence rest true).observe s'.pram =
          verdict P (P.cmac s.engine.ramKey (bitsOf message)) cmac := by
        rw [hpram]
        exact (halfwordAt_report _ _ (by decide)).trans (halfwordAt_splice_self _ _ (by decide))
      rw [hobserve]
      rfl

/-- When the message ends on page 6 of its last command, the engine takes page 7
for the CMAC, and the command that carries the CMAC is out of sequence. -/
theorem run_verifyRequests_stale (cmac : Block) (rest : List Byte) {bits : Nat} {seen : List Block}
    {sequence : Sequence} (hband : 81 ≤ rest.length % 112 ∧ rest.length % 112 ≤ 96)
    (htakes : ∀ (chunk : List Byte) appended, chunk.length ≤ maxBytes →
      (appended = true → chunk.length ≤ 80) →
      Takes P s.engine (.verify 0) sequence bits ((rest.length + 15) / 16 + 1) seen
        ((verifyRequest cmac.toList sequence chunk appended).handed s.pram)) :
    (Session.run (she P latency) (verifyRequests cmac.toList sequence rest) s).ending =
      .done (.error .sequenceError) := by
  induction hlen : rest.length using Nat.strongRecOn generalizing rest seen sequence s with
  | ind n ih =>
    have hmore : 80 < rest.length := by omega
    have hdrop : (rest.drop maxBytes).length = rest.length - 112 := List.length_drop
    rw [verifyRequests_of_lt hmore]
    rcases Nat.lt_or_ge 112 rest.length with hlong | hshort
    · obtain ⟨s', hengine, hrun⟩ := run_mac_more latency
        (htakes _ false (List.length_take_le maxBytes rest) (by simp)) rfl (by omega)
        (verifyRequests cmac.toList .subsequent (rest.drop maxBytes))
      have hremaining : (rest.length + 15) / 16 + 1 - 7 =
          ((rest.drop maxBytes).length + 15) / 16 + 1 := by
        omega
      rw [hrun]
      exact ih _ (by omega) (rest.drop maxBytes) (by omega)
        (fun chunk appended _ _ => takes_subsequent (by rw [hengine, hremaining]) _) rfl
    · obtain ⟨s', hengine, _, hrun⟩ := run_mac_last latency
        (htakes _ false (List.length_take_le maxBytes rest) (by simp)) rfl (by omega)
        (verifyRequests cmac.toList .subsequent (rest.drop maxBytes))
      obtain ⟨appended, cs, hcs⟩ := verifyRequests_cons cmac.toList .subsequent (rest.drop maxBytes)
      rw [hrun, hcs]
      exact run_outOfSequence latency (MacLemmas.command_implemented (.verify 0)) rfl
        (step_idle (by rw [hengine]) (.verify 0) _) cs

namespace VerifyLemmas

/-- What the engine latches at the first command of `verify_mac`. -/
theorem takes_verify_prepared (hidle : s.engine.job = .idle) {message : List Byte}
    (hlen : message.length < 8192) (cmac : Block) {chunk : List Byte} {appended : Bool}
    (hchunk : chunk.length ≤ maxBytes) (happended : appended = true → chunk.length ≤ 80) :
    Takes P s.engine (.verify 0) .first (8 * message.length) ((message.length + 15) / 16 + 1) []
      ((verifyRequest cmac.toList .first chunk appended).handed
        (s.prepareVerifyMac message).pram) := by
  have hordered := ordered_verifyRequest cmac .first appended hchunk happended
  obtain ⟨_, hbits, hmacLength⟩ := parameters_prepared s message
  have htakes := takes_verify (P := P) hidle ((verifyRequest cmac.toList .first chunk
    appended).handed (s.prepareVerifyMac message).pram)
  have hshort : 8 * message.length % 65536 = 8 * message.length := Nat.mod_eq_of_lt (by omega)
  have hpages : (8 * message.length + 127) / 128 = (message.length + 15) / 16 := by omega
  rw [bitLength_handed hordered, Request.halfwordAt_handed _ hordered _ (by decide) (by decide),
    hbits, hmacLength, hshort] at htakes
  simp only [macPages, messagePages, hpages] at htakes
  exact htakes

end VerifyLemmas

/-- `verify_mac` on a message that does not end on page 6 of its last command. -/
theorem exec_verifyMac_verdict (hidle : s.engine.job = .idle) {message : List Byte}
    (hpos : 0 < message.length) (hlen : message.length < 8192)
    (hband : ¬ (81 ≤ message.length % 112 ∧ message.length % 112 ≤ 96)) (cmac : Block) :
    (exec (cseHw (she P latency)) (verifyMac message cmac) s).1 =
      .done (.ok (P.cmac s.engine.ramKey (bitsOf message) == cmac)) := by
  obtain ⟨hend, hobs⟩ := run_verifyRequests (P := P) latency cmac message
    (s := s.prepareVerifyMac message)
    (show message <+: ofBlocks [] ++ message from List.prefix_refl _) hband
    fun _ _ hchunk happended => takes_verify_prepared hidle hlen cmac hchunk happended
  rw [exec_verifyMac hpos (Nat.le_of_lt (Nat.lt_trans hlen (by decide))), finish_ok hend, hobs,
    verdict_eq_zero]
  rfl

/-- `verify_mac` on a message that does. -/
theorem exec_verifyMac_stale (hidle : s.engine.job = .idle) {message : List Byte}
    (hlen : message.length < 8192)
    (hband : 81 ≤ message.length % 112 ∧ message.length % 112 ≤ 96) (cmac : Block) :
    (exec (cseHw (she P latency)) (verifyMac message cmac) s).1 =
      .done (.error .sequenceError) := by
  have hend := run_verifyRequests_stale (P := P) latency cmac message
    (s := s.prepareVerifyMac message) hband
    fun _ _ hchunk happended => takes_verify_prepared hidle hlen cmac hchunk happended
  have hpos : 0 < message.length := Nat.pos_of_ne_zero fun h => by
    rw [h] at hband
    exact absurd hband.1 (by decide)
  rw [exec_verifyMac hpos (Nat.le_of_lt (Nat.lt_trans hlen (by decide))), finish_error hend]

/-- If `generate_mac` returns a CMAC, `verify_mac` on an idle engine with the
same key accepts it, and no other one. -/
def MacsAgree (P : Primitives) (latency : She → Pram → Nat) (s : Cse She) (message : List Byte) :
    Prop :=
  ∀ (cmac : Block) (s' : Cse She),
    exec (cseHw (she P latency)) (generateMac message) s = (.done (.ok cmac.toList), s') →
    ∀ v : Cse She, v.engine.job = .idle → v.engine.ramKey = s.engine.ramKey →
      (exec (cseHw (she P latency)) (verifyMac message cmac) v).1 = .done (.ok true) ∧
      ∀ other : Block, other ≠ cmac →
        (exec (cseHw (she P latency)) (verifyMac message other) v).1 = .done (.ok false)

namespace VerifyLemmas

/-- Generation and verification do not agree on a message that ends on page 6 of
its last command. -/
theorem not_macsAgree (hidle : s.engine.job = .idle) {message : List Byte}
    (hlen : message.length < 8192)
    (hband : 81 ≤ message.length % 112 ∧ message.length % 112 ≤ 96) :
    ¬ MacsAgree P latency s message := by
  intro hagree
  obtain ⟨s', _, hgenerate⟩ := exec_generateMac_short latency (P := P) hidle hlen
  obtain ⟨haccepts, _⟩ := hagree _ s' hgenerate s hidle rfl
  rw [exec_verifyMac_stale latency hidle hlen hband] at haccepts
  exact absurd haccepts (by simp)

end VerifyLemmas

/-- For every key, every content of PRAM and every non-empty message, from an idle
engine: generation and verification agree exactly when the message does not end
on page 6 of its last command, or is so long that `generate_mac` fails. -/
theorem macsAgree_iff (P : Primitives) (latency : She → Pram → Nat) (s : Cse She)
    (hidle : s.engine.job = .idle) (message : List Byte) (hne : message ≠ []) :
    MacsAgree P latency s message ↔
      ¬ (81 ≤ message.length % 112 ∧ message.length % 112 ≤ 96) ∨ 8192 ≤ message.length := by
  constructor
  · intro hagree
    by_contra hno
    rw [not_or, not_not, Nat.not_le] at hno
    exact not_macsAgree latency hidle hno.2 hno.1 hagree
  · intro hcondition cmac s' hgenerate v hv hkey
    rcases Nat.lt_or_ge message.length 8192 with hlen | hlong
    · have hband := hcondition.resolve_right (Nat.not_le.mpr hlen)
      have hpos := List.length_pos_of_ne_nil hne
      obtain ⟨s'', _, hok⟩ := exec_generateMac_short latency (P := P) hidle hlen
      rw [hok] at hgenerate
      have hcmac : P.cmac s.engine.ramKey (bitsOf message) = cmac :=
        Vector.toList_inj.mp (by simpa using congrArg Prod.fst hgenerate)
      refine ⟨?_, fun other hother => ?_⟩
      · rw [exec_verifyMac_verdict latency hv hpos hlen hband, hkey, hcmac, beq_self_eq_true]
      · rw [exec_verifyMac_verdict latency hv hpos hlen hband, hkey, hcmac,
          beq_eq_false_iff_ne.mpr hother.symm]
    · -- `generate_mac` does not return a CMAC of a long message
      rcases Nat.lt_or_ge u32Max message.length with hreject | hlen
      · obtain ⟨msg, hpanic⟩ := exec_generateMac_reject (E := she P latency) (s := s)
          (Nat.not_le.mpr hreject)
        rw [hpanic] at hgenerate
        exact absurd (congrArg Prod.fst hgenerate) (by simp)
      · have herror := exec_generateMac_long latency (P := P) hidle hlong hlen
        rw [hgenerate] at herror
        exact absurd herror (by simp)

/-- Three commands over what others have left in PRAM, the last one without message bytes. -/
theorem macsAgree_sample :
    MacsAgree .sample (fun _ _ => 3) (Cse.stale She.sample) (List.replicate 220 0x61) :=
  have hlen : (List.replicate 220 (0x61 : Byte)).length = 220 := List.length_replicate
  (macsAgree_iff .sample (fun _ _ => 3) (Cse.stale She.sample) rfl (List.replicate 220 0x61)
    (List.ne_nil_of_length_pos (by rw [hlen]; decide))).mpr (Or.inl (by rw [hlen]; decide))

/-- A message of six pages. -/
theorem macsDisagree_sixPages :
    ¬ MacsAgree .sample (fun _ _ => 3) (Cse.reset She.sample) (List.replicate 96 0) := by
  have hlen : (List.replicate 96 (0 : Byte)).length = 96 := List.length_replicate
  exact VerifyLemmas.not_macsAgree (fun _ _ => 3) rfl (by rw [hlen]; decide) (by rw [hlen]; decide)

end Csec
