import DaredevilSmall.Csec.Transcript

/-!
# Failures in the middle of an operation

`FailsAt` says of the transcript of a call that its commands up to number `k`
report `NoError`, and that command `k` reports an error. `failure_stops`: the
call then ends with that error after exactly `k` commands, and the output buffer
of a CBC call holds the results of the commands before and is otherwise
untouched.
-/

namespace Csec

open Mmio Data SessionLemmas TranscriptLemmas

variable {ε β : Type}

/-- The first `k - 1` commands of `log` report `NoError`, and command `k`
reports `e`. -/
structure FailsAt (log : List Issued) (k : Nat) (e : CommandResult) : Prop where
  error : e ≠ .noError
  pos : 0 < k
  reached : k ≤ log.length
  before : ∀ j (h : j < log.length), j + 1 < k →
    status log[j].reply = CommandResult.noError.code
  fails : ∀ j (h : j < log.length), j + 1 = k → status log[j].reply = e.code

/-- What command `j` of a CBC call contributes to its output, when another
command follows: six pages from page 2 on, and then seven from page 1 on. -/
def cbcResult (j : Nat) (i : Issued) : List Byte :=
  if j = 0 then slice i.reply page2Offset 96 else slice i.reply page1Offset 112

namespace FailureLemmas

theorem not_failsAt_nil {k : Nat} {e : CommandResult} : ¬ FailsAt [] k e :=
  fun h => absurd (Nat.lt_of_lt_of_le h.pos h.reached) (by simp)

/-- A session over `cs` whose transcript fails at `k`. -/
theorem log_failed {cs : List (Request β)} {before : List (Fin 32)} {new : List Issued}
    {ending : Outcome (Except CommandResult Unit)} {observed : List β} {k : Nat}
    {e : CommandResult} (hlog : Log cs before new ending observed) (h : FailsAt new k e) :
    ending = .done (.error e) ∧ new.length = k ∧
      observed = List.zipWith (fun c i => c.observe i.reply) (cs.take (k - 1))
        (new.take (k - 1)) := by
  obtain ⟨j, rfl⟩ := Nat.exists_eq_succ_of_ne_zero (Nat.pos_iff_ne_zero.mp h.pos)
  exact hlog.failed h.error h.reached
    (fun i hi => h.before i (Nat.lt_trans hi h.reached) (Nat.succ_lt_succ hi))
    (h.fails j h.reached rfl)

/-- The results of CBC commands that another command follows. -/
theorem observed_cbcRequests {command : Command} {input : List Byte} {new : List Issued} {k : Nat}
    (hnew : new.length ≤ (cbcRequests command .first input).length) (hk : k < new.length) :
    List.zipWith (fun c i => c.observe i.reply)
        ((cbcRequests command .first input).take k) (new.take k) =
      (new.take k).mapIdx cbcResult := by
  have hlen : (cbcRequests command .first input).length = (pieces 96 maxBytes input).length := by
    rw [cbcRequests, List.length_map, sequenced_length]
    rfl
  apply List.ext_getElem
  · simp only [List.length_zipWith, List.length_take, List.length_mapIdx]
    omega
  · intro j h₁ h₂
    simp only [List.length_mapIdx, List.length_take] at h₂
    have hj : j + 1 < (pieces 96 maxBytes input).length := by omega
    have hchunk := pieces_length_of_lt (by decide) (by decide) hj
    simp only [List.getElem_zipWith, List.getElem_take, List.getElem_mapIdx, cbcRequests,
      List.getElem_map]
    rw [sequenced_getElem _ (show j < (pieces (16 * handleCbc.availPages .first) maxBytes
      input).length from Nat.lt_of_succ_lt hj)]
    cases j with
    | zero => exact congrArg (slice new[0].reply page2Offset) hchunk
    | succ j => exact congrArg (slice new[j + 1].reply page1Offset) hchunk

theorem cbcResult_length (log : List Issued) :
    (log.mapIdx cbcResult).flatten.length =
      if log.length = 0 then 0 else 96 + 112 * (log.length - 1) := by
  have hfull : ∀ i (hi : i < (log.mapIdx cbcResult).length),
      (log.mapIdx cbcResult)[i].length = if i = 0 then 96 else 112 := by
    intro i hi
    rw [List.getElem_mapIdx, cbcResult]
    split <;> exact slice_length _ _ _
  rw [flatten_length_of_full hfull, List.length_mapIdx]

end FailureLemmas

open FailureLemmas

variable {E : Engine ε} {s : Cse ε}

theorem handleCbc_fails {command : Command} (himpl : command.implemented = true)
    (input : List Byte) (initVec : Vector Byte 16) (output : List Byte) {k : Nat}
    {e : CommandResult}
    (h : FailsAt (exec (cseHw E) (handleCbc command input initVec output) s.monitor).2.issued k e) :
    (exec (cseHw E) (handleCbc command input initVec output) s.monitor).2.issued.length = k ∧
      ∃ results, results = (((exec (cseHw E) (handleCbc command input initVec output)
          s.monitor).2.issued.take (k - 1)).mapIdx cbcResult).flatten ∧
        results.length = (if k = 1 then 0 else 96 + 112 * (k - 2)) ∧
        (exec (cseHw E) (handleCbc command input initVec output) s.monitor).1 =
          .done (.error e, results ++ output.drop results.length) := by
  by_cases haccepted : output.length = input.length ∧ input.length % 16 = 0
  · obtain ⟨hout, hpages⟩ := haccepted
    rw [exec_handleCbc himpl initVec hout hpages] at h ⊢
    rw [finishCbc_state] at h ⊢
    have hlog := log_of_monitored (E := E) (cbcRequests command .first input)
      (s := s.monitor.prepareCbc input initVec) rfl
    obtain ⟨hend, hlen, hobs⟩ := log_failed hlog h
    rw [observed_cbcRequests hlog.length_le
      (Nat.lt_of_lt_of_le (Nat.sub_one_lt_of_lt h.pos) h.reached)] at hobs
    refine ⟨hlen, _, rfl, ?_, ?_⟩
    · have hk : k - 1 ≤ (Session.run E (cbcRequests command .first input)
          (s.monitor.prepareCbc input initVec)).state.issued.length :=
        Nat.le_trans (Nat.sub_le k 1) h.reached
      rw [cbcResult_length, List.length_take_of_le hk]
      have hpos := h.pos
      split <;> split <;> omega
    · rw [finishCbc_done hend, hobs]
  · have hreject : output.length ≠ input.length ∨ output.length % 16 ≠ 0 := by
      by_contra hno
      rw [not_or, not_not, not_not] at hno
      exact haccepted ⟨hno.1, hno.1 ▸ hno.2⟩
    obtain ⟨msg, hpanic⟩ := exec_handleCbc_reject (E := E) (s := s.monitor) command
      initVec hreject
    rw [hpanic] at h
    exact absurd h not_failsAt_nil

theorem generateMac_fails (message : List Byte) {k : Nat} {e : CommandResult}
    (h : FailsAt (exec (cseHw E) (generateMac message) s.monitor).2.issued k e) :
    (exec (cseHw E) (generateMac message) s.monitor).2.issued.length = k ∧
      (exec (cseHw E) (generateMac message) s.monitor).1 = .done (.error e) := by
  by_cases hlen : message.length ≤ u32Max
  · rw [exec_generateMac hlen] at h ⊢
    rw [finish_state] at h ⊢
    have hlog := log_of_monitored (E := E) (macRequests .first message)
      (s := s.monitor.prepareGenerateMac message) rfl
    obtain ⟨hend, hcount, _⟩ := log_failed hlog h
    rw [finish_error hend]
    exact ⟨hcount, rfl⟩
  · obtain ⟨msg, hpanic⟩ := exec_generateMac_reject (E := E) (s := s.monitor) hlen
    rw [hpanic] at h
    exact absurd h not_failsAt_nil

theorem verifyMac_fails (message : List Byte) (cmac : Vector Byte 16) {k : Nat} {e : CommandResult}
    (h : FailsAt (exec (cseHw E) (verifyMac message cmac) s.monitor).2.issued k e) :
    (exec (cseHw E) (verifyMac message cmac) s.monitor).2.issued.length = k ∧
      (exec (cseHw E) (verifyMac message cmac) s.monitor).1 = .done (.error e) := by
  by_cases haccepted : 0 < message.length ∧ message.length ≤ u32Max
  · obtain ⟨hpos, hlen⟩ := haccepted
    rw [exec_verifyMac hpos hlen] at h ⊢
    rw [finish_state] at h ⊢
    have hlog := log_of_monitored (E := E) (verifyRequests cmac.toList .first message)
      (s := s.monitor.prepareVerifyMac message) rfl
    obtain ⟨hend, hcount, _⟩ := log_failed hlog h
    rw [finish_error hend]
    exact ⟨hcount, rfl⟩
  · obtain ⟨msg, hpanic⟩ := exec_verifyMac_reject (E := E) (s := s.monitor) cmac haccepted
    rw [hpanic] at h
    exact absurd h not_failsAt_nil

/-- The first command that reports an error is the last one, and its error is
the result of the call. What a CBC call has read back before stays at the front
of the output buffer, and the rest of the buffer is as the caller passed it. A
call that an assertion rejects issues no command at all. -/
theorem failure_stops (k : Nat) (e : CommandResult) :
    (∀ cbc ∈ [encryptCbc, decryptCbc], ∀ input initVec output,
      FailsAt (exec (cseHw E) (cbc input initVec output) s.monitor).2.issued k e →
      (exec (cseHw E) (cbc input initVec output) s.monitor).2.issued.length = k ∧
      ∃ results, results = (((exec (cseHw E) (cbc input initVec output)
          s.monitor).2.issued.take (k - 1)).mapIdx cbcResult).flatten ∧
        results.length = (if k = 1 then 0 else 96 + 112 * (k - 2)) ∧
        (exec (cseHw E) (cbc input initVec output) s.monitor).1 =
          .done (.error e, results ++ output.drop results.length)) ∧
    (∀ message, FailsAt (exec (cseHw E) (generateMac message) s.monitor).2.issued k e →
      (exec (cseHw E) (generateMac message) s.monitor).2.issued.length = k ∧
      (exec (cseHw E) (generateMac message) s.monitor).1 = .done (.error e)) ∧
    (∀ message cmac, FailsAt (exec (cseHw E) (verifyMac message cmac) s.monitor).2.issued k e →
      (exec (cseHw E) (verifyMac message cmac) s.monitor).2.issued.length = k ∧
      (exec (cseHw E) (verifyMac message cmac) s.monitor).1 = .done (.error e)) := by
  refine ⟨fun cbc hcbc input initVec output h => ?_, fun message => generateMac_fails message,
    fun message cmac => verifyMac_fails message cmac⟩
  rcases List.mem_cons.mp hcbc with rfl | hdec
  · exact handleCbc_fails rfl input initVec output h
  · obtain rfl := List.mem_singleton.mp hdec
    exact handleCbc_fails rfl input initVec output h

/-- The second of two commands reports a sequence error: the result of the first
is in the output, and the last 16 bytes are untouched. -/
theorem failure_stops_second :
    ∃ results : List Byte, results.length = 96 ∧
      (exec (cseHw (Engine.scripted fun n => if n = 1 then .sequenceError else .noError))
        (encryptCbc (List.replicate 112 7) (Vector.replicate 16 1) (List.replicate 112 9))
        (Cse.reset 0).monitor).1 =
          .done (.error .sequenceError, results ++ (List.replicate 112 9).drop results.length) := by
  have hcount : (cbcRequests .encCbc .first (List.replicate 112 7)).length = 2 := by
    rw [cbcRequests_of_lt (by simp only [List.length_replicate]; decide),
      cbcRequests_of_le (by simp only [List.length_drop, List.length_replicate]; decide)]
    rfl
  have hlog := log_of_monitored (E := Engine.scripted fun n => if n = 1 then .sequenceError
    else .noError) (cbcRequests .encCbc .first (List.replicate 112 7))
    (s := (Cse.reset 0).monitor.prepareCbc (List.replicate 112 7) (Vector.replicate 16 1)) rfl
  have hreached := hlog.continues (j := 1) (fun i hi hi1 => by
    obtain rfl := Nat.lt_one_iff.mp hi1
    exact scripted_replies _ _ rfl rfl hi) (by rw [hcount]; decide)
  obtain ⟨_, results, _, hlen, houtcome⟩ := (failure_stops 2 .sequenceError).1 encryptCbc
    List.mem_cons_self (List.replicate 112 7) (Vector.replicate 16 1) (List.replicate 112 9) (by
      rw [encryptCbc, exec_handleCbc rfl _ (by simp only [List.length_replicate])
        (by simp only [List.length_replicate]), finishCbc_state]
      refine ⟨by decide, by decide, hreached, fun j hj hlt => ?_, fun j hj heq => ?_⟩
      · obtain rfl : j = 0 := Nat.lt_one_iff.mp (Nat.lt_of_succ_lt_succ hlt)
        exact scripted_replies _ _ rfl rfl hj
      · obtain rfl : j = 1 := Nat.succ.inj heq
        exact scripted_replies _ _ rfl rfl hj)
  exact ⟨results, hlen, houtcome⟩

end Csec
