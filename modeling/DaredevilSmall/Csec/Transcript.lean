import DaredevilSmall.Csec.Session

/-!
# Command transcripts

Which commands an operation hands to the engine, whatever the engine answers.
The ghost log `issued` of the peripheral, empty at the start of a monitored
call, is the transcript of the call. `Log` relates a transcript to the requests
of a session and to its end, without mentioning the engine; `run_log` says that
every session writes such a transcript.

1. `Log.completed`, `Log.failed`: without errors a session serves all its
   requests; the first command that reports an error is its last one.
2. `macTranscripts`: in a run without errors the chunks handed over are the
   message, once and in order, and the verdict of `verify_mac` is that of its last
   command.
-/

namespace Csec

open Mmio Data SessionLemmas

variable {ε β : Type}

/-- The peripheral with empty ghost logs, as a monitored call finds it. -/
def Cse.monitor (s : Cse ε) : Cse ε := { s with touched := [], issued := [] }

/-- `i` is the command of request `c`, when the words `before` had been written
already. -/
def Issued.Serves (i : Issued) (c : Request β) (before : List (Fin 32)) : Prop :=
  i.touched = before ++ c.words ∧ ∃ p, i.request = c.handed p

/-- `Log cs before new ending observed`: the transcript `new` of a session over
`cs` that ends with `ending` after reading `observed`. -/
inductive Log : List (Request β) → List (Fin 32) → List Issued →
    Outcome (Except CommandResult Unit) → List β → Prop
  | nil {before : List (Fin 32)} : Log [] before [] (.done (.ok ())) []
  | ok {c : Request β} {cs : List (Request β)} {before : List (Fin 32)} {i : Issued}
      {new : List Issued} {ending : Outcome (Except CommandResult Unit)} {observed : List β} :
      i.Serves c before → reported (status i.reply) = .done (.ok ()) →
      Log cs [] new ending observed →
      Log (c :: cs) before (i :: new) ending (c.observe i.reply :: observed)
  | stop {c : Request β} {cs : List (Request β)} {before : List (Fin 32)} {i : Issued} :
      i.Serves c before → reported (status i.reply) ≠ .done (.ok ()) →
      Log (c :: cs) before [i] (reported (status i.reply)) []

/-- Every session writes a transcript. -/
theorem run_log (E : Engine ε) (cs : List (Request β)) (s : Cse ε) :
    ∃ new, (Session.run E cs s).state.issued = s.issued ++ new ∧
      Log cs s.touched new (Session.run E cs s).ending (Session.run E cs s).observed := by
  induction cs generalizing s with
  | nil => exact ⟨[], by simp [Session.run], Log.nil⟩
  | cons c cs ih =>
    obtain ⟨i, hissued, hreply, hserves⟩ : ∃ i : Issued, (s.serve E c).issued = s.issued ++ [i] ∧
        (s.serve E c).pram = i.reply ∧ i.Serves c s.touched :=
      ⟨_, rfl, rfl, rfl, s.pram, rfl⟩
    have hstop : reported (status i.reply) ≠ .done (.ok ()) →
        Log (c :: cs) s.touched [i] (reported (status i.reply)) [] := Log.stop hserves
    rw [run_cons, hreply]
    cases hr : reported (status i.reply) with
    | done result =>
      rw [hr] at hstop
      cases result with
      | error e => exact ⟨[i], hissued, hstop (by simp)⟩
      | ok u =>
        obtain ⟨new, hnew, hlog⟩ := ih (s.serve E c)
        refine ⟨i :: new, ?_, Log.ok hserves hr hlog⟩
        rw [hnew, hissued, List.append_assoc, List.singleton_append]
    | panicked p =>
      rw [hr] at hstop
      exact ⟨[i], hissued, hstop (by simp)⟩
    | hung =>
      rw [hr] at hstop
      exact ⟨[i], hissued, hstop (by simp)⟩

namespace TranscriptLemmas

theorem reported_ok_iff {v : Halfword} :
    reported v = .done (.ok ()) ↔ v = CommandResult.noError.code := by
  constructor
  · intro h
    cases hr : CommandResult.fromU16 v with
    | none => simp [reported, hr] at h
    | some r =>
      cases r
      case noError => exact CommandResult.code_of_fromU16 hr
      all_goals simp [reported, hr] at h
  · rintro rfl
    rfl

theorem reported_error {e : CommandResult} (he : e ≠ .noError) :
    reported e.code = .done (.error e) := by
  unfold reported
  rw [CommandResult.fromU16_code]
  cases e
  case noError => exact absurd rfl he
  all_goals rfl

end TranscriptLemmas

open TranscriptLemmas

namespace Log

variable {cs : List (Request β)} {before : List (Fin 32)} {new : List Issued}
  {ending : Outcome (Except CommandResult Unit)} {observed : List β}

theorem length_le (h : Log cs before new ending observed) : new.length ≤ cs.length := by
  induction h with
  | nil => exact Nat.le_refl _
  | ok _ _ _ ih => exact Nat.succ_le_succ ih
  | stop _ _ => exact Nat.succ_le_succ (Nat.zero_le _)

/-- A command without error is followed by that of the next request. -/
theorem continues (h : Log cs before new ending observed) {j : Nat}
    (hok : ∀ i (hi : i < new.length), i < j → status new[i].reply = CommandResult.noError.code)
    (hj : j < cs.length) : j < new.length := by
  induction h generalizing j with
  | nil => exact absurd hj (by simp)
  | ok _ _ _ ih =>
    cases j with
    | zero => exact Nat.succ_pos _
    | succ j =>
      exact Nat.succ_lt_succ (ih (fun i hi hij =>
        hok (i + 1) (Nat.succ_lt_succ hi) (Nat.succ_lt_succ hij)) (Nat.lt_of_succ_lt_succ hj))
  | stop _ hne =>
    cases j with
    | zero => exact Nat.succ_pos _
    | succ j =>
      exact absurd (reported_ok_iff.mpr (hok 0 (Nat.succ_pos _) (Nat.succ_pos j))) hne

/-- Command `j` of a transcript serves request `j`. -/
theorem serves (h : Log cs before new ending observed) {j : Nat} (hj : j < new.length)
    (hcs : j < cs.length) : new[j].Serves cs[j] (if j = 0 then before else []) := by
  induction h generalizing j with
  | nil => exact absurd hj (by simp)
  | ok hserves _ _ ih =>
    cases j with
    | zero => exact hserves
    | succ j =>
      have hrest := ih (Nat.lt_of_succ_lt_succ hj) (Nat.lt_of_succ_lt_succ hcs)
      rwa [ite_self] at hrest
  | stop hserves _ =>
    cases j with
    | zero => exact hserves
    | succ j => exact absurd hj (by simp)

/-- Without errors the session is completed. -/
theorem completed (h : Log cs before new ending observed)
    (hok : ∀ i ∈ new, status i.reply = CommandResult.noError.code) :
    ending = .done (.ok ()) ∧ new.length = cs.length ∧
      observed = List.zipWith (fun c i => c.observe i.reply) cs new := by
  induction h with
  | nil => exact ⟨rfl, rfl, rfl⟩
  | ok _ _ _ ih =>
    obtain ⟨hend, hlen, hobs⟩ := ih fun i hi => hok i (List.mem_cons_of_mem _ hi)
    exact ⟨hend, congrArg (· + 1) hlen, congrArg _ hobs⟩
  | stop _ hne => exact absurd (reported_ok_iff.mpr (hok _ List.mem_cons_self)) hne

/-- The first command that reports an error is the last one. -/
theorem failed (h : Log cs before new ending observed) {e : CommandResult} (he : e ≠ .noError)
    {j : Nat} (hj : j < new.length)
    (hbefore : ∀ i (hi : i < j), status new[i].reply = CommandResult.noError.code)
    (hfail : status new[j].reply = e.code) :
    ending = .done (.error e) ∧ new.length = j + 1 ∧
      observed = List.zipWith (fun c i => c.observe i.reply) (cs.take j) (new.take j) := by
  induction h generalizing j with
  | nil => exact absurd hj (by simp)
  | ok _ hok _ ih =>
    cases j with
    | zero =>
      rw [List.getElem_cons_zero] at hfail
      rw [hfail, reported_error he] at hok
      exact absurd hok (by simp)
    | succ j =>
      obtain ⟨hend, hlen, hobs⟩ := ih (Nat.lt_of_succ_lt_succ hj)
        (fun i hi => hbefore (i + 1) (Nat.succ_lt_succ hi)) hfail
      exact ⟨hend, congrArg (· + 1) hlen, congrArg _ hobs⟩
  | stop _ hne =>
    cases j with
    | zero =>
      rw [List.getElem_cons_zero] at hfail
      exact ⟨by rw [hfail, reported_error he], rfl, rfl⟩
    | succ j => exact absurd (hbefore 0 (Nat.succ_pos j)) fun h => hne (reported_ok_iff.mpr h)

end Log

/-! ## What a command carries -/

/-- The command `i` has the given header, finds every buffer of `writes` in PRAM
at its offset, and the words written for it are `parameters` and then those of
the buffers. -/
structure Issued.Carries (i : Issued) (header : Word) (parameters : List (Fin 32))
    (writes : List (Nat × List Byte)) : Prop where
  header : i.request 0 = header
  bytes : ∀ w ∈ writes, slice i.request w.1 w.2.length = w.2
  words : i.touched = parameters ++ writes.flatMap fun w => wordsOf w.1 w.2.length

theorem Issued.Serves.carries {i : Issued} {c : Request β} {before : List (Fin 32)}
    (h : i.Serves c before) (hordered : Ordered page1Offset c.writes) :
    i.Carries c.header before c.writes := by
  obtain ⟨hwords, p, hrequest⟩ := h
  refine ⟨?_, ?_, hwords⟩
  · rw [hrequest, Request.handed, Function.update_self]
  · intro w hw
    rw [hrequest]
    exact c.slice_handed hordered (by decide) p hw

/-! ## The transcripts of the MAC operations -/

/-- The commands `issued` hand over the message cut into `chunks`: all of it, in
order, nothing twice. Every command that is followed by more message bytes
carries 112 of them, and the last command carries `appended` besides. -/
structure Delivers (issued : List Issued) (command : Command) (parameters : List (Fin 32))
    (message : List Byte) (appended : List (Nat × List Byte)) (chunks : List (List Byte)) :
    Prop where
  message : chunks.flatten = message
  full : ∀ j (h : j < chunks.length), (chunks.drop (j + 1)).flatten ≠ [] →
    chunks[j].length = maxBytes
  commands : issued.length = chunks.length
  carries : ∀ j (hi : j < issued.length) (hc : j < chunks.length),
    issued[j].Carries
      (headerWord command .copy (if j = 0 then .first else .subsequent) .ramKey)
      (if j = 0 then parameters else [])
      ((page1Offset, chunks[j]) :: if j + 1 = chunks.length then appended else [])

namespace TranscriptLemmas

theorem sequenced_length {α : Type} (sequence : Sequence) (l : List α) :
    (sequenced sequence l).length = l.length := by
  cases l <;> simp [sequenced]

theorem sequenced_getElem {α : Type} (l : List α) {j : Nat} (h : j < l.length)
    (h' : j < (sequenced .first l).length) :
    (sequenced .first l)[j] = (if j = 0 then .first else .subsequent, l[j]) := by
  cases l with
  | nil => exact absurd h (by simp)
  | cons a as => cases j <;> simp [sequenced]

theorem verifyChunks_ne_nil {message : List Byte} : verifyChunks message ≠ [] := by
  rw [verifyChunks]
  exact List.cons_ne_nil _ _

theorem verifyChunks_flatten (message : List Byte) : (verifyChunks message).flatten = message := by
  induction message using verifyChunks.induct with
  | case1 message ih =>
    rcases Nat.lt_or_ge 80 message.length with h | h
    · rw [verifyChunks_of_lt h, List.flatten_cons, ih h]
      exact List.take_append_drop _ _
    · rw [verifyChunks_of_le h, List.flatten_singleton]

theorem verifyChunks_length_le {message chunk : List Byte} (h : chunk ∈ verifyChunks message) :
    chunk.length ≤ maxBytes := by
  induction message using verifyChunks.induct with
  | case1 message ih =>
    rcases Nat.lt_or_ge 80 message.length with hlt | hle
    · rw [verifyChunks_of_lt hlt, List.mem_cons] at h
      rcases h with rfl | h
      · exact List.length_take_le _ _
      · exact ih hlt h
    · rw [verifyChunks_of_le hle, List.mem_singleton] at h
      subst h
      exact Nat.le_trans hle (by decide)

/-- The last chunk, and no other, leaves room for the CMAC. -/
theorem verifyChunks_last (message : List Byte) {j : Nat} (h : j < (verifyChunks message).length) :
    (verifyChunks message)[j].length ≤ 80 ↔ j + 1 = (verifyChunks message).length := by
  induction message using verifyChunks.induct generalizing j with
  | case1 message ih =>
    rcases Nat.lt_or_ge 80 message.length with hlt | hle
    · have hpos : 0 < (verifyChunks (message.drop maxBytes)).length :=
        List.length_pos_of_ne_nil verifyChunks_ne_nil
      simp only [verifyChunks_of_lt hlt, List.length_cons] at h ⊢
      cases j with
      | zero =>
        have hlong : 80 < (message.take maxBytes).length := by
          simp only [maxBytes, List.length_take]
          omega
        exact ⟨fun hle => absurd hle (Nat.not_le.mpr hlong), fun heq => by omega⟩
      | succ j =>
        rw [List.getElem_cons_succ, ih hlt (Nat.lt_of_succ_lt_succ h), Nat.add_right_cancel_iff]
    · simp only [verifyChunks_of_le hle, List.length_singleton] at h ⊢
      obtain rfl : j = 0 := Nat.lt_one_iff.mp h
      simpa using hle

/-- A chunk that is followed by message bytes is full. -/
theorem verifyChunks_full (message : List Byte) {j : Nat} (h : j < (verifyChunks message).length)
    (hrest : ((verifyChunks message).drop (j + 1)).flatten ≠ []) :
    (verifyChunks message)[j].length = maxBytes := by
  induction message using verifyChunks.induct generalizing j with
  | case1 message ih =>
    rcases Nat.lt_or_ge 80 message.length with hlt | hle
    · simp only [verifyChunks_of_lt hlt, List.length_cons, List.drop_succ_cons] at h hrest ⊢
      cases j with
      | zero =>
        rw [List.drop_zero, verifyChunks_flatten] at hrest
        have hmore : maxBytes < message.length := by
          rwa [Ne, List.drop_eq_nil_iff, Nat.not_le] at hrest
        exact List.length_take_of_le (Nat.le_of_lt hmore)
      | succ j =>
        rw [List.getElem_cons_succ]
        exact ih hlt (Nat.lt_of_succ_lt_succ h) hrest
    · rw [verifyChunks_of_le hle] at hrest
      exact absurd (by simp) hrest

end TranscriptLemmas

/-- What `generate_mac` hands over is its message. -/
theorem Log.delivers_macRequests {message : List Byte} {parameters : List (Fin 32)}
    {new : List Issued} {ending : Outcome (Except CommandResult Unit)} {observed : List Unit}
    (h : Log (macRequests .first message) parameters new ending observed)
    (hall : new.length = (macRequests .first message).length) :
    Delivers new .generateMac parameters message [] (pieces maxBytes maxBytes message) := by
  have hlen : (macRequests .first message).length = (pieces maxBytes maxBytes message).length := by
    rw [macRequests, List.length_map, sequenced_length]
  refine ⟨pieces_flatten (by decide) (by decide), ?_, hall.trans hlen, ?_⟩
  · intro j hj hrest
    have hmore : j + 1 < (pieces maxBytes maxBytes message).length := by
      by_contra hend
      rw [List.drop_eq_nil_of_le (Nat.not_lt.mp hend)] at hrest
      exact hrest rfl
    rw [pieces_length_of_lt (by decide) (by decide) hmore, ite_self]
  · intro j hi hj
    have hserves := h.serves hi (hlen ▸ hj)
    have hfit := pieces_length_le (by decide) (by decide) (List.getElem_mem hj)
    simp only [macRequests, List.getElem_map, sequenced_getElem _ hj] at hserves
    rw [ite_self]
    exact hserves.carries (ordered_chunk hfit)

/-- What `verify_mac` hands over is its message, and the CMAC on a page behind
it. -/
theorem Log.delivers_verifyRequests {message cmac : List Byte} {parameters : List (Fin 32)}
    {new : List Issued} {ending : Outcome (Except CommandResult Unit)} {observed : List Halfword}
    (hcmac : cmac.length = 16)
    (h : Log (verifyRequests cmac .first message) parameters new ending observed)
    (hall : new.length = (verifyRequests cmac .first message).length) :
    ∃ page, page1Offset + ((verifyChunks message).getLast verifyChunks_ne_nil).length ≤
        page * pageSizeInBytes ∧
      page * pageSizeInBytes + 16 ≤ 128 ∧
      Delivers new .verifyMac parameters message [(page * pageSizeInBytes, cmac)]
        (verifyChunks message) := by
  have hlen : (verifyRequests cmac .first message).length = (verifyChunks message).length := by
    rw [verifyRequests, List.length_map, sequenced_length]
  have hlast : ((verifyChunks message).getLast verifyChunks_ne_nil).length ≤ 80 := by
    have hpos : 0 < (verifyChunks message).length :=
      List.length_pos_of_ne_nil verifyChunks_ne_nil
    rw [List.getLast_eq_getElem]
    exact (verifyChunks_last message _).mpr (by omega)
  refine ⟨verifyMac.nextPage ((verifyChunks message).getLast verifyChunks_ne_nil).length,
    (verifyMac.room hlast).1, (verifyMac.room hlast).2, verifyChunks_flatten message,
    fun j hj hrest => verifyChunks_full message hj hrest, hall.trans hlen, ?_⟩
  intro j hi hj
  have hserves := h.serves hi (hlen ▸ hj)
  simp only [verifyRequests, List.getElem_map, sequenced_getElem _ hj,
    verifyChunks_last message hj] at hserves
  by_cases hend : j + 1 = (verifyChunks message).length
  · -- the last command: the CMAC is on the page after its chunk
    have hchunk := (verifyChunks_last message hj).mpr hend
    have heq : (verifyChunks message).getLast verifyChunks_ne_nil = (verifyChunks message)[j] := by
      rw [List.getLast_eq_getElem]
      congr 1
      omega
    have hordered : Ordered page1Offset [(page1Offset, (verifyChunks message)[j]),
        (verifyMac.nextPage (verifyChunks message)[j].length * pageSizeInBytes, cmac)] :=
      ⟨ordered_chunk (Nat.le_trans hchunk (by decide)) |>.1,
        ordered_chunk (Nat.le_trans hchunk (by decide)) |>.2.1, (verifyMac.room hchunk).1,
        hcmac.symm ▸ (verifyMac.room hchunk).2, trivial⟩
    rw [if_pos hend, heq]
    simp only [decide_eq_true hend] at hserves
    exact hserves.carries hordered
  · have hchunk : (verifyChunks message)[j].length ≤ maxBytes :=
      verifyChunks_length_le (List.getElem_mem hj)
    rw [if_neg hend]
    simp only [decide_eq_false hend] at hserves
    exact hserves.carries (ordered_chunk hchunk)

/-- The transcript of a monitored call whose session is over `cs`. -/
theorem log_of_monitored {E : Engine ε} (cs : List (Request β)) {s : Cse ε} (h : s.issued = []) :
    Log cs s.touched (Session.run E cs s).state.issued (Session.run E cs s).ending
      (Session.run E cs s).observed := by
  obtain ⟨new, hnew, hlog⟩ := run_log E cs s
  rw [h, List.nil_append] at hnew
  rwa [hnew]

/-- What `verify_mac` reads after each of its commands. -/
theorem observed_verifyRequests {cmac message : List Byte} {sequence : Sequence}
    {new : List Issued} (h : new.length = (verifyRequests cmac sequence message).length) :
    List.zipWith (fun c i => c.observe i.reply) (verifyRequests cmac sequence message) new =
      new.map fun i => halfwordAt i.reply macVerificationBitsOffset := by
  apply List.ext_getElem
  · simp [h]
  · intro j h₁ h₂
    simp [verifyRequests, verifyRequest]

/-! ## Engines that follow a script -/

/-- The replies of an engine that counts its commands and reports `values n` for
command `n`. -/
theorem counted_replies {E : Engine ε} (count : ε → Nat) (values : Nat → Halfword)
    (hstatus : ∀ e p, status (E.run e p).1 = values (count e))
    (hcount : ∀ e p, count (E.run e p).2 = count e + 1) (cs : List (Request β)) {s : Cse ε}
    (hengine : count s.engine = 0) (hissued : s.issued = []) {j : Nat}
    (hj : j < (Session.run E cs s).state.issued.length) :
    status (Session.run E cs s).state.issued[j].reply = values j := by
  have hserve : ∀ c ∈ cs, ∀ s : Cse ε, (count s.engine = s.issued.length ∧
      ∀ j (hj : j < s.issued.length), status s.issued[j].reply = values j) →
      (count (s.serve E c).engine = (s.serve E c).issued.length ∧
        ∀ j (hj : j < (s.serve E c).issued.length),
          status (s.serve E c).issued[j].reply = values j) := by
    rintro c - s ⟨hlength, hreplies⟩
    refine ⟨?_, fun j hj => ?_⟩
    · simp only [Cse.serve, Cse.issue, Cse.start, Cse.store_issued, Cse.store_engine,
        List.length_append, List.length_singleton, hcount, hlength]
    · simp only [Cse.serve, Cse.issue, Cse.start, Cse.store_issued, List.length_append,
        List.length_singleton] at hj
      simp only [Cse.serve, Cse.issue, Cse.start, Cse.store_issued]
      rcases Nat.lt_succ_iff_lt_or_eq.mp hj with hlt | rfl
      · rw [List.getElem_append_left hlt]
        exact hreplies j hlt
      · rw [List.getElem_concat_length rfl, ← hlength]
        exact hstatus _ _
  exact (Session.run_invariant hserve
    ⟨by rw [hengine, hissued]; rfl, fun j hj => absurd hj (by simp [hissued])⟩).2 j hj

/-- The replies in a run of a scripted engine. -/
theorem scripted_replies (script : Nat → CommandResult) (cs : List (Request β)) {s : Cse Nat}
    (hengine : s.engine = 0) (hissued : s.issued = []) {j : Nat}
    (hj : j < (Session.run (Engine.scripted script) cs s).state.issued.length) :
    status (Session.run (Engine.scripted script) cs s).state.issued[j].reply =
      (script j).code := by
  have hstatus (n : Nat) (p : Pram) :
      status ((Engine.scripted script).run n p).1 = (script n).code :=
    halfwordAt_splice_self p (script n).code (by decide)
  have hcount (n : Nat) (p : Pram) : ((Engine.scripted script).run n p).2 = n + 1 := rfl
  exact counted_replies (fun n => n) (fun n => (script n).code) hstatus hcount cs hengine
    hissued hj

variable {E : Engine ε} {s : Cse ε}

/-- The commands of `generate_mac` and of `verify_mac`, in a run in which all
of them report `NoError`: the message is handed over once and in order,
`verify_mac` hands over the CMAC behind it with the last command and with no
other, and its verdict is what that last command leaves at offset 20. -/
theorem macTranscripts (message : List Byte) (cmac : Vector Byte 16) :
    (message.length ≤ u32Max →
      (∀ i ∈ (exec (cseHw E) (generateMac message) s.monitor).2.issued,
        status i.reply = CommandResult.noError.code) →
      (∃ mac, (exec (cseHw E) (generateMac message) s.monitor).1 = .done (.ok mac)) ∧
      ∃ chunks, Delivers (exec (cseHw E) (generateMac message) s.monitor).2.issued .generateMac
        [wordAt macMessageLengthOffset, wordAt macMessageLengthOffset] message [] chunks) ∧
    (0 < message.length → message.length ≤ u32Max →
      (∀ i ∈ (exec (cseHw E) (verifyMac message cmac) s.monitor).2.issued,
        status i.reply = CommandResult.noError.code) →
      ∃ chunks page last, ∃ h : chunks ≠ [],
        Delivers (exec (cseHw E) (verifyMac message cmac) s.monitor).2.issued .verifyMac
          [wordAt macMessageLengthOffset, wordAt macMessageLengthOffset, wordAt macLengthOffset]
          message [(page * pageSizeInBytes, cmac.toList)] chunks ∧
        page1Offset + (chunks.getLast h).length ≤ page * pageSizeInBytes ∧
        page * pageSizeInBytes + 16 ≤ 128 ∧
        (exec (cseHw E) (verifyMac message cmac) s.monitor).2.issued.getLast? = some last ∧
        (exec (cseHw E) (verifyMac message cmac) s.monitor).1 =
          .done (.ok (halfwordAt last.reply 20 == 0))) := by
  constructor
  · intro hlen hok
    rw [exec_generateMac hlen] at hok ⊢
    rw [finish_state] at hok ⊢
    have hlog := log_of_monitored (E := E) (macRequests .first message)
      (s := s.monitor.prepareGenerateMac message) rfl
    obtain ⟨hend, hall, _⟩ := hlog.completed hok
    rw [finish_ok hend]
    exact ⟨⟨_, rfl⟩, _, hlog.delivers_macRequests hall⟩
  · intro hpos hlen hok
    rw [exec_verifyMac hpos hlen] at hok ⊢
    rw [finish_state] at hok ⊢
    have hlog := log_of_monitored (E := E) (verifyRequests cmac.toList .first message)
      (s := s.monitor.prepareVerifyMac message) rfl
    obtain ⟨hend, hall, hobs⟩ := hlog.completed hok
    obtain ⟨page, hbehind, hfit, hdelivers⟩ := hlog.delivers_verifyRequests (by simp) hall
    have hne : (Session.run E (verifyRequests cmac.toList .first message)
        (s.monitor.prepareVerifyMac message)).state.issued ≠ [] := by
      intro hnil
      rw [hnil] at hall
      exact verifyRequests_ne_nil (List.eq_nil_of_length_eq_zero hall.symm)
    rw [finish_ok hend, hobs, observed_verifyRequests hall]
    refine ⟨_, page, _, verifyChunks_ne_nil, hdelivers, hbehind, hfit,
      List.getLast?_eq_some_getLast hne, ?_⟩
    rw [List.getLast?_map, List.getLast?_eq_some_getLast hne]
    rfl

/-- A message of three chunks, 76 bytes of it in the last one. -/
theorem macTranscripts_scripted :
    (∃ chunks, Delivers
      (exec (cseHw (Engine.scripted fun _ => .noError)) (generateMac (List.replicate 300 7))
        (Cse.reset 0).monitor).2.issued .generateMac
      [wordAt macMessageLengthOffset, wordAt macMessageLengthOffset] (List.replicate 300 7) []
      chunks) ∧
    ∃ chunks page, Delivers
      (exec (cseHw (Engine.scripted fun _ => .noError))
        (verifyMac (List.replicate 300 7) (Vector.replicate 16 1)) (Cse.reset 0).monitor).2.issued
      .verifyMac
      [wordAt macMessageLengthOffset, wordAt macMessageLengthOffset, wordAt macLengthOffset]
      (List.replicate 300 7) [(page * pageSizeInBytes, (Vector.replicate 16 1).toList)] chunks := by
  have hlen : (List.replicate 300 (7 : Byte)).length ≤ u32Max := by
    rw [List.length_replicate]
    decide
  have hpos : 0 < (List.replicate 300 (7 : Byte)).length := by
    rw [List.length_replicate]
    decide
  obtain ⟨hgenerate, hverify⟩ := macTranscripts (E := Engine.scripted fun _ => .noError)
    (s := Cse.reset 0) (List.replicate 300 7) (Vector.replicate 16 1)
  constructor
  · refine (hgenerate hlen fun i hi => ?_).2
    rw [exec_generateMac hlen, finish_state] at hi
    obtain ⟨j, hj, rfl⟩ := List.getElem_of_mem hi
    exact scripted_replies _ _ rfl rfl hj
  · obtain ⟨chunks, page, _, _, hdelivers, _⟩ := hverify hpos hlen fun i hi => by
      rw [exec_verifyMac hpos hlen, finish_state] at hi
      obtain ⟨j, hj, rfl⟩ := List.getElem_of_mem hi
      exact scripted_replies _ _ rfl rfl hj
    exact ⟨chunks, page, hdelivers⟩

end Csec
