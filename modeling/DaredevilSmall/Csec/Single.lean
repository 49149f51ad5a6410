import DaredevilSmall.Csec.ErrorPath
import DaredevilSmall.Csec.Cbc

/-!
# Calls of one command, on any engine

A call whose input fits in one command issues this command and no other. Here
the engine is arbitrary: what the call hands over, and what it returns, is said
in terms of the command that the peripheral has logged.

`Answers` is the common form. A call returns `Ok` exactly if the status of its
command is `NoError`, and the value is then read from the reply. There is one
lemma for each operation.
-/

namespace Csec

open Mmio Data She SheLemmas SessionLemmas TranscriptLemmas CommandsLemmas ErrorPathLemmas
  CbcLemmas

variable {ε α β γ : Type} {E : Engine ε} {c : Cse ε}

/-- The status of the command. -/
def Issued.NoError (i : Issued) : Prop := status i.reply = CommandResult.noError.code

/-- A call from `c` that has ended in `r`. It has issued the command `i`, on a PRAM
with `request`. If the status of the command is `NoError`, the call returns what
`value` makes of the reply, and otherwise nothing that is `ok`. -/
structure Answers (c : Cse ε) (request : Pram → Prop) (value : Pram → α) (ok : α → Bool)
    (r : Outcome α × Cse ε) (i : Issued) : Prop where
  issued : r.2.issued = c.issued ++ [i]
  request : request i.request
  returns : i.NoError → r.1 = .done (value i.reply)
  fails : ¬ i.NoError → ∀ a, r.1 = .done a → ok a = false

namespace SingleLemmas

/-- A session of one request: the command it logs, and how it ends. -/
theorem run_single (req : Request β) (s : Cse ε) :
    ∃ i : Issued, (Session.run E [req] s).state.issued = s.issued ++ [i] ∧
      i.request = req.handed s.pram ∧ i.reply = (Session.run E [req] s).state.pram ∧
      (i.NoError → (Session.run E [req] s).ending = .done (.ok ()) ∧
        (Session.run E [req] s).observed = [req.observe i.reply]) ∧
      (¬ i.NoError → (Session.run E [req] s).ending ≠ .done (.ok ())) := by
  obtain ⟨hending, hstate⟩ := run_singleton (E := E) (s := s) req
  refine ⟨⟨req.handed s.pram, s.touched ++ req.words, (s.serve E req).pram⟩, ?_, rfl,
    congrArg Cse.pram hstate.symm, fun hok => ?_, fun hno h => ?_⟩
  · rw [hstate]
    rfl
  · have hreported : reported (status (s.serve E req).pram) = .done (.ok ()) :=
      reported_ok_iff.mpr hok
    refine ⟨hending.trans hreported, ?_⟩
    rw [run_cons, hreported]
    rfl
  · exact hno (reported_ok_iff.mp (hending.symm.trans h))

theorem answers_of_finish {s : Cse ε} {req : Request β} {request : Pram → Prop}
    {value : Pram → γ} {read : List β → γ} (hissued : s.issued = c.issued)
    (hrequest : request (req.handed s.pram))
    (hread : ∀ p, (Session.run E [req] s).state.pram = p → read [req.observe p] = value p) :
    ∃ i, Answers c request (fun p => .ok (value p)) Except.isOk
      (Session.finish (Session.run E [req] s) read) i := by
  obtain ⟨i, hlog, hhanded, hreply, hok, hno⟩ := run_single (E := E) req s
  refine ⟨i, ⟨?_, hhanded ▸ hrequest, fun h => ?_, fun h a ha => ?_⟩⟩
  · rw [finish_state, hlog, hissued]
  · obtain ⟨hending, hobserved⟩ := hok h
    rw [finish_ok hending, hobserved, hread i.reply hreply.symm]
  · unfold Session.finish at ha
    split at ha
    · next hend => exact absurd hend (hno h)
    · obtain rfl := Outcome.done.inj ha
      rfl
    · cases ha
    · cases ha

theorem answers_of_finishCbc {s : Cse ε} (req : Request (List Byte)) {request : Pram → Prop}
    {output : List Byte} (hissued : s.issued = c.issued) (hrequest : request (req.handed s.pram))
    (hlen : ∀ p, (req.observe p).length = output.length) :
    ∃ i, Answers c request (fun p => (.ok (), req.observe p)) (fun a => a.1.isOk)
      (Session.finishCbc (Session.run E [req] s) output) i := by
  obtain ⟨i, hlog, hhanded, hreply, hok, hno⟩ := run_single (E := E) req s
  refine ⟨i, ⟨?_, hhanded ▸ hrequest, fun h => ?_, fun h a ha => ?_⟩⟩
  · rw [finishCbc_state, hlog, hissued]
  · obtain ⟨hending, hobserved⟩ := hok h
    rw [finishCbc_done hending, hobserved, List.flatten_singleton, hlen, List.drop_length,
      List.append_nil]
  · unfold Session.finishCbc at ha
    split at ha
    · next result hend =>
      obtain rfl := Outcome.done.inj ha
      cases result with
      | error e => rfl
      | ok u => exact absurd hend (hno h)
    · cases ha
    · cases ha

/-- A command whose result is that of the call. -/
theorem exec_header_finish (req : Request Unit) {cmd : Command} {key : KeyID}
    (himpl : cmd.implemented = true) (hheader : req.header = headerWord cmd .copy .first key) :
    exec (cseHw E) (writeCommandHeader cmd .copy .first key)
        (c.store req.words (req.prepare c.pram)) =
      Session.finish (Session.run E [req] c) fun _ => () := by
  obtain ⟨hending, hstate⟩ := run_singleton (E := E) (s := c) req
  rw [exec_header himpl hheader, ← hending, ← hstate]
  generalize Session.run E [req] c = r
  cases r with
  | mk ending observed state =>
    cases ending with
    | done result => cases result <;> rfl
    | panicked p => rfl
    | hung => rfl

/-- The request of `generate_rnd`. -/
def rndRequest : Request (List Byte) where
  writes := []
  header := headerWord .rng .copy .first .secretKey
  observe p := slice p page1Offset 16

theorem exec_generateRnd_finish :
    exec (cseHw E) generateRnd c =
      Session.finish (Session.run E [rndRequest] c) fun o => o.headD [] := by
  have hstart : c = c.store rndRequest.words (rndRequest.prepare c.pram) := c.store_nil.symm
  unfold generateRnd
  conv_lhs => rw [hstart]
  refine exec_command (Session.finish · fun o => o.headD []) rfl rfl (fun _ _ => rfl)
    (fun _ _ => rfl) (fun _ => rfl) ?_
  exact exec_bind_of _ (exec_readCommandBytes (by decide) (by decide))

theorem exec_initRng_finish :
    exec (cseHw E) initRng c =
      Session.finish (Session.run E [bareRequest .initRng] c) fun _ => () :=
  (congrArg (exec _ _) c.store_nil.symm).trans (exec_header_finish (bareRequest .initRng) rfl rfl)

theorem exec_loadPlainkey_finish (key : Block) :
    exec (cseHw E) (loadPlainkey key) c =
      Session.finish (Session.run E [keyRequest key] c) fun _ => () :=
  (exec_bind_of _ (exec_write (c := keyRequest key) rfl (by decide) (by decide)
    (key_fits key))).trans (exec_header_finish (keyRequest key) rfl rfl)

theorem handed_zero (req : Request β) (p : Pram) : req.handed p 0 = req.header :=
  Function.update_self 0 _ _

end SingleLemmas

open SingleLemmas

/-- `init_rng`. -/
theorem initRng_answers : ∃ i, Answers c
    (fun p => p 0 = headerWord .initRng .copy .first .secretKey) (fun _ => .ok ()) Except.isOk
    (exec (cseHw E) initRng c) i := by
  rw [exec_initRng_finish]
  exact answers_of_finish rfl (handed_zero _ _) fun _ _ => rfl

/-- `load_plainkey`. -/
theorem loadPlainkey_answers (key : Block) : ∃ i, Answers c
    (fun p => p 0 = headerWord .loadPlainKey .copy .first .ramKey ∧
      slice p page1Offset 16 = key.toList) (fun _ => .ok ()) Except.isOk
    (exec (cseHw E) (loadPlainkey key) c) i := by
  rw [exec_loadPlainkey_finish]
  refine answers_of_finish rfl ⟨handed_zero _ _, ?_⟩ fun _ _ => rfl
  rw [← page_toList, page_keyRequest]

/-- `generate_rnd`. -/
theorem generateRnd_answers : ∃ i, Answers c
    (fun p => p 0 = headerWord .rng .copy .first .secretKey)
    (fun p => .ok (slice p page1Offset 16)) Except.isOk
    (exec (cseHw E) generateRnd c) i := by
  rw [exec_generateRnd_finish]
  exact answers_of_finish rfl (handed_zero _ _) fun _ _ => rfl

/-- What `handle_cbc` hands over for one command. -/
structure CbcHanded (command : Command) (input : List Byte) (initVec : Block) (p : Pram) :
    Prop where
  header : p 0 = headerWord command .copy .first .ramKey
  count : halfwordAt p pageLengthOffset = announcedPages input
  initVec : slice p page1Offset 16 = initVec.toList
  input : slice p page2Offset input.length = input

/-- A CBC call of at most six pages. -/
theorem handleCbc_answers {command : Command} (himpl : command.implemented = true)
    {input output : List Byte} (initVec : Block) (hout : output.length = input.length)
    (hpages : input.length % 16 = 0) (hfit : input.length ≤ 96) : ∃ i, Answers c
    (CbcHanded command input initVec)
    (fun p => (.ok (), slice p page2Offset input.length)) (fun a => a.1.isOk)
    (exec (cseHw E) (handleCbc command input initVec output) c) i := by
  have hordered : Ordered page2Offset (cbcRequest command .first input).writes :=
    ⟨Nat.le_refl _, Nat.add_le_add_left hfit 32, trivial⟩
  have hrequests : cbcRequests command .first input = [cbcRequest command .first input] :=
    cbcRequests_of_le hfit
  -- the parameters do not depend on the engine
  obtain ⟨hcount, hiv⟩ := parameters_handed
    (s := ⟨c.pram, She.sample, none, c.touched, c.issued⟩) input initVec command hfit
  rw [exec_handleCbc himpl initVec hout hpages, hrequests]
  refine answers_of_finishCbc (s := c.prepareCbc input initVec)
    (cbcRequest command .first input) rfl ⟨handed_zero _ _, hcount, ?_, ?_⟩ fun p => ?_
  · rw [← page_toList]
    exact congrArg Vector.toList hiv
  · exact (cbcRequest command .first input).slice_handed hordered (by decide) _
      List.mem_cons_self
  · rw [hout]
    exact slice_length _ _ _

/-- What `generate_mac` hands over for one command: the message, and its length in
bits as far as it is written. -/
structure MacHanded (message : List Byte) (p : Pram) : Prop where
  header : p 0 = headerWord .generateMac .copy .first .ramKey
  bits : slice p macMessageLengthOffset 4 = lengthField message.length
  message : slice p page1Offset message.length = message

/-- `generate_mac` on at most seven pages. -/
theorem generateMac_answers {message : List Byte} (hfit : message.length ≤ maxBytes) :
    ∃ i, Answers c (MacHanded message) (fun p => .ok (slice p page2Offset 16)) Except.isOk
      (exec (cseHw E) (generateMac message) c) i := by
  have hordered := ordered_chunk hfit
  rw [exec_generateMac (Nat.le_trans hfit (by decide)), macRequests_of_le hfit]
  refine answers_of_finish (s := c.prepareGenerateMac message) rfl ⟨handed_zero _ _, ?_, ?_⟩ ?_
  · have hfront : slice ((macRequest .first message).handed (c.prepareGenerateMac message).pram)
        macMessageLengthOffset 4 =
          slice (c.prepareGenerateMac message).pram macMessageLengthOffset 4 :=
      slice_congr fun j hj => Request.byteAt_handed _ hordered _
        (Nat.le_add_right_of_le (by decide)) (Nat.add_lt_add_left hj 12)
    rw [hfront]
    exact slice_splice_self c.pram (show 12 + (lengthField message.length).length ≤ 128 from
      show 12 + 4 ≤ 128 by decide)
  · exact (macRequest .first message).slice_handed hordered (by decide) _ List.mem_cons_self
  · intro p hp
    rw [hp]

end Csec
