import DaredevilSmall.Csec.Access
import DaredevilSmall.Data.Pieces

/-!
# Sessions

What the chunked operations of the driver are for: a *session* hands the engine
a list of requests, one command each, and stops at the first command that does
not report `NoError`. A request says how PRAM is prepared, which header starts
the command, and what is read from the engine's reply.

`Session.run` is the session on any engine. The three `process_blocks` of the
source are sessions over `macRequests`, `verifyRequests` and `cbcRequests`:
`exec_generateMac_processBlocks`, `exec_verifyMac_processBlocks` and
`exec_handleCbc_processBlocks`. Everything said later about the order of
commands, about failures and about results is said about sessions.
-/

namespace Csec

open Mmio Data

variable {ε β γ : Type}

/-- One command of a session: the bytes written to PRAM before it as pairs of an
offset and a buffer, its header, and what is read from the reply. -/
structure Request (β : Type) where
  writes : List (Nat × List Byte)
  header : Word
  observe : Pram → β

namespace Request

/-- The PRAM after the writes of a request. -/
def prepare (c : Request β) (p : Pram) : Pram :=
  c.writes.foldl (fun p w => splice p w.1 w.2) p

/-- The words these writes go to, in order. -/
def words (c : Request β) : List (Fin 32) :=
  c.writes.flatMap fun w => wordsOf w.1 w.2.length

/-- The PRAM the engine is handed for a request. -/
def handed (c : Request β) (p : Pram) : Pram := Function.update (c.prepare p) 0 c.header

end Request

/-- Buffers one behind the other, from `offset` on and inside PRAM. -/
def Ordered : Nat → List (Nat × List Byte) → Prop
  | _, [] => True
  | offset, w :: ws =>
    offset ≤ w.1 ∧ w.1 + w.2.length ≤ 128 ∧ Ordered (w.1 + w.2.length) ws

namespace SessionLemmas

theorem slice_update_zero (p : Pram) (w : Word) {off len : Nat} (h : 4 ≤ off) :
    slice (Function.update p 0 w) off len = slice p off len :=
  slice_congr fun _ _ => byteAt_update_zero p w (Nat.le_add_right_of_le h)

theorem byteAt_behind {writes : List (Nat × List Byte)} {offset : Nat} (h : Ordered offset writes)
    (p : Pram) {i : Nat} (hi : i < offset) :
    byteAt (writes.foldl (fun p w => splice p w.1 w.2) p) i = byteAt p i := by
  induction writes generalizing offset p with
  | nil => rfl
  | cons w ws ih =>
    obtain ⟨hle, _, hrest⟩ := h
    have hlt : i < w.1 := Nat.lt_of_lt_of_le hi hle
    rw [List.foldl_cons, ih hrest _ (Nat.lt_add_right _ hlt)]
    exact byteAt_splice_of_lt p _ hlt

theorem slice_writes {writes : List (Nat × List Byte)} {offset : Nat} (h : Ordered offset writes)
    (p : Pram) {w : Nat × List Byte} (hw : w ∈ writes) :
    slice (writes.foldl (fun p w => splice p w.1 w.2) p) w.1 w.2.length = w.2 := by
  induction writes generalizing offset p with
  | nil => exact absurd hw (by simp)
  | cons w' ws ih =>
    obtain ⟨_, hfit, hrest⟩ := h
    rcases List.mem_cons.mp hw with rfl | hin
    · rw [List.foldl_cons, slice_congr fun j hj => byteAt_behind hrest _ (Nat.add_lt_add_left hj _)]
      exact slice_splice_self p hfit
    · exact ih hrest _ hin

theorem Ordered.ge {writes : List (Nat × List Byte)} {offset : Nat} (h : Ordered offset writes)
    {w : Nat × List Byte} (hw : w ∈ writes) : offset ≤ w.1 := by
  induction writes generalizing offset with
  | nil => exact absurd hw (by simp)
  | cons w' ws ih =>
    obtain ⟨hle, _, hrest⟩ := h
    rcases List.mem_cons.mp hw with rfl | hin
    · exact hle
    · exact Nat.le_trans (Nat.le_trans hle (Nat.le_add_right _ _)) (ih hrest hin)

end SessionLemmas

open SessionLemmas

/-- The engine finds what a request writes. -/
theorem Request.slice_handed (c : Request β) {offset : Nat} (h : Ordered offset c.writes)
    (hlo : 4 ≤ offset) (p : Pram) {w : Nat × List Byte} (hw : w ∈ c.writes) :
    slice (c.handed p) w.1 w.2.length = w.2 := by
  rw [handed, slice_update_zero _ _ (Nat.le_trans hlo (Ordered.ge h hw))]
  exact slice_writes h p hw

/-- What lies in front of the writes of a request, word 0 apart, is left alone. -/
theorem Request.byteAt_handed (c : Request β) {offset : Nat} (h : Ordered offset c.writes)
    (p : Pram) {i : Nat} (hlo : 4 ≤ i) (hhi : i < offset) : byteAt (c.handed p) i = byteAt p i := by
  rw [handed, byteAt_update_zero _ _ hlo]
  exact byteAt_behind h p hhi

theorem Request.halfwordAt_handed (c : Request β) {offset : Nat} (h : Ordered offset c.writes)
    (p : Pram) {i : Nat} (hlo : 4 ≤ i) (hhi : i + 2 ≤ offset) :
    halfwordAt (c.handed p) i = halfwordAt p i := by
  rw [halfwordAt, c.byteAt_handed h p hlo (by omega), c.byteAt_handed h p (by omega) hhi]
  rfl

/-- The peripheral after the command of a request. -/
def Cse.serve (E : Engine ε) (s : Cse ε) (c : Request β) : Cse ε :=
  (s.store c.words (c.prepare s.pram)).issue E c.header

theorem Cse.serve_pram (E : Engine ε) (s : Cse ε) (c : Request β) :
    (s.serve E c).pram = (E.run s.engine (c.handed s.pram)).1 := rfl

theorem Cse.serve_engine (E : Engine ε) (s : Cse ε) (c : Request β) :
    (s.serve E c).engine = (E.run s.engine (c.handed s.pram)).2 := rfl

namespace Session

/-- How a session ends, what was read after each command without error, and the
peripheral at the end. -/
structure Result (ε β : Type) where
  ending : Outcome (Except CommandResult Unit)
  observed : List β
  state : Cse ε

/-- Serve the requests in order, up to the first that is not reported
`NoError`. -/
def run (E : Engine ε) : List (Request β) → Cse ε → Result ε β
  | [], s => ⟨.done (.ok ()), [], s⟩
  | c :: cs, s =>
    match reported (status (s.serve E c).pram) with
    | .done (.ok ()) =>
      let r := run E cs (s.serve E c)
      { r with observed := c.observe (s.serve E c).pram :: r.observed }
    | stop => ⟨stop, [], s.serve E c⟩

/-- What a driver function makes of the end of its session. -/
def finish (r : Result ε β) (value : List β → γ) : Outcome (Except CommandResult γ) × Cse ε :=
  match r.ending with
  | .done (.ok ()) => (.done (.ok (value r.observed)), r.state)
  | .done (.error e) => (.done (.error e), r.state)
  | .panicked p => (.panicked p, r.state)
  | .hung => (.hung, r.state)

/-- What `handle_cbc` makes of the end of its session: the bytes read so far go
to the front of `output`, whether or not the session was completed. -/
def finishCbc (r : Result ε (List Byte)) (output : List Byte) :
    Outcome (Except CommandResult Unit × List Byte) × Cse ε :=
  match r.ending with
  | .done result =>
    (.done (result, r.observed.flatten ++ output.drop r.observed.flatten.length), r.state)
  | .panicked p => (.panicked p, r.state)
  | .hung => (.hung, r.state)

end Session

/-! ## The sessions of the driver -/

/-- The given sequence for the first command, `Subsequent` for the others. -/
def sequenced {α : Type} (sequence : Sequence) : List α → List (Sequence × α)
  | [] => []
  | a :: as => (sequence, a) :: as.map (Sequence.subsequent, ·)

/-- The most message bytes a command can carry: seven pages. -/
def maxBytes : Nat := 112

theorem ordered_chunk {chunk : List Byte} (h : chunk.length ≤ maxBytes) :
    Ordered page1Offset [(page1Offset, chunk)] :=
  ⟨Nat.le_refl _, Nat.add_le_add_left h 16, trivial⟩

/-- A command of `generate_mac` that carries `chunk`. -/
def macRequest (sequence : Sequence) (chunk : List Byte) : Request Unit where
  writes := [(page1Offset, chunk)]
  header := headerWord .generateMac .copy sequence .ramKey
  observe _ := ()

/-- The session of `generate_mac`. -/
def macRequests (sequence : Sequence) (message : List Byte) : List (Request Unit) :=
  (sequenced sequence (pieces maxBytes maxBytes message)).map fun c => macRequest c.1 c.2

/-- A command of `verify_mac` that carries `chunk`, and the CMAC on the page
after it when `appended`. It reads the verification bits. -/
def verifyRequest (cmac : List Byte) (sequence : Sequence) (chunk : List Byte)
    (appended : Bool) : Request Halfword where
  writes := (page1Offset, chunk) ::
    if appended then [(verifyMac.nextPage chunk.length * pageSizeInBytes, cmac)] else []
  header := headerWord .verifyMac .copy sequence .ramKey
  observe p := halfwordAt p macVerificationBitsOffset

/-- The chunks of `verify_mac`: those of 112 bytes, then one of at most 80 bytes
that leaves room for the CMAC. -/
def verifyChunks (message : List Byte) : List (List Byte) :=
  message.take maxBytes ::
    if 80 < message.length then verifyChunks (message.drop maxBytes) else []
termination_by message.length
decreasing_by
  simp only [maxBytes, List.length_drop]
  omega

/-- The session of `verify_mac`. -/
def verifyRequests (cmac : List Byte) (sequence : Sequence) (message : List Byte) :
    List (Request Halfword) :=
  (sequenced sequence (verifyChunks message)).map fun c =>
    verifyRequest cmac c.1 c.2 (decide (c.2.length ≤ 80))

/-- A command of `handle_cbc`. It reads back the pages it has written. -/
def cbcRequest (command : Command) (sequence : Sequence) (chunk : List Byte) :
    Request (List Byte) where
  writes := [(handleCbc.pageOffset sequence, chunk)]
  header := headerWord command .copy sequence .ramKey
  observe p := slice p (handleCbc.pageOffset sequence) chunk.length

/-- The session of `handle_cbc`. -/
def cbcRequests (command : Command) (sequence : Sequence) (input : List Byte) :
    List (Request (List Byte)) :=
  (sequenced sequence
    (pieces (16 * handleCbc.availPages sequence) maxBytes input)).map fun c =>
      cbcRequest command c.1 c.2

/-- What every command of a session preserves, the session preserves. -/
theorem Session.run_invariant {E : Engine ε} {cs : List (Request β)} {I : Cse ε → Prop}
    (hserve : ∀ c ∈ cs, ∀ s, I s → I (s.serve E c)) {s : Cse ε} (hs : I s) :
    I (Session.run E cs s).state := by
  induction cs generalizing s with
  | nil => exact hs
  | cons c cs ih =>
    have hc : I (s.serve E c) := hserve c List.mem_cons_self s hs
    unfold Session.run
    split
    · exact ih (fun c' hc' => hserve c' (List.mem_cons_of_mem _ hc')) hc
    · exact hc

namespace SessionLemmas

variable {E : Engine ε} {s : Cse ε}

theorem exec_write {c : Request β} {offset : Nat} {buf : List Byte}
    (hwrites : c.writes = [(offset, buf)]) (halign : offset % 4 = 0) (hpos : 4 ≤ offset)
    (hfit : offset + buf.length ≤ 128) :
    exec (cseHw E) (writeCommandBytes offset buf) s =
      (.done (), s.store c.words (c.prepare s.pram)) := by
  rw [exec_writeCommandBytes halign hpos hfit, Request.words, Request.prepare, hwrites]
  simp

/-- The write of a CMAC after that of a chunk. -/
theorem exec_write_append {cmac chunk : List Byte} (sequence : Sequence)
    (hcmac : cmac.length = 16) (hchunk : chunk.length ≤ 80) :
    exec (cseHw E)
        (writeCommandBytes (verifyMac.nextPage chunk.length * pageSizeInBytes) cmac)
        (s.store (wordsOf page1Offset chunk.length) (splice s.pram page1Offset chunk)) =
      (.done (), s.store (verifyRequest cmac sequence chunk true).words
        ((verifyRequest cmac sequence chunk true).prepare s.pram)) := by
  obtain ⟨hbehind, hfit⟩ := verifyMac.room hchunk
  have hpos : 4 ≤ verifyMac.nextPage chunk.length * pageSizeInBytes :=
    Nat.le_trans (Nat.le_add_right_of_le (by decide)) hbehind
  have halign : verifyMac.nextPage chunk.length * pageSizeInBytes % 4 = 0 := by
    simp only [pageSizeInBytes]
    omega
  rw [exec_writeCommandBytes halign hpos (hcmac.symm ▸ hfit), Cse.store_store]
  simp [verifyRequest, Request.words, Request.prepare]

theorem exec_header {c : Request β} {cmd : Command} {sequence : Sequence} {key : KeyID}
    (himpl : cmd.implemented = true) (hheader : c.header = headerWord cmd .copy sequence key) :
    exec (cseHw E) (writeCommandHeader cmd .copy sequence key)
        (s.store c.words (c.prepare s.pram)) =
      (reported (status (s.serve E c).pram), s.serve E c) := by
  rw [exec_writeCommandHeader himpl, Cse.serve, hheader]

theorem run_cons (c : Request β) (cs : List (Request β)) :
    Session.run E (c :: cs) s =
      match reported (status (s.serve E c).pram) with
      | .done (.ok ()) =>
        { Session.run E cs (s.serve E c) with
          observed := c.observe (s.serve E c).pram ::
            (Session.run E cs (s.serve E c)).observed }
      | stop => ⟨stop, [], s.serve E c⟩ := rfl

/-- A driver that starts a command and goes on with `f` is a session of this
command and `cs` if `f` does the rest of it. -/
theorem exec_command {α : Type} {c : Request β} {cs : List (Request β)} {cmd : Command}
    {sequence : Sequence} {key : KeyID} {f : Except CommandResult Unit → Driver α}
    (ends : Session.Result ε β → Outcome α × Cse ε) (himpl : cmd.implemented = true)
    (hheader : c.header = headerWord cmd .copy sequence key)
    (herror : ∀ e s', exec (cseHw E) (f (.error e)) s' = ends ⟨.done (.error e), [], s'⟩)
    (hpanic : ∀ p s', (.panicked p, s') = ends ⟨.panicked p, [], s'⟩)
    (hhung : ∀ s', (.hung, s') = ends ⟨.hung, [], s'⟩)
    (hok : exec (cseHw E) (f (.ok ())) (s.serve E c) =
      ends { Session.run E cs (s.serve E c) with
        observed := c.observe (s.serve E c).pram ::
          (Session.run E cs (s.serve E c)).observed }) :
    exec (cseHw E) (writeCommandHeader cmd .copy sequence key >>= f)
        (s.store c.words (c.prepare s.pram)) =
      ends (Session.run E (c :: cs) s) := by
  rw [exec_bind, exec_header himpl hheader, run_cons]
  cases reported (status (s.serve E c).pram) with
  | done result =>
    cases result with
    | error e => exact herror e _
    | ok u => exact hok
  | panicked p => exact hpanic p _
  | hung => exact hhung _

theorem finish_ok {r : Session.Result ε β} (h : r.ending = .done (.ok ())) (value : List β → γ) :
    Session.finish r value = (.done (.ok (value r.observed)), r.state) := by
  simp only [Session.finish, h]

theorem finish_error {r : Session.Result ε β} {e : CommandResult} (h : r.ending = .done (.error e))
    (value : List β → γ) : Session.finish r value = (.done (.error e), r.state) := by
  simp only [Session.finish, h]

@[simp] theorem finish_state (r : Session.Result ε β) (value : List β → γ) :
    (Session.finish r value).2 = r.state := by
  unfold Session.finish
  split <;> rfl

theorem finishCbc_done {r : Session.Result ε (List Byte)} {result : Except CommandResult Unit}
    (h : r.ending = .done result) (output : List Byte) :
    Session.finishCbc r output =
      (.done (result, r.observed.flatten ++ output.drop r.observed.flatten.length), r.state) := by
  simp only [Session.finishCbc, h]

@[simp] theorem finishCbc_state (r : Session.Result ε (List Byte)) (output : List Byte) :
    (Session.finishCbc r output).2 = r.state := by
  unfold Session.finishCbc
  split <;> rfl

theorem sequenced_subsequent {α : Type} (as : List α) :
    sequenced .subsequent as = as.map (Sequence.subsequent, ·) := by
  cases as <;> rfl

theorem macRequests_cons (sequence : Sequence) (message : List Byte) :
    ∃ cs, macRequests sequence message = macRequest sequence (message.take maxBytes) :: cs := by
  rw [macRequests, pieces]
  exact ⟨_, rfl⟩

theorem verifyRequests_cons (cmac : List Byte) (sequence : Sequence) (message : List Byte) :
    ∃ appended cs, verifyRequests cmac sequence message =
      verifyRequest cmac sequence (message.take maxBytes) appended :: cs := by
  rw [verifyRequests, verifyChunks]
  exact ⟨_, _, rfl⟩

theorem cbcRequests_cons (command : Command) (sequence : Sequence) (input : List Byte) :
    ∃ cs, cbcRequests command sequence input =
      cbcRequest command sequence (input.take (16 * handleCbc.availPages sequence)) :: cs := by
  rw [cbcRequests, pieces]
  exact ⟨_, rfl⟩

theorem macRequests_of_le {sequence : Sequence} {message : List Byte}
    (h : message.length ≤ maxBytes) :
    macRequests sequence message = [macRequest sequence message] := by
  simp [macRequests, pieces_of_le h, sequenced]

theorem macRequests_of_lt {sequence : Sequence} {message : List Byte}
    (h : maxBytes < message.length) :
    macRequests sequence message =
      macRequest sequence (message.take maxBytes) ::
        macRequests .subsequent (message.drop maxBytes) := by
  rw [macRequests, macRequests, pieces_of_lt (by decide) h, sequenced_subsequent]
  rfl

theorem verifyChunks_of_le {message : List Byte} (h : message.length ≤ 80) :
    verifyChunks message = [message] := by
  rw [verifyChunks, if_neg (Nat.not_lt.mpr h),
    List.take_of_length_le (Nat.le_trans h (by decide))]

theorem verifyChunks_of_lt {message : List Byte} (h : 80 < message.length) :
    verifyChunks message = message.take maxBytes :: verifyChunks (message.drop maxBytes) := by
  rw [verifyChunks, if_pos h]

theorem verifyRequests_of_le {cmac : List Byte} {sequence : Sequence} {message : List Byte}
    (h : message.length ≤ 80) :
    verifyRequests cmac sequence message = [verifyRequest cmac sequence message true] := by
  simp [verifyRequests, verifyChunks_of_le h, sequenced, h]

theorem verifyRequests_of_lt {cmac : List Byte} {sequence : Sequence} {message : List Byte}
    (h : 80 < message.length) :
    verifyRequests cmac sequence message =
      verifyRequest cmac sequence (message.take maxBytes) false ::
        verifyRequests cmac .subsequent (message.drop maxBytes) := by
  have hlong : ¬ (message.take maxBytes).length ≤ 80 := by
    simp only [maxBytes, List.length_take]
    omega
  rw [verifyRequests, verifyRequests, verifyChunks_of_lt h, sequenced_subsequent]
  simp only [sequenced, List.map_cons, hlong, decide_false]

theorem cbcRequests_of_le {command : Command} {sequence : Sequence} {input : List Byte}
    (h : input.length ≤ 16 * handleCbc.availPages sequence) :
    cbcRequests command sequence input = [cbcRequest command sequence input] := by
  simp [cbcRequests, pieces_of_le h, sequenced]

theorem cbcRequests_of_lt {command : Command} {sequence : Sequence} {input : List Byte}
    (h : 16 * handleCbc.availPages sequence < input.length) :
    cbcRequests command sequence input =
      cbcRequest command sequence (input.take (16 * handleCbc.availPages sequence)) ::
        cbcRequests command .subsequent (input.drop (16 * handleCbc.availPages sequence)) := by
  have hpos : 0 < handleCbc.availPages sequence := (handleCbc.layout sequence).2.2.1
  rw [cbcRequests, cbcRequests, pieces_of_lt (by omega) h, sequenced_subsequent]
  rfl

/-- A completed session has read something after each of its commands. -/
theorem observed_length {cs : List (Request β)}
    (h : (Session.run E cs s).ending = .done (.ok ())) :
    (Session.run E cs s).observed.length = cs.length := by
  induction cs generalizing s with
  | nil => rfl
  | cons c cs ih =>
    rw [run_cons] at h ⊢
    cases hr : reported (status (s.serve E c).pram) with
    | done result =>
      cases result with
      | error e => simp [hr] at h
      | ok u =>
        simp only [hr] at h ⊢
        simp [ih h]
    | panicked p => simp [hr] at h
    | hung => simp [hr] at h

/-- What was read before the last command does not reach the verdict. -/
theorem finish_verdict {cs : List (Request Halfword)} (hcs : cs ≠ []) (bits : Halfword) :
    Session.finish { Session.run E cs s with observed := bits :: (Session.run E cs s).observed }
        (fun bits => bits.getLast? == some 0) =
      Session.finish (Session.run E cs s) fun bits => bits.getLast? == some 0 := by
  cases hr : (Session.run E cs s).ending with
  | done result =>
    cases result with
    | error e => simp only [Session.finish, hr]
    | ok u =>
      have hne : (Session.run E cs s).observed ≠ [] := by
        intro h
        have hlen := observed_length hr
        rw [h] at hlen
        exact hcs (List.eq_nil_of_length_eq_zero hlen.symm)
      obtain ⟨b, bs, hobs⟩ := List.exists_cons_of_ne_nil hne
      simp only [Session.finish, hr, hobs, List.getLast?_cons_cons]
  | panicked p => simp only [Session.finish, hr]
  | hung => simp only [Session.finish, hr]

theorem verifyRequests_ne_nil {cmac : List Byte} {sequence : Sequence} {message : List Byte} :
    verifyRequests cmac sequence message ≠ [] := by
  obtain ⟨_, _, h⟩ := verifyRequests_cons cmac sequence message
  rw [h]
  exact List.cons_ne_nil _ _

theorem drop_min_length {α : Type} (l : List α) (n : Nat) : l.drop (min l.length n) = l.drop n := by
  by_cases h : n ≤ l.length
  · rw [Nat.min_eq_right h]
  · rw [Nat.min_eq_left (by omega), List.drop_length, List.drop_eq_nil_of_le (by omega)]

theorem take_min_length {α : Type} (l : List α) (n : Nat) : l.take (min l.length n) = l.take n := by
  simp [List.take_eq_take_iff, Nat.min_comm]

theorem finishCbc_cons (r : Session.Result ε (List Byte)) (o output : List Byte) :
    Session.finishCbc { r with observed := o :: r.observed } output =
      andThen (Session.finishCbc r (output.drop o.length)) fun a s' =>
        (.done (a.1, o ++ a.2), s') := by
  cases hr : r.ending with
  | done result => simp [Session.finishCbc, hr, List.drop_drop]
  | panicked p => simp only [Session.finishCbc, hr, andThen_panicked]
  | hung => simp only [Session.finishCbc, hr, andThen]

end SessionLemmas

open SessionLemmas

variable {E : Engine ε} {s : Cse ε}

/-- `process_blocks` of `generate_mac` is a session. -/
theorem exec_generateMac_processBlocks (message : List Byte) (sequence : Sequence) :
    exec (cseHw E) (generateMac.processBlocks message sequence) s =
      Session.finish (Session.run E (macRequests sequence message) s) fun _ => () := by
  induction hlen : message.length using Nat.strongRecOn generalizing message sequence s with
  | ind n ih =>
    rw [generateMac.processBlocks]
    simp only [show maxPages * pageSizeInBytes = maxBytes from rfl]
    rw [exec_bind_of _ (exec_checkSlice _ (Nat.min_le_left _ _) _),
      exec_bind_of _ (exec_write (c := macRequest sequence (message.take maxBytes)) ?writes
        (by decide) (by decide) ?fit)]
    case writes => simp [macRequest, take_min_length]
    case fit =>
      simp only [page1Offset, maxBytes, List.length_take]
      omega
    by_cases hmore : maxBytes < message.length
    · rw [macRequests_of_lt hmore]
      refine exec_command (Session.finish · fun _ => ()) rfl rfl (fun _ _ => rfl) (fun _ _ => rfl)
        (fun _ => rfl) ?_
      simp only
      rw [if_pos (by omega), Nat.min_eq_right (by omega),
        ih _ (by simp only [List.length_drop, maxBytes] at *; omega) _ _ rfl]
      rfl
    · rw [macRequests_of_le (by omega), List.take_of_length_le (by omega)]
      refine exec_command (Session.finish · fun _ => ()) rfl rfl (fun _ _ => rfl) (fun _ _ => rfl)
        (fun _ => rfl) ?_
      simp only
      rw [if_neg (by omega)]
      rfl

/-- `process_blocks` of `verify_mac` is a session. Its verdict is what was read
after the last command. -/
theorem exec_verifyMac_processBlocks (message cmac : List Byte) (sequence : Sequence)
    (hcmac : cmac.length = 16) :
    exec (cseHw E) (verifyMac.processBlocks message cmac sequence false) s =
      Session.finish (Session.run E (verifyRequests cmac sequence message) s) fun bits =>
        bits.getLast? == some 0 := by
  induction hlen : message.length using Nat.strongRecOn generalizing message sequence s with
  | ind n ih =>
    rw [verifyMac.processBlocks]
    simp only [show maxPages * pageSizeInBytes = maxBytes from rfl]
    rw [exec_bind_of _ (exec_checkSlice _ (Nat.min_le_left _ _) _)]
    by_cases hmore : 80 < message.length
    · -- no room for the CMAC: the command carries message bytes only
      have hpage : ¬ verifyMac.nextPage (min message.length maxBytes) < maxPages := by
        rw [verifyMac.nextPage_lt_maxPages]
        simp only [maxBytes]
        omega
      rw [exec_bind_of _ (exec_write
        (c := verifyRequest cmac sequence (message.take maxBytes) false) ?writes
        (by decide) (by decide) ?fit)]
      case writes => simp [verifyRequest, take_min_length]
      case fit =>
        simp only [page1Offset, maxBytes, List.length_take]
        omega
      simp only [hpage, decide_false, Bool.and_false, Bool.or_false, Bool.not_false, if_true,
        Bool.false_eq_true, if_false]
      rw [verifyRequests_of_lt hmore]
      refine exec_command (Session.finish · fun bits => bits.getLast? == some 0) rfl rfl
        (fun _ _ => rfl) (fun _ _ => rfl) (fun _ => rfl) ?_
      simp only
      rw [exec_bind_of _ (exec_readCommandHalfword (by decide) (by decide)), drop_min_length,
        ih _ (by simp only [List.length_drop, maxBytes]; omega) _ _ rfl]
      exact (finish_verdict verifyRequests_ne_nil _).symm
    · -- the rest of the message fits, with the CMAC on the page after it
      have hpage : verifyMac.nextPage (min message.length maxBytes) < maxPages := by
        rw [verifyMac.nextPage_lt_maxPages]
        omega
      have hall : min message.length maxBytes = message.length :=
        Nat.min_eq_left (by simp only [maxBytes]; omega)
      rw [hall] at hpage
      simp only [hall, List.take_length, hpage, decide_true, Bool.and_true, Bool.not_false, if_true,
        Bool.or_true, Bool.not_true, Bool.false_eq_true, if_false]
      rw [exec_bind_of _ (exec_writeCommandBytes (by decide) (by decide)
          (by simp only [page1Offset]; omega)),
        exec_bind_of _ (exec_write_append sequence hcmac (by omega)),
        verifyRequests_of_le (by omega)]
      refine exec_command (Session.finish · fun bits => bits.getLast? == some 0) rfl rfl
        (fun _ _ => rfl) (fun _ _ => rfl) (fun _ => rfl) ?_
      simp only
      rw [exec_bind_of _ (exec_readCommandHalfword (by decide) (by decide))]
      rfl

/-- `process_blocks` of `handle_cbc` is a session. -/
theorem exec_handleCbc_processBlocks {command : Command} (himpl : command.implemented = true)
    (input output : List Byte) (sequence : Sequence) (hpages : input.length % 16 = 0)
    (hout : output.length = input.length) :
    exec (cseHw E) (handleCbc.processBlocks input output sequence command hpages) s =
      Session.finishCbc (Session.run E (cbcRequests command sequence input) s) output := by
  induction hlen : input.length using Nat.strongRecOn
    generalizing input output sequence s with
  | ind n ih =>
    obtain ⟨hoff, halign, hpos, hfit⟩ := handleCbc.layout sequence
    rw [handleCbc.processBlocks]
    simp only [handleCbc.bytes_eq hpages]
    rw [exec_bind_of _ (exec_checkSlice _ (Nat.min_le_left _ _) _),
      exec_bind_of _ (exec_write
        (c := cbcRequest command sequence (input.take (16 * handleCbc.availPages sequence)))
        ?writes halign (by omega) ?fit)]
    case writes => simp [cbcRequest, take_min_length]
    case fit =>
      simp only [List.length_take]
      omega
    by_cases hmore : 16 * handleCbc.availPages sequence < input.length
    · rw [cbcRequests_of_lt hmore]
      refine exec_command (Session.finishCbc · output) himpl rfl (fun _ _ => rfl) (fun _ _ => rfl)
        (fun _ => rfl) ?_
      have hlenIn : (input.take (16 * handleCbc.availPages sequence)).length =
          16 * handleCbc.availPages sequence := List.length_take_of_le (by omega)
      have hlenOut : (output.take (16 * handleCbc.availPages sequence)).length =
          16 * handleCbc.availPages sequence := List.length_take_of_le (by omega)
      simp only [Nat.min_eq_right (Nat.le_of_lt hmore)]
      rw [exec_bind_of _ (exec_checkSlice _ (by omega) _),
        exec_bind_of _ (exec_readCommandBytes halign (by omega)), if_pos (by omega), exec_bind,
        ih _ (by simp only [List.length_drop]; omega) _ _ _ _
          (by simp only [List.length_drop, hout]) rfl, finishCbc_cons]
      simp only [cbcRequest, hlenIn, hlenOut, slice_length]
      rfl
    · have hall : min output.length (16 * handleCbc.availPages sequence) = output.length :=
        Nat.min_eq_left (by omega)
      have htake : input.take (16 * handleCbc.availPages sequence) = input :=
        List.take_of_length_le (by omega)
      rw [cbcRequests_of_le (by omega), htake]
      refine exec_command (Session.finishCbc · output) himpl rfl (fun _ _ => rfl) (fun _ _ => rfl)
        (fun _ => rfl) ?_
      simp only [← hout, hall, List.take_length]
      rw [exec_bind_of _ (exec_checkSlice _ (Nat.le_refl _) _),
        exec_bind_of _ (exec_readCommandBytes halign (by omega)), if_neg (by omega)]
      simp [Session.finishCbc, Session.run, cbcRequest, ← hout]

/-! ## The operations -/

/-- What `write_command_words` leaves of the bit length of a message of `n`
bytes: its lower half-word. -/
def lengthField (n : Nat) : List Byte :=
  [0, 0, hi ((BitVec.ofNat 32 (n * 8)).setWidth 16), lo ((BitVec.ofNat 32 (n * 8)).setWidth 16)]

/-- The peripheral when `generate_mac` starts its session. -/
def Cse.prepareGenerateMac (s : Cse ε) (message : List Byte) : Cse ε :=
  s.store [wordAt macMessageLengthOffset, wordAt macMessageLengthOffset]
    (splice s.pram macMessageLengthOffset (lengthField message.length))

/-- The peripheral when `verify_mac` starts its session. -/
def Cse.prepareVerifyMac (s : Cse ε) (message : List Byte) : Cse ε :=
  (s.prepareGenerateMac message).store [wordAt macLengthOffset]
    (splice (s.prepareGenerateMac message).pram macLengthOffset [0, 0])

/-- The number of pages `handle_cbc` announces. -/
def announcedPages (input : List Byte) : Halfword :=
  handleCbc.max (BitVec.ofNat 16 (input.length >>> bytesToPagesShift)) 1

theorem announcedPages_toNat (input : List Byte) :
    (announcedPages input).toNat = max (input.length / pageSizeInBytes % 2 ^ 16) 1 := by
  have hshift : input.length >>> bytesToPagesShift = input.length / pageSizeInBytes :=
    Nat.shiftRight_eq_div_pow _ _
  have hone : (1 : Halfword).toNat = 1 := rfl
  unfold announcedPages handleCbc.max
  split <;> simp only [hshift, BitVec.le_def, BitVec.toNat_ofNat, hone] at * <;> omega

/-- The peripheral when `handle_cbc` starts its session. -/
def Cse.prepareCbc (s : Cse ε) (input : List Byte) (initVec : Vector Byte 16) : Cse ε :=
  s.store (wordsOf page1Offset 16 ++ [wordAt pageLengthOffset])
    (splice (splice s.pram page1Offset initVec.toList) pageLengthOffset
      [hi (announcedPages input), lo (announcedPages input)])

theorem exec_generateMac {message : List Byte} (hlen : message.length ≤ u32Max) :
    exec (cseHw E) (generateMac message) s =
      Session.finish (Session.run E (macRequests .first message) (s.prepareGenerateMac message))
        fun _ => slice (Session.run E (macRequests .first message)
          (s.prepareGenerateMac message)).state.pram page2Offset 16 := by
  have hprepare : exec (cseHw E) (writeCommandWords macMessageLengthOffset
      [BitVec.ofNat 32 (message.length * 8)]) s = (.done (), s.prepareGenerateMac message) :=
    exec_writeCommandWords_singleton (by decide) (by decide) (by decide) _
  rw [generateMac, exec_bind_of _ (exec_assert _ (by simpa using hlen) _ _),
    exec_bind_of _ hprepare, exec_bind, exec_generateMac_processBlocks]
  cases Session.run E (macRequests .first message) (s.prepareGenerateMac message) with
  | mk ending observed state =>
    cases ending with
    | done result =>
      cases result with
      | error e => rfl
      | ok u =>
        exact exec_bind_of _ (exec_readCommandBytes (by decide) (by decide))
    | panicked p => rfl
    | hung => rfl

theorem exec_verifyMac {message : List Byte} (hpos : 0 < message.length)
    (hlen : message.length ≤ u32Max) (cmac : Vector Byte 16) :
    exec (cseHw E) (verifyMac message cmac) s =
      Session.finish (Session.run E (verifyRequests cmac.toList .first message)
        (s.prepareVerifyMac message)) fun bits => bits.getLast? == some 0 := by
  have hprepare : exec (cseHw E) (writeCommandWords macMessageLengthOffset
      [BitVec.ofNat 32 (message.length * 8)]) s = (.done (), s.prepareGenerateMac message) :=
    exec_writeCommandWords_singleton (by decide) (by decide) (by decide) _
  have hmacLength : exec (cseHw E) (writeCommandHalfword macLengthOffset
      (BitVec.ofNat 16 (cmac.toList.length * 8))) (s.prepareGenerateMac message) =
        (.done (), s.prepareVerifyMac message) :=
    exec_writeCommandHalfword_upper (by decide) (by decide) (by decide) _
  rw [verifyMac, exec_bind_of _ (exec_assert _ (by simp [hpos, hlen]) _ _),
    exec_bind_of _ hprepare, exec_bind_of _ hmacLength,
    exec_verifyMac_processBlocks _ _ _ (by simp)]

theorem exec_handleCbc {command : Command} (himpl : command.implemented = true)
    {input output : List Byte} (initVec : Vector Byte 16) (hout : output.length = input.length)
    (hpages : input.length % 16 = 0) :
    exec (cseHw E) (handleCbc command input initVec output) s =
      Session.finishCbc (Session.run E (cbcRequests command .first input)
        (s.prepareCbc input initVec)) output := by
  have hassert : exec (cseHw E) (assert (BitVec.ofNat 16 (input.length >>> bytesToPagesShift) ≤
      u16Max) "Encryption/decryption input too long" : Driver Unit) s = (.done (), s) :=
    exec_assert _ (by simp [u16Max, BitVec.le_def]; omega) _ _
  have hiv : exec (cseHw E) (writeCommandBytes page1Offset initVec.toList) s =
      (.done (), s.store (wordsOf page1Offset initVec.toList.length)
        (splice s.pram page1Offset initVec.toList)) :=
    exec_writeCommandBytes (by decide) (by decide) (by simp [page1Offset])
  have hcount (s : Cse ε) : exec (cseHw E) (writeCommandHalfword pageLengthOffset
      (announcedPages input)) s = (.done (), s.store [wordAt pageLengthOffset]
        (splice s.pram pageLengthOffset [hi (announcedPages input), lo (announcedPages input)])) :=
    exec_writeCommandHalfword_lower (by decide) (by decide) (by decide) _
  rw [handleCbc, dif_pos hout, dif_pos (hout ▸ hpages), exec_bind_of _ hassert, exec_bind_of _ hiv]
  refine (exec_bind_of _ (hcount _)).trans ?_
  rw [exec_handleCbc_processBlocks himpl _ _ _ _ hout, Cse.store_store, Vector.length_toList]
  rfl

/-- Buffers that `handle_cbc` rejects are rejected before any register access. -/
theorem exec_handleCbc_reject (command : Command) {input output : List Byte}
    (initVec : Vector Byte 16)
    (h : output.length ≠ input.length ∨ output.length % 16 ≠ 0) :
    ∃ msg, exec (cseHw E) (handleCbc command input initVec output) s =
      (.panicked (.assertion msg), s) := by
  rw [handleCbc]
  by_cases hout : output.length = input.length
  · have hpages : output.length % 16 ≠ 0 := h.resolve_left fun hne => hne hout
    rw [dif_pos hout, dif_neg hpages]
    exact ⟨_, rfl⟩
  · rw [dif_neg hout]
    exact ⟨_, rfl⟩

theorem exec_generateMac_reject {message : List Byte} (hlen : ¬ message.length ≤ u32Max) :
    ∃ msg, exec (cseHw E) (generateMac message) s = (.panicked (.assertion msg), s) := by
  rw [generateMac, assert, if_neg (by simpa using hlen)]
  exact ⟨_, rfl⟩

theorem exec_verifyMac_reject {message : List Byte} (cmac : Vector Byte 16)
    (h : ¬ (0 < message.length ∧ message.length ≤ u32Max)) :
    ∃ msg, exec (cseHw E) (verifyMac message cmac) s = (.panicked (.assertion msg), s) := by
  rw [verifyMac, assert, if_neg (by simpa using h)]
  exact ⟨_, rfl⟩

end Csec
