import DaredevilSmall.Csec.Reference.Orders
import DaredevilSmall.Csec.Service

/-!
# The port and its reference

The operations of the port as calls of the reference driver: messages of whole bytes, all
bits of a MAC, the RAM key. `reference` answers them in the port's terms.

1. `drivers_agree`: from a reset on, the two drivers answer every list of calls in the same
   way, as long as the lengths fit in the fields of both.
2. `macs_agree_iff`: on messages of any length they agree on a MAC exactly when the message
   has less than 8192 bytes, or when both fail in the same way.
-/

namespace Csec

namespace Reference

open Mmio Data Crypto She SheLemmas CommandsLemmas OverrunLemmas GuardedLemmas SingleLemmas

variable {ε : Type}

/-! ## In the port's terms -/

/-- What the port returns where the reference returns a status. The port knows neither a
busy driver nor a timeout. -/
def Status.ported : Status → Option (Except CommandResult Unit)
  | success => some (.ok ())
  | error => some (.error .generalError)
  | busy => none
  | timeout => none
  | secSequenceError => some (.error .sequenceError)
  | secKeyNotAvailable => some (.error .keyNotAvailable)
  | secKeyInvalid => some (.error .keyInvalid)
  | secKeyEmpty => some (.error .keyEmpty)
  | secNoSecureBoot => some (.error .noSecureBoot)
  | secKeyWriteProtected => some (.error .keyWriteProtected)
  | secKeyUpdateError => some (.error .keyUpdateError)
  | secRngSeed => some (.error .rngSeed)
  | secNoDebugging => some (.error .noDebugging)
  | secMemoryFailure => some (.error .memoryFailure)

/-- A reply of the port, and the state after it. -/
def answer (status : Status) (reply : Except CommandResult Unit → Reply) (st : State) :
    Option (Reply × State) :=
  status.ported.map fun result => (reply result, st)

/-- A blocking call, answered from the state that it leaves. -/
def answerCall (call : Call) (reply : State → Except CommandResult Unit → Reply) (timeout : Word)
    (fuel : Nat) (st : State) : Driver (Option (Reply × State)) := do
  let result ← call.blocking timeout fuel st
  pure (result.bind fun (status, st) => answer status (reply st) st)

/-- The reference driver's call for an operation of the port. -/
def onReference (timeout : Word) (fuel : Nat) (st : State) :
    Op → Driver (Option (Reply × State))
  | .initRng => do
    let ((status, _), st) ← initRng st
    pure (answer status .unit st)
  | .generateRnd => do
    let ((status, bytes), st) ← generateRnd st
    pure (answer status (fun result => .bytes (result.map fun _ => bytes.getD [])) st)
  | .loadPlainkey key => do
    let ((status, _), st) ← loadPlainKey key st
    pure (answer status .unit st)
  | .encryptCbc input iv output =>
    answerCall (encryptCbc .ramKey input (BitVec.ofNat 32 input.length) iv output)
      (fun st result => .buffer result st.outputBuff) timeout fuel st
  | .decryptCbc input iv output =>
    answerCall (decryptCbc .ramKey input (BitVec.ofNat 32 input.length) iv output)
      (fun st result => .buffer result st.outputBuff) timeout fuel st
  | .generateMac message =>
    answerCall (generateMac .ramKey message (BitVec.ofNat 32 (8 * message.length))
      (List.replicate 16 0)) (fun st result => .bytes (result.map fun _ => st.outputBuff))
      timeout fuel st
  | .verifyMac message cmac =>
    answerCall (verifyMac .ramKey message (BitVec.ofNat 32 (8 * message.length)) cmac 0)
      (fun st result => .verdict (result.map fun _ => st.verifStatus)) timeout fuel st

/-- The reference driver on an engine. -/
def reference (E : Engine ε) (timeout : Word) (fuel : Nat) :
    Component Op Reply (State × Cse ε × Host) := fun op w =>
  match exec (systemHw E) (onReference timeout fuel w.1 op) w.2 with
  | (.done (some (reply, st)), w') => (.done reply, st, w')
  | (.done none, w') => (.hung, w.1, w')
  | (.panicked p, w') => (.panicked p, w.1, w')
  | (.hung, w') => (.hung, w.1, w')

/-- The lengths fit in the fields of both drivers, and the call takes no more than so many
rounds. -/
def Common (rounds : Nat) : Op → Prop
  | .encryptCbc input _ output | .decryptCbc input _ output =>
    output.length = input.length ∧ input.length % 16 = 0 ∧ input.length / 16 < 65536 ∧
      input.length < rounds
  | .generateMac message => message.length < 8192 ∧ message.length < rounds
  | .verifyMac message _ => 0 < message.length ∧ message.length < 8192 ∧ message.length < rounds
  | _ => True

/-- No call of so many rounds takes longer than the timeout, whenever it starts. -/
def Host.Prompt (h : Host) (timeout : Word) (rounds : Nat) : Prop :=
  ∀ start, ∀ i < rounds, ¬ h.clock (start + 1 + i) > h.clock start + timeout

/-- The reference driver implements the state of the service: no call is in progress, and
the engine is idle, with this seed, key and count. -/
structure Idle (timeout : Word) (rounds : Nat) (t : Service) (w : State × Cse Guarded × Host) :
    Prop where
  free : w.1.cmdInProgress = false
  represents : Service.Represents t w.2.1
  prompt : w.2.2.Prompt timeout rounds

section Answers

variable {P : Primitives} {latency : Guarded → Pram → Nat} {timeout : Word} {fuel : Nat}
  {t : Service} {st : State} {s : Cse Guarded} {h : Host}

/-! ## Calls of several commands -/

variable (latency) in
/-- A call of several commands in the port's terms. -/
theorem reference_order (hw : Idle timeout fuel t (st, s, h)) (o : Order) {op : Op}
    {reply : State → Except CommandResult Unit → Reply}
    (hop : onReference timeout fuel st op = answerCall o.call reply timeout fuel st)
    (hfuel : o.size + 1 ≤ fuel) (result : Except CommandResult Unit)
    (hresult : (o.status t.ramKey).ported = some result) :
    ∃ st', o.Delivered P t.ramKey st' ∧
      (reference (guarded P latency) timeout fuel op (st, s, h)).1 = .done (reply st' result) ∧
      Idle timeout fuel t (reference (guarded P latency) timeout fuel op (st, s, h)).2 := by
  obtain ⟨n, c', hn, hends, _, hdelivered, hsame⟩ := ends_order latency (P := P) o st s.pram
    hw.represents.idle
  rw [hw.represents.ramKey] at hdelivered
  obtain ⟨m, st', s', h', hexec, _, hm, hclock, _, hreturns⟩ := exec_blocking (h := h)
    (regular_order o) hw.free timeout hends (Nat.le_trans hn hfuel)
  have hin : h.InTime timeout m := fun i hi =>
    hw.prompt h.readings i (Nat.lt_of_lt_of_le hi (Nat.le_trans hm (Nat.le_trans hn hfuel)))
  rcases hreturns with ⟨_, rfl, hanswered⟩ | ⟨hlate, _⟩
  · refine ⟨c'.1, hdelivered, ?_⟩
    have hreply : exec (systemHw (guarded P latency)) (answerCall o.call reply timeout fuel st)
        (s, h) = (.done (some (reply c'.1 result, c'.1)), s', h') := by
      unfold answerCall
      rw [exec_bind_of _ hexec]
      simp only [Option.bind, answer, hdelivered.status, hresult]
      rfl
    have hprompt : h'.Prompt timeout fuel := by
      unfold Host.Prompt
      rw [hclock]
      exact hw.prompt
    unfold reference
    simp only [hop, hreply]
    exact ⟨trivial, hends.not_busy, hw.represents.of_engine (hanswered.engine.trans hsame), hprompt⟩
  · exact absurd hin hlate

/-- The length of a message of whole bytes. -/
theorem whole_bytes {message : List Byte} (hfit : 8 * message.length + 7 < 2 ^ 32) :
    (BitVec.ofNat 32 (8 * message.length)).toNat = 8 * message.length ∧
      message.length = ((BitVec.ofNat 32 (8 * message.length)).toNat + 7) / 8 := by
  have hbits : (BitVec.ofNat 32 (8 * message.length)).toNat = 8 * message.length :=
    Nat.mod_eq_of_lt (by omega)
  exact ⟨hbits, by omega⟩

theorem take_bits {message : List Byte} (hfit : 8 * message.length + 7 < 2 ^ 32) :
    (bitsOf message).take (BitVec.ofNat 32 (8 * message.length)).toNat = bitsOf message := by
  rw [(whole_bytes hfit).1]
  exact List.take_of_length_le (Nat.le_of_eq (bitsOf_length message))

/-- A MAC in the port's terms, of any message. -/
theorem reference_generateMac (hw : Idle timeout fuel t (st, s, h)) (message : List Byte)
    (hfit : 8 * message.length + 7 < 2 ^ 32) (hfuel : message.length + 1 ≤ fuel) :
    (reference (guarded P latency) timeout fuel (.generateMac message) (st, s, h)).1 =
        .done (.bytes (match t.ramKey with
          | none => .error .keyEmpty
          | some key => .ok (P.cmac key (bitsOf message)).toList)) ∧
      Idle timeout fuel t
        (reference (guarded P latency) timeout fuel (.generateMac message) (st, s, h)).2 := by
  obtain ⟨hbits, hlen⟩ := whole_bytes hfit
  obtain ⟨o, ho⟩ : ∃ o, o = Order.generateMac message (BitVec.ofNat 32 (8 * message.length))
    (List.replicate 16 0) hlen (by rwa [hbits]) := ⟨_, rfl⟩
  have hop : onReference timeout fuel st (.generateMac message) = answerCall o.call
      (fun st result => .bytes (result.map fun _ => st.outputBuff)) timeout fuel st := by
    rw [ho]
    rfl
  have hsize : o.size + 1 ≤ fuel := by
    rw [ho]
    exact hfuel
  cases hram : t.ramKey with
  | none =>
    obtain ⟨st', _, hreply, hidle⟩ := reference_order latency (P := P) hw o hop hsize
      (.error .keyEmpty) (by rw [hram]; rfl)
    exact ⟨hreply, hidle⟩
  | some key =>
    obtain ⟨st', hdelivered, hreply, hidle⟩ := reference_order latency (P := P) hw o
      hop hsize (.ok ()) (by rw [hram, ho]; rfl)
    refine ⟨hreply.trans ?_, hidle⟩
    have houtput : st'.outputBuff = (P.cmac key (bitsOf message)).toList := by
      rw [hdelivered.output, hram, ho]
      change (P.cmac key ((bitsOf message).take _)).toList ++ [] = _
      rw [take_bits hfit, List.append_nil]
    rw [houtput]
    rfl

/-- A verification in the port's terms, of any message. -/
theorem reference_verifyMac (hw : Idle timeout fuel t (st, s, h)) (message : List Byte)
    (hfit : 8 * message.length + 7 < 2 ^ 32) (hfuel : message.length + 1 ≤ fuel) (cmac : Block) :
    (reference (guarded P latency) timeout fuel (.verifyMac message cmac) (st, s, h)).1 =
        .done (.verdict (match t.ramKey with
          | none => .error .keyEmpty
          | some key =>
            if 81 ≤ message.length % 112 ∧ message.length % 112 ≤ 96 then .error .sequenceError
            else .ok (P.cmac key (bitsOf message) == cmac))) ∧
      Idle timeout fuel t
        (reference (guarded P latency) timeout fuel (.verifyMac message cmac) (st, s, h)).2 := by
  obtain ⟨hbits, hlen⟩ := whole_bytes hfit
  obtain ⟨o, ho⟩ : ∃ o, o = Order.verifyMac message (BitVec.ofNat 32 (8 * message.length)) cmac 0
    hlen (by rwa [hbits]) := ⟨_, rfl⟩
  have hop : onReference timeout fuel st (.verifyMac message cmac) = answerCall o.call
      (fun st result => .verdict (result.map fun _ => st.verifStatus)) timeout fuel st := by
    rw [ho]
    rfl
  have hsize : o.size + 1 ≤ fuel := by
    rw [ho]
    exact hfuel
  cases hram : t.ramKey with
  | none =>
    obtain ⟨st', _, hreply, hidle⟩ := reference_order latency (P := P) hw o hop hsize
      (.error .keyEmpty) (by rw [hram]; rfl)
    exact ⟨hreply, hidle⟩
  | some key =>
    have hstatus : o.status t.ramKey = if 81 ≤ message.length % 112 ∧ message.length % 112 ≤ 96
        then .secSequenceError else .success := by
      rw [hram, ho]
      rfl
    by_cases hband : 81 ≤ message.length % 112 ∧ message.length % 112 ≤ 96
    · obtain ⟨st', _, hreply, hidle⟩ := reference_order latency (P := P) hw o hop hsize
        (.error .sequenceError) (by rw [hstatus, if_pos hband]; rfl)
      refine ⟨hreply.trans ?_, hidle⟩
      simp only [if_pos hband]
      rfl
    · obtain ⟨st', hdelivered, hreply, hidle⟩ := reference_order latency (P := P) hw o
        hop hsize (.ok ()) (by rw [hstatus, if_neg hband]; rfl)
      have hverdict : o.verdict P t.ramKey = some (P.cmac key (bitsOf message) == cmac) := by
        rw [hram, ho]
        refine (if_neg hband).trans ?_
        rw [take_bits hfit]
        rfl
      refine ⟨hreply.trans ?_, hidle⟩
      rw [hdelivered.verdict _ hverdict]
      simp only [if_neg hband]
      rfl

/-- CBC in the port's terms. -/
theorem reference_cbc (hw : Idle timeout fuel t (st, s, h)) (direction : Direction) {op : Op}
    {input output : List Byte} {iv : Block}
    (hop : onReference timeout fuel st op =
      answerCall (cbcCall direction .ramKey input (BitVec.ofNat 32 input.length) iv output)
        (fun st result => .buffer result st.outputBuff) timeout fuel st)
    (hout : output.length = input.length) (hpages : input.length % 16 = 0)
    (hcount : input.length / 16 < 65536) (hfuel : input.length + 1 ≤ fuel) :
    (reference (guarded P latency) timeout fuel op (st, s, h)).1 =
        Service.cbc P direction t.ramKey iv input output ∧
      Idle timeout fuel t (reference (guarded P latency) timeout fuel op (st, s, h)).2 := by
  obtain ⟨o, ho⟩ : ∃ o, o = Order.cbc direction input iv output hpages hcount := ⟨_, rfl⟩
  have hop' : onReference timeout fuel st op = answerCall o.call
      (fun st result => .buffer result st.outputBuff) timeout fuel st := by
    rw [ho]
    exact hop
  have hsize : o.size + 1 ≤ fuel := by
    rw [ho]
    exact hfuel
  unfold Service.cbc
  rw [if_pos hout, if_pos (hout ▸ hpages)]
  cases hram : t.ramKey with
  | none =>
    obtain ⟨st', hdelivered, hreply, hidle⟩ := reference_order latency (P := P) hw o
      hop' hsize (.error .keyEmpty) (by rw [hram]; rfl)
    refine ⟨hreply.trans ?_, hidle⟩
    rw [hdelivered.output, hram, ho]
    rfl
  | some key =>
    obtain ⟨st', hdelivered, hreply, hidle⟩ := reference_order latency (P := P) hw o
      hop' hsize (.ok ()) (by rw [hram, ho]; rfl)
    refine ⟨hreply.trans ?_, hidle⟩
    have houtput : st'.outputBuff = cbcBytes P direction key iv input := by
      rw [hdelivered.output, hram, ho]
      change cbcBytes P direction key iv input ++ output.drop input.length = _
      rw [← hout, List.drop_length, List.append_nil]
    rw [houtput]
    exact (if_pos hcount).symm

/-! ## Functions of one command -/

theorem ported_ofResult (r : CommandResult) :
    (Status.ofErrorBits r.code).ported = some (if r = .noError then .ok () else .error r) := by
  cases r <;> rfl

/-- A function of one command in the port's terms, when the engine reports `r`. -/
theorem reference_single {α : Type} {parameters : Access Unit} {result : Access α} {op : Op}
    {c : Request Unit} {cmd : Command} (reply : Option α → Except CommandResult Unit → Reply)
    (value : Pram → α) {p' : Pram} {r : CommandResult} {g' : Guarded}
    (hw : Idle timeout fuel t (st, s, h))
    (hop : onReference timeout fuel st op =
      single parameters cmd (keyOf cmd) result st >>= fun r =>
        pure (answer r.1.1 (reply r.1.2) r.2))
    (hheader : c.header = headerWord cmd .copy .first (keyOf cmd))
    (hparameters : exec (cseHw (guarded P latency)) parameters s =
      (.done (), s.store c.words (c.prepare s.pram)))
    (hresult : ∀ s : Cse Guarded,
      exec (cseHw (guarded P latency)) result s = (.done (value s.pram), s))
    (hrun : (guarded P latency).run s.engine (c.handed s.pram) = (report p' r, g')) :
    ∃ s' : Cse Guarded, s'.engine = g' ∧
      reference (guarded P latency) timeout fuel op (st, s, h) =
        (.done (reply (if r = .noError then some (value (report p' r)) else none)
          (if r = .noError then .ok () else .error r)), st, s', h) := by
  obtain ⟨s', hanswered, hexec⟩ := exec_single (E := guarded P latency) (h := h) cmd (keyOf cmd)
    hw.free hparameters hresult
  unfold Request.handed at hrun
  rw [hheader] at hrun
  have hpram := hanswered.pram
  rw [hrun] at hpram
  have hsuccess : Status.ofErrorBits r.code = .success ↔ r = .noError := by
    cases r <;> decide
  refine ⟨s', by rw [hanswered.engine, hrun], ?_⟩
  unfold reference
  simp only [hop]
  rw [exec_bind_of _ hexec, hpram, status_report]
  simp only [hsuccess, answer, ported_ofResult]
  rfl

/-- Nothing is written before the header of a command without parameters. -/
theorem exec_nothing (cmd : Command) :
    exec (cseHw (guarded P latency)) (pure () : Access Unit) s =
      (.done (), s.store (bareRequest cmd).words ((bareRequest cmd).prepare s.pram)) :=
  congrArg (Prod.mk _) s.store_nil.symm

/-- `init_rng` in the port's terms. -/
theorem reference_initRng (hw : Idle timeout fuel t (st, s, h)) :
    (reference (guarded P latency) timeout fuel .initRng (st, s, h)).1 = .done (.unit (.ok ())) ∧
      Idle timeout fuel { t with seeded := true }
        (reference (guarded P latency) timeout fuel .initRng (st, s, h)).2 := by
  have hstep (p : Pram) : s.engine.core.step P .initRng .first p = some (p, s.engine.core) := by
    simp only [step, hw.represents.core]
  have hop : onReference timeout fuel st .initRng = single (pure ()) .initRng (keyOf .initRng)
      (pure ()) st >>= fun r => pure (answer r.1.1 .unit r.2) := rfl
  obtain ⟨s', hengine, hexec⟩ := reference_single (fun _ => .unit) (fun _ => ()) hw hop rfl
    (exec_nothing .initRng) (fun _ => rfl)
    (guarded_passed latency (decode_handed (c := bareRequest .initRng) rfl rfl s.pram) rfl
      (hstep _))
  rw [hexec]
  refine ⟨rfl, hw.free, ⟨?_⟩, hw.prompt⟩
  rw [hengine, hw.represents.engine]
  cases t.ramKey <;> simp [Guarded.after, Guarded.core]

/-- `generate_rnd` in the port's terms. -/
theorem reference_generateRnd (hw : Idle timeout fuel t (st, s, h)) :
    (reference (guarded P latency) timeout fuel .generateRnd (st, s, h)).1 =
        (Service.serve P .generateRnd t).1 ∧
      Idle timeout fuel (Service.serve P .generateRnd t).2
        (reference (guarded P latency) timeout fuel .generateRnd (st, s, h)).2 := by
  have hresult (s : Cse Guarded) : exec (cseHw (guarded P latency))
      (readCommandBytes page1Offset pageSizeInBytes) s = (.done (slice s.pram page1Offset 16), s) :=
    exec_readCommandBytes (by decide) (by decide)
  have hop : onReference timeout fuel st .generateRnd = single (pure ()) .rng (keyOf .rng)
      (readCommandBytes page1Offset pageSizeInBytes) st >>= fun r =>
        pure (answer r.1.1 (fun result => .bytes (result.map fun _ => r.1.2.getD [])) r.2) := rfl
  have hdecode : decode ((bareRequest .rng).handed s.pram 0) = some (.rng, .first) :=
    decode_handed rfl rfl s.pram
  rw [Service.serve]
  cases hseeded : t.seeded with
  | false =>
    have hrefused : s.engine.refusal .rng = some .rngSeed := by
      rw [hw.represents.engine, hseeded]
      rfl
    obtain ⟨s', hengine, hexec⟩ := reference_single
      (fun bytes result => .bytes (result.map fun _ => bytes.getD [])) (slice · page1Offset 16)
      hw hop rfl (exec_nothing .rng) hresult (guarded_refused latency hdecode hrefused)
    rw [hexec]
    exact ⟨rfl, hw.free, hw.represents.of_engine hengine, hw.prompt⟩
  | true =>
    have hpass : s.engine.refusal .rng = none := by
      rw [hw.represents.engine, hseeded]
      rfl
    have hstep (p : Pram) : s.engine.core.step P .rng .first p =
        some (splice p page1Offset (P.random t.drawn).toList,
          { s.engine.core with drawn := t.drawn + 1 }) := by
      simp only [step, hw.represents.core]
    obtain ⟨s', hengine, hexec⟩ := reference_single
      (fun bytes result => .bytes (result.map fun _ => bytes.getD [])) (slice · page1Offset 16)
      hw hop rfl (exec_nothing .rng) hresult (guarded_passed latency hdecode hpass (hstep _))
    rw [hexec, slice_report _ _ (by decide), slice_splice_page _ _ (by decide)]
    refine ⟨rfl, hw.free, ⟨?_⟩, hw.prompt⟩
    rw [hengine, hw.represents.engine, hseeded]
    cases t.ramKey <;> simp [Guarded.after, Guarded.core]

/-- `load_plainkey` in the port's terms. -/
theorem reference_loadPlainkey (hw : Idle timeout fuel t (st, s, h)) (key : Block) :
    (reference (guarded P latency) timeout fuel (.loadPlainkey key) (st, s, h)).1 =
        .done (.unit (.ok ())) ∧
      Idle timeout fuel { t with ramKey := some key }
        (reference (guarded P latency) timeout fuel (.loadPlainkey key) (st, s, h)).2 := by
  have hkey : exec (cseHw (guarded P latency)) (writeCommandBytes page1Offset key.toList) s =
      (.done (), s.store (keyRequest key).words ((keyRequest key).prepare s.pram)) := by
    rw [exec_writeCommandBytes (by decide) (by decide) (key_fits key)]
    simp [keyRequest, Request.words, Request.prepare]
  have hstep : s.engine.core.step P .loadPlainKey .first ((keyRequest key).handed s.pram) =
      some ((keyRequest key).handed s.pram, { s.engine.core with ramKey := key }) := by
    simp only [step, hw.represents.core, page_keyRequest]
  have hop : onReference timeout fuel st (.loadPlainkey key) =
      single (writeCommandBytes page1Offset key.toList) .loadPlainKey (keyOf .loadPlainKey)
        (pure ()) st >>= fun r => pure (answer r.1.1 .unit r.2) := rfl
  obtain ⟨s', hengine, hexec⟩ := reference_single (fun _ => .unit) (fun _ => ()) hw hop rfl
    hkey (fun _ => rfl)
    (guarded_passed latency (decode_handed (c := keyRequest key) rfl rfl s.pram) rfl hstep)
  rw [hexec]
  refine ⟨rfl, hw.free, ⟨?_⟩, hw.prompt⟩
  rw [hengine, hw.represents.engine]
  simp [Guarded.after, Guarded.core]

end Answers

/-! ## Agreement -/

/-- On the common operations the reference driver is the service, call by call. -/
theorem reference_simulates (P : Primitives) (latency : Guarded → Pram → Nat) (timeout : Word)
    (fuel : Nat) :
    Simulates (fun op : { op : Op // Common fuel op } => Service.serve P op.1)
      (fun op => reference (guarded P latency) timeout fuel op.1) (Idle timeout fuel) := by
  rintro ⟨op, hop⟩ t ⟨st, s, h⟩ hw
  cases op with
  | initRng => exact reference_initRng hw
  | generateRnd => exact reference_generateRnd hw
  | loadPlainkey key => exact reference_loadPlainkey hw key
  | encryptCbc input iv output =>
    obtain ⟨hout, hpages, hcount, hrounds⟩ := hop
    exact reference_cbc hw .enc rfl hout hpages hcount hrounds
  | decryptCbc input iv output =>
    obtain ⟨hout, hpages, hcount, hrounds⟩ := hop
    exact reference_cbc hw .dec rfl hout hpages hcount hrounds
  | generateMac message =>
    obtain ⟨hlen, hrounds⟩ := hop
    obtain ⟨hreply, hidle⟩ := reference_generateMac (P := P) hw message (by omega) hrounds
    refine ⟨hreply.trans ?_, hidle⟩
    have hfit : message.length ≤ u32Max := Nat.le_of_lt (Nat.lt_trans hlen (by decide))
    change _ = Service.mac P t.ramKey message
    unfold Service.mac
    rw [if_pos hfit]
    cases t.ramKey with
    | none => rfl
    | some key => exact (if_pos hlen).symm
  | verifyMac message cmac =>
    obtain ⟨hpos, hlen, hrounds⟩ := hop
    obtain ⟨hreply, hidle⟩ := reference_verifyMac (P := P) hw message (by omega) hrounds cmac
    refine ⟨hreply.trans ?_, hidle⟩
    have hfit : message.length ≤ u32Max := Nat.le_of_lt (Nat.lt_trans hlen (by decide))
    change _ = Service.verify P t.ramKey message cmac
    unfold Service.verify
    rw [if_pos (And.intro hpos hfit)]
    cases t.ramKey with
    | none => rfl
    | some key =>
      by_cases hband : 81 ≤ message.length % 112 ∧ message.length % 112 ≤ 96
      · have hno : ¬ (message.length < 8192 ∧
            ¬ (81 ≤ message.length % 112 ∧ message.length % 112 ≤ 96)) := fun h => h.2 hband
        simp only [if_pos hband, if_neg hno]
      · simp only [if_neg hband, if_pos (And.intro hlen hband)]

/-- The port and its reference, each on an engine of its own with the same seed, the same
key and the same random blocks to come, from a reset on: for any list of calls whose
lengths fit in the fields of both, and when no call of `fuel` rounds takes longer than the
timeout, they answer in the same way, and leave their engines in the same state. The PRAMs
and the latencies are arbitrary. -/
theorem drivers_agree (P : Primitives) (latency latency' : Guarded → Pram → Nat)
    (s s' : Cse Guarded) (hidle : s.engine.job = .idle) (hengine : s'.engine = s.engine)
    (st : State) (hfree : st.cmdInProgress = false) (h : Host) {timeout : Word}
    {fuel : Nat} (hprompt : h.Prompt timeout fuel) (ops : List { op : Op // Common fuel op }) :
    let port := Component.run (fun op => driver (guarded P latency) op.1) ops s
    let ref := Component.run (fun op => reference (guarded P latency') timeout fuel op.1) ops
      (st, s', h)
    ref.1 = port.1 ∧ ref.2.2.1.engine = port.2.engine := by
  have hport : Service.Represents ⟨s.engine.seeded, s.engine.ramKey, s.engine.drawn⟩ s :=
    ⟨by rw [← hidle]⟩
  have href : Idle timeout fuel ⟨s.engine.seeded, s.engine.ramKey, s.engine.drawn⟩ (st, s', h) :=
    ⟨hfree, hport.of_engine hengine, hprompt⟩
  have hsimulates : Simulates (fun op : { op : Op // Common fuel op } => Service.serve P op.1)
      (fun op => driver (guarded P latency) op.1) Service.Represents :=
    fun op => ServiceLemmas.simulates P latency op.1
  obtain ⟨hanswers, hafter⟩ := hsimulates.run ops hport
  obtain ⟨hanswers', hafter'⟩ := (reference_simulates P latency' timeout fuel).run ops href
  exact ⟨hanswers'.trans hanswers.symm, hafter'.represents.engine.trans hafter.engine.symm⟩

/-- A clock that goes on with each reading, up to 50. -/
def Host.sample : Host := ⟨0, fun i => BitVec.ofNat 32 (min i 50), 0⟩

theorem Host.prompt_sample (rounds : Nat) : Host.sample.Prompt 100 rounds := by
  intro start i _
  have hreading (j : Nat) : (Host.sample.clock j).toNat = min j 50 := by
    unfold Host.sample
    rw [BitVec.toNat_ofNat, Nat.mod_eq_of_lt (by omega)]
  have hlimit : (Host.sample.clock start + 100).toNat = min start 50 + 100 := by
    have hsum : min start 50 + 100 < 2 ^ 32 := by omega
    rw [BitVec.toNat_add, hreading]
    exact Nat.mod_eq_of_lt hsum
  rw [gt_iff_lt, BitVec.lt_def, hreading, hlimit]
  omega

/-- From a reset on: too early for random bytes and a MAC, then a seed and a key. -/
theorem drivers_agree_sample :
    let ops : List { op : Op // Common 17 op } := [⟨.generateRnd, trivial⟩,
      ⟨.generateMac samplePlain.toList, by decide, by decide⟩, ⟨.initRng, trivial⟩,
      ⟨.loadPlainkey sampleKey, trivial⟩, ⟨.generateRnd, trivial⟩,
      ⟨.verifyMac samplePlain.toList sampleCmac, by decide, by decide, by decide⟩]
    (Component.run (fun op => reference (guarded .sample fun _ _ => 5) 100 17 op.1) ops
        (.sample, Cse.reset Guarded.reset, .sample)).1 =
      (Component.run (fun op => driver (guarded .sample fun _ _ => 3) op.1) ops
        (Cse.reset Guarded.reset)).1 :=
  (drivers_agree .sample (fun _ _ => 3) (fun _ _ => 5) (Cse.reset Guarded.reset)
    (Cse.reset Guarded.reset) rfl rfl .sample rfl .sample (Host.prompt_sample 17) _).1

/-- On the MAC of a non-empty message of any length that the reference can announce, the
port agrees with its reference exactly when the message has less than 8192 bytes or there
is no key, and on its verification also when it fails in both. -/
theorem macs_agree_iff (P : Primitives) (latency latency' : Guarded → Pram → Nat)
    (s s' : Cse Guarded) (hidle : s.engine.job = .idle) (hengine : s'.engine = s.engine)
    (st : State) (hfree : st.cmdInProgress = false) (h : Host) {timeout : Word}
    {fuel : Nat} (hprompt : h.Prompt timeout fuel) (message : List Byte)
    (hpos : 0 < message.length) (hfit : 8 * message.length + 7 < 2 ^ 32)
    (hfuel : message.length < fuel) (cmac : Block) :
    ((reference (guarded P latency') timeout fuel (.generateMac message) (st, s', h)).1 =
        (driver (guarded P latency) (.generateMac message) s).1 ↔
      message.length < 8192 ∨ s.engine.ramKey = none) ∧
      ((reference (guarded P latency') timeout fuel (.verifyMac message cmac) (st, s', h)).1 =
          (driver (guarded P latency) (.verifyMac message cmac) s).1 ↔
        message.length < 8192 ∨ s.engine.ramKey = none ∨
          (81 ≤ message.length % 112 ∧ message.length % 112 ≤ 96)) := by
  have hport : Service.Represents ⟨s.engine.seeded, s.engine.ramKey, s.engine.drawn⟩ s :=
    ⟨by rw [← hidle]⟩
  have href : Idle timeout fuel ⟨s.engine.seeded, s.engine.ramKey, s.engine.drawn⟩ (st, s', h) :=
    ⟨hfree, hport.of_engine hengine, hprompt⟩
  have haccepted : message.length ≤ u32Max := by
    have hmax : u32Max = 2 ^ 32 - 1 := rfl
    omega
  obtain ⟨hgenerate, _⟩ := ServiceLemmas.simulates P latency (.generateMac message) _ s hport
  obtain ⟨hverify, _⟩ := ServiceLemmas.simulates P latency (.verifyMac message cmac) _ s hport
  obtain ⟨hgenerate', _⟩ := reference_generateMac (P := P) href message hfit hfuel
  obtain ⟨hverify', _⟩ := reference_verifyMac (P := P) href message hfit hfuel cmac
  rw [hgenerate, hverify, hgenerate', hverify']
  simp only [Service.serve, Service.mac, Service.verify, if_pos haccepted,
    if_pos (And.intro hpos haccepted)]
  cases s.engine.ramKey with
  | none => simp
  | some key =>
    by_cases hlen : message.length < 8192
    · by_cases hband : 81 ≤ message.length % 112 ∧ message.length % 112 ≤ 96
      · simp [hlen, hband]
      · simp [hlen, hband]
    · by_cases hband : 81 ≤ message.length % 112 ∧ message.length % 112 ≤ 96
      · simp [hlen, hband]
      · simp [hlen, hband]

/-- The reference finds the MAC of a message of 8192 bytes, and the port does not. -/
theorem macs_agree_sample :
    (reference (guarded .sample fun _ _ => 5) 100 8193 (.generateMac (List.replicate 8192 0))
        (.sample, Cse.reset (Guarded.behind true She.sample), .sample)).1 ≠
      (driver (guarded .sample fun _ _ => 3) (.generateMac (List.replicate 8192 0))
        (Cse.reset (Guarded.behind true She.sample))).1 := by
  have hlen : (List.replicate 8192 (0 : Byte)).length = 8192 := List.length_replicate
  have hagree := (macs_agree_iff .sample (fun _ _ => 3) (fun _ _ => 5)
    (Cse.reset (Guarded.behind true She.sample)) (Cse.reset (Guarded.behind true She.sample)) rfl
    rfl .sample rfl .sample (Host.prompt_sample 8193) (List.replicate 8192 0)
    (by rw [hlen]; decide) (by rw [hlen]; decide) (by rw [hlen]; decide) sampleCmac).1
  intro heq
  rcases hagree.mp heq with hshort | hnone
  · rw [hlen] at hshort
    exact absurd hshort (by decide)
  · exact absurd hnone (by decide)

end Reference

end Csec
