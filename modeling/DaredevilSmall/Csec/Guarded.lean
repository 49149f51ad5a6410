import DaredevilSmall.Csec.Overrun
import DaredevilSmall.Csec.Single

/-!
# The engine from a reset on

`she` holds a key, and its random number generator is seeded. `guarded` is the engine as
a reset leaves it. Its RAM key slot may be empty and its generator not seeded yet, and a
command that needs what is missing is refused: `RNG_SEED` and `KEY_EMPTY`.

1. `run_behind`: with a key in the slot, a session of the driver is one of `she`, and so is
   a call.
2. `run_refused`: a session whose first command is refused ends there, and the engine is
   what it was. So does a call that uses the key, when there is none.
-/

namespace Csec

open Mmio Data She SheLemmas SessionLemmas SingleLemmas TranscriptLemmas

/-- The engine, with the key slot and the generator as they may be after a reset. -/
structure Guarded where
  seeded : Bool
  ramKey : Option Block
  drawn : Nat
  job : Job

/-- The commands that use the key in the RAM key slot. -/
def Command.usesKey : Command → Bool
  | encCbc | decCbc | generateMac | verifyMac => true
  | _ => false

namespace Guarded

/-- Why a command is refused. -/
def refusal (g : Guarded) (cmd : Command) : Option CommandResult :=
  if cmd = .rng ∧ g.seeded = false then some .rngSeed
  else if cmd.usesKey = true ∧ g.ramKey = none then some .keyEmpty
  else none

/-- The engine behind the guards. No command that passes them looks at the key of an
empty slot. -/
def core (g : Guarded) : She := ⟨g.ramKey.getD (Vector.replicate 16 0), g.drawn, g.job⟩

/-- After a command that has left `e` behind the guards. -/
def after (g : Guarded) (cmd : Command) (e : She) : Guarded where
  seeded := g.seeded || cmd == .initRng
  ramKey := if cmd = .loadPlainKey then some e.ramKey else g.ramKey.map fun _ => e.ramKey
  drawn := e.drawn
  job := e.job

/-- The guards around an engine that holds a key. -/
def behind (seeded : Bool) (e : She) : Guarded := ⟨seeded, some e.ramKey, e.drawn, e.job⟩

/-- After a reset. -/
def reset : Guarded := ⟨false, none, 0, .idle⟩

theorem refusal_behind {cmd : Command} (h : cmd.usesKey = true) (seeded : Bool) (e : She) :
    (behind seeded e).refusal cmd = none := by
  unfold refusal
  rw [if_neg, if_neg]
  · rintro ⟨_, hnone⟩
    cases hnone
  · rintro ⟨rfl, _⟩
    cases h

theorem refusal_of_empty {g : Guarded} (hkey : g.ramKey = none) {cmd : Command}
    (huses : cmd.usesKey = true) : g.refusal cmd = some .keyEmpty := by
  unfold refusal
  rw [if_neg, if_pos ⟨huses, hkey⟩]
  rintro ⟨rfl, _⟩
  cases huses

theorem after_behind {cmd : Command} (h : cmd.usesKey = true) (seeded : Bool) (e e' : She) :
    (behind seeded e).after cmd e' = behind seeded e' := by
  cases cmd with
  | encCbc | decCbc | generateMac | verifyMac =>
    unfold behind after
    rw [show (_ == Command.initRng) = false from rfl, Bool.or_false]
    rfl
  | _ => cases h

/-- An engine with a key. -/
theorem eq_behind {g : Guarded} {key : Block} (h : g.ramKey = some key) :
    g = behind g.seeded g.core ∧ g.core.ramKey = key := by
  obtain ⟨seeded, ramKey, drawn, job⟩ := g
  obtain rfl : ramKey = some key := h
  exact ⟨rfl, rfl⟩

end Guarded

open Guarded

/-- The engine from a reset on. -/
def guarded (P : Primitives) (latency : Guarded → Pram → Nat) : Engine Guarded where
  run g p :=
    match decode (p 0) with
    | none => (report p .generalError, g)
    | some (cmd, sequence) =>
      match g.refusal cmd with
      | some refused => (report p refused, g)
      | none =>
        match g.core.step P cmd sequence p with
        | none => (report p .sequenceError, g)
        | some (p', e') => (report p' .noError, g.after cmd e')
  latency := latency

/-- The peripheral with the guards around its engine. -/
def Cse.guard (s : Cse She) (seeded : Bool) : Cse Guarded :=
  ⟨s.pram, behind seeded s.engine, s.running, s.touched, s.issued⟩

variable {P : Primitives} (latency : Guarded → Pram → Nat) {β : Type} {c : Request β}
  {cmd : Command} {sequence : Sequence}

/-- The end of a session, with the guards around the engine. -/
def Session.Result.guard (r : Session.Result She β) (seeded : Bool) : Session.Result Guarded β :=
  ⟨r.ending, r.observed, r.state.guard seeded⟩

/-- A call on the engine `she`, with the guards around it afterwards. -/
def guardOutcome {α : Type} (seeded : Bool) (r : Outcome α × Cse She) : Outcome α × Cse Guarded :=
  (r.1, r.2.guard seeded)

namespace GuardedLemmas

/-- The peripheral without the guards. -/
def core (s : Cse Guarded) : Cse She := ⟨s.pram, s.engine.core, s.running, s.touched, s.issued⟩

theorem guard_core {s : Cse Guarded} {key : Block} (h : s.engine.ramKey = some key) :
    (core s).guard s.engine.seeded = s := by
  obtain ⟨pram, g, running, touched, issued⟩ := s
  unfold Cse.guard core
  rw [← (eq_behind h).1]

theorem decode_handed (himpl : cmd.implemented = true)
    (hheader : c.header = headerWord cmd .copy sequence (keyOf cmd)) (p : Pram) :
    decode (c.handed p 0) = some (cmd, sequence) := by
  rw [handed_zero, hheader, decode_headerWord himpl]

theorem guarded_behind {cmd : Command} {sequence : Sequence} {p : Pram}
    (hdecode : decode (p 0) = some (cmd, sequence)) (huses : cmd.usesKey = true) (seeded : Bool)
    (latency' : She → Pram → Nat) (e : She) :
    (guarded P latency).run (behind seeded e) p =
      (((she P latency').run e p).1, behind seeded ((she P latency').run e p).2) := by
  simp only [guarded, she, hdecode, refusal_behind huses]
  rw [show (behind seeded e).core = e from rfl]
  cases e.step P cmd sequence p with
  | none => rfl
  | some r =>
    simp only
    rw [after_behind huses]

theorem guarded_refused {g : Guarded} {p : Pram} (hdecode : decode (p 0) = some (cmd, sequence))
    {refused : CommandResult} (hrefused : g.refusal cmd = some refused) :
    (guarded P latency).run g p = (report p refused, g) := by
  simp only [guarded, hdecode, hrefused]

theorem guarded_passed {g : Guarded} {p p' : Pram} {e' : She}
    (hdecode : decode (p 0) = some (cmd, sequence)) (hpass : g.refusal cmd = none)
    (hstep : g.core.step P cmd sequence p = some (p', e')) :
    (guarded P latency).run g p = (report p' .noError, g.after cmd e') := by
  simp only [guarded, hdecode, hpass, hstep]

/-- Every command of a session uses the key. -/
def UseKey (cs : List (Request β)) : Prop :=
  ∀ c ∈ cs, ∃ cmd sequence, cmd.implemented = true ∧ cmd.usesKey = true ∧
    c.header = headerWord cmd .copy sequence (keyOf cmd)

theorem serve_behind (himpl : cmd.implemented = true) (huses : cmd.usesKey = true)
    (hheader : c.header = headerWord cmd .copy sequence (keyOf cmd)) (seeded : Bool)
    (latency' : She → Pram → Nat) (s : Cse She) :
    (s.guard seeded).serve (guarded P latency) c = (s.serve (she P latency') c).guard seeded := by
  have hrun := guarded_behind latency (P := P) (decode_handed himpl hheader s.pram) huses seeded
    latency' s.engine
  unfold Request.handed at hrun
  simp only [Cse.serve, Cse.issue, Cse.start, Cse.store, Cse.guard, hrun]

/-- Sessions of commands that use the key are sessions of `she`. -/
theorem run_behind {cs : List (Request β)} (h : UseKey cs) (seeded : Bool)
    (latency' : She → Pram → Nat) (s : Cse She) :
    Session.run (guarded P latency) cs (s.guard seeded) =
      (Session.run (she P latency') cs s).guard seeded := by
  induction cs generalizing s with
  | nil => rfl
  | cons c cs ih =>
    obtain ⟨cmd, sequence, himpl, huses, hheader⟩ := h c List.mem_cons_self
    have hserve := serve_behind latency (P := P) himpl huses hheader seeded latency' s
    have hpram : ((s.guard seeded).serve (guarded P latency) c).pram =
        (s.serve (she P latency') c).pram := congrArg Cse.pram hserve
    rw [run_cons, run_cons, hpram, hserve]
    cases reported (status (s.serve (she P latency') c).pram) with
    | done result =>
      cases result with
      | error e => rfl
      | ok u =>
        simp only
        rw [ih fun c' hc' => h c' (List.mem_cons_of_mem _ hc')]
        rfl
    | panicked p => rfl
    | hung => rfl

theorem finish_guard {γ : Type} (r : Session.Result She β) (seeded : Bool) (value : List β → γ) :
    Session.finish (r.guard seeded) value = guardOutcome seeded (Session.finish r value) := by
  obtain ⟨ending, observed, state⟩ := r
  cases ending with
  | done result =>
    cases result with
    | error e => rfl
    | ok u => rfl
  | panicked p => rfl
  | hung => rfl

theorem finishCbc_guard (r : Session.Result She (List Byte)) (seeded : Bool)
    (output : List Byte) :
    Session.finishCbc (r.guard seeded) output =
      guardOutcome seeded (Session.finishCbc r output) := by
  obtain ⟨ending, observed, state⟩ := r
  cases ending with
  | done result => rfl
  | panicked p => rfl
  | hung => rfl

/-- What a refused command leaves. -/
theorem serve_refused {s : Cse Guarded} (himpl : cmd.implemented = true)
    (hheader : c.header = headerWord cmd .copy sequence (keyOf cmd)) {refused : CommandResult}
    (hrefused : s.engine.refusal cmd = some refused) :
    status (s.serve (guarded P latency) c).pram = refused.code ∧
      (s.serve (guarded P latency) c).engine = s.engine := by
  have hrun := guarded_refused latency (P := P) (decode_handed himpl hheader s.pram) hrefused
  rw [Cse.serve_pram, Cse.serve_engine, hrun]
  exact ⟨status_report _ _, rfl⟩

theorem refusal_ne_noError {g : Guarded} {refused : CommandResult}
    (h : g.refusal cmd = some refused) : refused ≠ .noError := by
  rintro rfl
  unfold refusal at h
  split at h
  · cases h
  · split at h
    · cases h
    · cases h

/-- A session whose first command is refused. -/
theorem run_refused {s : Cse Guarded} (himpl : cmd.implemented = true)
    (hheader : c.header = headerWord cmd .copy sequence (keyOf cmd)) {refused : CommandResult}
    (hrefused : s.engine.refusal cmd = some refused) (cs : List (Request β)) :
    ∃ s', s'.engine = s.engine ∧
      Session.run (guarded P latency) (c :: cs) s = ⟨.done (.error refused), [], s'⟩ := by
  obtain ⟨hstatus, hengine⟩ := serve_refused latency (P := P) himpl hheader hrefused
  refine ⟨_, hengine, ?_⟩
  rw [run_cons, hstatus, reported_error (refusal_ne_noError hrefused)]

/-- A session of one command that passes the guards, in sequence. -/
theorem run_passed {s : Cse Guarded} (himpl : cmd.implemented = true)
    (hheader : c.header = headerWord cmd .copy sequence (keyOf cmd))
    (hpass : s.engine.refusal cmd = none) {p' : Pram} {e' : She}
    (hstep : s.engine.core.step P cmd sequence (c.handed s.pram) = some (p', e')) :
    ∃ s', s'.engine = s.engine.after cmd e' ∧
      Session.run (guarded P latency) [c] s =
        ⟨.done (.ok ()), [c.observe (report p' .noError)], s'⟩ := by
  have hrun := guarded_passed latency (decode_handed himpl hheader s.pram) hpass hstep
  refine ⟨s.serve (guarded P latency) c, by rw [Cse.serve_engine, hrun], ?_⟩
  rw [run_cons, Cse.serve_pram, hrun, status_report]
  rfl

theorem usesKey_command (direction : Direction) : direction.command.usesKey = true := by
  cases direction <;> rfl

theorem useKey_mac (sequence : Sequence) (message : List Byte) :
    UseKey (macRequests sequence message) := by
  intro c hc
  obtain ⟨r, _, rfl⟩ := List.mem_map.mp hc
  exact ⟨_, _, rfl, rfl, rfl⟩

theorem useKey_verify (cmac : List Byte) (sequence : Sequence) (message : List Byte) :
    UseKey (verifyRequests cmac sequence message) := by
  intro c hc
  obtain ⟨r, _, rfl⟩ := List.mem_map.mp hc
  exact ⟨_, _, rfl, rfl, rfl⟩

theorem useKey_cbc (direction : Direction) (sequence : Sequence) (input : List Byte) :
    UseKey (cbcRequests direction.command sequence input) := by
  intro c hc
  obtain ⟨r, _, rfl⟩ := List.mem_map.mp hc
  cases direction with
  | enc => exact ⟨_, _, rfl, rfl, rfl⟩
  | dec => exact ⟨_, _, rfl, rfl, rfl⟩

end GuardedLemmas

open GuardedLemmas

/-! ## The calls that use the key -/

section Calls

variable (seeded : Bool) (latency' : She → Pram → Nat) (s : Cse She)

theorem exec_generateMac_behind {message : List Byte} (hlen : message.length ≤ u32Max) :
    exec (cseHw (guarded P latency)) (generateMac message) (s.guard seeded) =
      guardOutcome seeded (exec (cseHw (she P latency')) (generateMac message) s) := by
  have hprepare : (s.guard seeded).prepareGenerateMac message =
      (s.prepareGenerateMac message).guard seeded := rfl
  rw [exec_generateMac hlen, exec_generateMac hlen, hprepare,
    run_behind latency (useKey_mac .first message) seeded latency']
  exact finish_guard _ seeded _

theorem exec_verifyMac_behind {message : List Byte} (hpos : 0 < message.length)
    (hlen : message.length ≤ u32Max) (cmac : Block) :
    exec (cseHw (guarded P latency)) (verifyMac message cmac) (s.guard seeded) =
      guardOutcome seeded (exec (cseHw (she P latency')) (verifyMac message cmac) s) := by
  have hprepare : (s.guard seeded).prepareVerifyMac message =
      (s.prepareVerifyMac message).guard seeded := rfl
  rw [exec_verifyMac hpos hlen, exec_verifyMac hpos hlen, hprepare,
    run_behind latency (useKey_verify cmac.toList .first message) seeded latency']
  exact finish_guard _ seeded _

theorem exec_handleCbc_behind (direction : Direction) {input output : List Byte}
    (initVec : Block) (hout : output.length = input.length) (hpages : input.length % 16 = 0) :
    exec (cseHw (guarded P latency)) (handleCbc direction.command input initVec output)
        (s.guard seeded) =
      guardOutcome seeded
        (exec (cseHw (she P latency')) (handleCbc direction.command input initVec output) s) := by
  have himpl := CbcLemmas.command_implemented direction
  have hprepare : (s.guard seeded).prepareCbc input initVec =
      (s.prepareCbc input initVec).guard seeded := rfl
  rw [exec_handleCbc himpl initVec hout hpages, exec_handleCbc himpl initVec hout hpages, hprepare,
    run_behind latency (useKey_cbc direction .first input) seeded latency']
  exact finishCbc_guard _ seeded _

end Calls

/-! ## Without a key -/

section Refusals

variable {s : Cse Guarded}

theorem exec_generateMac_refused (hkey : s.engine.ramKey = none) {message : List Byte}
    (hlen : message.length ≤ u32Max) :
    ∃ s', s'.engine = s.engine ∧ exec (cseHw (guarded P latency)) (generateMac message) s =
      (.done (.error .keyEmpty), s') := by
  obtain ⟨cs, hcons⟩ := macRequests_cons .first message
  obtain ⟨s', hengine, hrun⟩ := run_refused latency (P := P)
    (c := macRequest .first (message.take maxBytes)) (s := s.prepareGenerateMac message)
    (show Command.generateMac.implemented = true from rfl) rfl (refusal_of_empty hkey rfl) cs
  refine ⟨s', hengine, ?_⟩
  rw [exec_generateMac hlen, hcons, hrun]
  rfl

theorem exec_verifyMac_refused (hkey : s.engine.ramKey = none) {message : List Byte}
    (hpos : 0 < message.length) (hlen : message.length ≤ u32Max) (cmac : Block) :
    ∃ s', s'.engine = s.engine ∧ exec (cseHw (guarded P latency)) (verifyMac message cmac) s =
      (.done (.error .keyEmpty), s') := by
  obtain ⟨appended, cs, hcons⟩ := verifyRequests_cons cmac.toList .first message
  obtain ⟨s', hengine, hrun⟩ := run_refused latency (P := P)
    (c := verifyRequest cmac.toList .first (message.take maxBytes) appended)
    (s := s.prepareVerifyMac message) (show Command.verifyMac.implemented = true from rfl) rfl
    (refusal_of_empty hkey rfl) cs
  refine ⟨s', hengine, ?_⟩
  rw [exec_verifyMac hpos hlen, hcons, hrun]
  rfl

theorem exec_handleCbc_refused (hkey : s.engine.ramKey = none) (direction : Direction)
    {input output : List Byte} (initVec : Block) (hout : output.length = input.length)
    (hpages : input.length % 16 = 0) :
    ∃ s', s'.engine = s.engine ∧ exec (cseHw (guarded P latency))
      (handleCbc direction.command input initVec output) s =
        (.done (.error .keyEmpty, output), s') := by
  have himpl := CbcLemmas.command_implemented direction
  have hheader : (cbcRequest direction.command .first
      (input.take (16 * handleCbc.availPages .first))).header =
        headerWord direction.command .copy .first (keyOf direction.command) := by
    rw [CbcLemmas.keyOf_command]
    rfl
  obtain ⟨cs, hcons⟩ := cbcRequests_cons direction.command .first input
  obtain ⟨s', hengine, hrun⟩ := run_refused latency (P := P) (s := s.prepareCbc input initVec)
    himpl hheader (refusal_of_empty hkey (usesKey_command direction)) cs
  refine ⟨s', hengine, ?_⟩
  rw [exec_handleCbc himpl initVec hout hpages, hcons, hrun]
  rfl

end Refusals

end Csec
