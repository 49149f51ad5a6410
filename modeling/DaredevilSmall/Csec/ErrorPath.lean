import DaredevilSmall.Csec.Commands
import DaredevilSmall.Csec.Discipline
import DaredevilSmall.Csec.Transcript

/-!
# The error path

What the driver makes of the half-words the engine leaves at the error offset,
whatever they are. `Engine.reporting` is any engine with these half-words put
under a script, so that a statement about every script is one about every
sequence of values the driver may find.

1. `Op.exec_result`: every operation is a session, and its result is how the
   session ends.
2. `Log.ends`: how a session ends is decided by the first value that is not
   `NoError`.
3. `errorPath_iff`: a call returns exactly when that value, if there is one, is the
   code of a result. The port panics on every other value, where the reference driver
   reports a general error.
-/

namespace Csec

open Mmio Data SessionLemmas TranscriptLemmas CommandsLemmas

variable {ε β γ : Type}

/-! ## The operations as sessions -/

namespace Op

/-- A call of the operation, for the `Result` it returns. -/
def result : Op → Driver (Except CommandResult Unit)
  | initRng => Csec.initRng
  | generateRnd => Csec.generateRnd >>= fun r => pure (r.map fun _ => ())
  | loadPlainkey key => Csec.loadPlainkey key
  | encryptCbc plaintext initVec ciphertext =>
    Csec.encryptCbc plaintext initVec ciphertext >>= fun r => pure r.1
  | decryptCbc ciphertext initVec plaintext =>
    Csec.decryptCbc ciphertext initVec plaintext >>= fun r => pure r.1
  | generateMac message => Csec.generateMac message >>= fun r => pure (r.map fun _ => ())
  | verifyMac message cmac => Csec.verifyMac message cmac >>= fun r => pure (r.map fun _ => ())

/-- The commands for `len` bytes, when the last or the first of them has room for
`room` bytes and every other one for 112. -/
def commandsFor (room len : Nat) : Nat := 1 + (len - room + 111) / 112

/-- How many commands a call issues when none of them reports an error. -/
def commands : Op → Nat
  | initRng => 1
  | generateRnd => 1
  | loadPlainkey _ => 1
  | encryptCbc input _ _ => commandsFor 96 input.length
  | decryptCbc input _ _ => commandsFor 96 input.length
  | generateMac message => commandsFor 112 message.length
  | verifyMac message _ => commandsFor 80 message.length

end Op

namespace ErrorPathLemmas

theorem length_cbcRequests (command : Command) (input : List Byte) :
    (cbcRequests command .first input).length = Op.commandsFor 96 input.length := by
  unfold cbcRequests
  rw [List.length_map, sequenced_length]
  exact pieces_length (by decide) (by decide)

theorem length_macRequests (message : List Byte) :
    (macRequests .first message).length = Op.commandsFor 112 message.length := by
  unfold macRequests
  rw [List.length_map, sequenced_length]
  exact pieces_length (by decide) (by decide)

theorem length_verifyRequests (cmac message : List Byte) :
    (verifyRequests cmac .first message).length = Op.commandsFor 80 message.length := by
  unfold verifyRequests
  rw [List.length_map, sequenced_length]
  induction message using verifyChunks.induct with
  | case1 message ih =>
    unfold Op.commandsFor at ih ⊢
    cases Nat.lt_or_ge 80 message.length with
    | inl hlt =>
      rw [verifyChunks_of_lt hlt, List.length_cons, ih hlt, List.length_drop, maxBytes]
      omega
    | inr hle =>
      rw [verifyChunks_of_le hle, List.length_singleton]
      omega

variable {E : Engine ε} {s : Cse ε}

/-- A session of one command. -/
theorem run_singleton (c : Request β) :
    (Session.run E [c] s).ending = reported (status (s.serve E c).pram) ∧
      (Session.run E [c] s).state = s.serve E c := by
  rw [run_cons]
  cases reported (status (s.serve E c).pram) with
  | done result => cases result <;> exact ⟨rfl, rfl⟩
  | panicked p => exact ⟨rfl, rfl⟩
  | hung => exact ⟨rfl, rfl⟩

/-- A call whose result is how its session ends. -/
def IsSession (E : Engine ε) (s : Cse ε) (p : Driver (Except CommandResult Unit)) (n : Nat) :
    Prop :=
  ∃ (β : Type) (cs : List (Request β)) (s₁ : Cse ε), s₁.engine = s.engine ∧
    s₁.issued = s.issued ∧ cs.length = n ∧
    exec (cseHw E) p s = ((Session.run E cs s₁).ending, (Session.run E cs s₁).state)

/-- A single command. -/
theorem isSession_header {c : Request Unit} {cmd : Command} {key : KeyID}
    (himpl : cmd.implemented = true) (hheader : c.header = headerWord cmd .copy .first key)
    {p : Driver (Except CommandResult Unit)}
    (h : exec (cseHw E) p s = exec (cseHw E) (writeCommandHeader cmd .copy .first key)
      (s.store c.words (c.prepare s.pram))) : IsSession E s p 1 := by
  obtain ⟨hending, hstate⟩ := run_singleton (E := E) (s := s) c
  refine ⟨Unit, [c], s, rfl, rfl, rfl, ?_⟩
  rw [h, exec_header himpl hheader, hending, hstate]

/-- `generate_rnd` reads the random bytes only if its command has succeeded. -/
theorem isSession_generateRnd :
    IsSession E s (generateRnd >>= fun r => pure (r.map fun _ => ())) 1 := by
  obtain ⟨hending, hstate⟩ := run_singleton (E := E) (s := s) (bareRequest .rng)
  have hheader : exec (cseHw E) (writeCommandHeader .rng .copy .first .secretKey) s =
      (reported (status (s.serve E (bareRequest .rng)).pram), s.serve E (bareRequest .rng)) :=
    (congrArg (exec _ _) s.store_nil).symm.trans (exec_header (c := bareRequest .rng) rfl rfl)
  refine ⟨Unit, [bareRequest .rng], s, rfl, rfl, rfl, ?_⟩
  unfold generateRnd
  rw [exec_bind, exec_bind, hheader, hending, hstate]
  cases reported (status (s.serve E (bareRequest .rng)).pram) with
  | done result =>
    cases result with
    | error e => rfl
    | ok u =>
      simp only [andThen_done]
      rw [exec_bind_of _ (exec_readCommandBytes (by decide) (by decide))]
      rfl
  | panicked p => rfl
  | hung => rfl

theorem andThen_finish (r : Session.Result ε β) (value : List β → γ) :
    andThen (Session.finish r value)
        (fun a s' => exec (cseHw E) (pure (a.map fun _ => ()) : Driver (Except _ Unit)) s') =
      (r.ending, r.state) := by
  cases hr : r.ending with
  | done result => cases result <;> simp only [Session.finish, hr] <;> rfl
  | panicked p => simp only [Session.finish, hr, andThen_panicked]
  | hung => simp only [Session.finish, hr, andThen]

theorem andThen_finishCbc (r : Session.Result ε (List Byte)) (output : List Byte) :
    andThen (Session.finishCbc r output)
        (fun a s' => exec (cseHw E) (pure a.1 : Driver (Except _ Unit)) s') =
      (r.ending, r.state) := by
  cases hr : r.ending with
  | done result =>
    simp only [Session.finishCbc, hr]
    rfl
  | panicked p => simp only [Session.finishCbc, hr, andThen_panicked]
  | hung => simp only [Session.finishCbc, hr, andThen]

/-- A CBC call. -/
theorem isSession_handleCbc {command : Command} (himpl : command.implemented = true)
    {input output : List Byte} (initVec : Vector Byte 16)
    (h : output.length = input.length ∧ output.length % 16 = 0) :
    IsSession E s (handleCbc command input initVec output >>= fun r => pure r.1)
      (Op.commandsFor 96 input.length) := by
  refine ⟨_, cbcRequests command .first input, s.prepareCbc input initVec, rfl, rfl,
    length_cbcRequests command input, ?_⟩
  rw [exec_bind, exec_handleCbc himpl initVec h.1 (h.1 ▸ h.2)]
  exact andThen_finishCbc _ output

end ErrorPathLemmas

open ErrorPathLemmas

variable {E : Engine ε} {s : Cse ε}

/-- Every operation is a session, and its result is how the session ends. -/
theorem Op.exec_result {op : Op} (h : op.Accepted) : IsSession E s op.result op.commands := by
  cases op with
  | initRng =>
    refine isSession_header (c := bareRequest .initRng) rfl rfl ?_
    exact (congrArg (exec _ _) s.store_nil).symm
  | generateRnd => exact isSession_generateRnd
  | loadPlainkey key =>
    refine isSession_header (c := keyRequest key) rfl rfl ?_
    exact exec_bind_of _ (exec_write (c := keyRequest key) rfl (by decide) (by decide)
      (key_fits key))
  | encryptCbc input initVec output => exact isSession_handleCbc rfl initVec h
  | decryptCbc input initVec output => exact isSession_handleCbc rfl initVec h
  | generateMac message =>
    refine ⟨_, macRequests .first message, s.prepareGenerateMac message, rfl, rfl,
      length_macRequests message, ?_⟩
    rw [Op.result, exec_bind, exec_generateMac h]
    exact andThen_finish _ _
  | verifyMac message cmac =>
    refine ⟨_, verifyRequests cmac.toList .first message, s.prepareVerifyMac message, rfl, rfl,
      length_verifyRequests cmac.toList message, ?_⟩
    rw [Op.result, exec_bind, exec_verifyMac h.1 h.2]
    exact andThen_finish _ _

/-! ## Which values end a session -/

/-- Every value up to number `n` is `NoError`. -/
def NoErrorBelow (values : Nat → Halfword) (n : Nat) : Prop :=
  ∀ j < n, values j = CommandResult.noError.code

/-- Either all values of a session are `NoError` and it is completed, or it ends
with the first value that is not. -/
theorem Log.ends {cs : List (Request β)} {before : List (Fin 32)} {new : List Issued}
    {ending : Outcome (Except CommandResult Unit)} {observed : List β} {values : Nat → Halfword}
    (h : Log cs before new ending observed)
    (hvalues : ∀ j (hj : j < new.length), status new[j].reply = values j) :
    (NoErrorBelow values cs.length ∧ new.length = cs.length ∧ ending = .done (.ok ())) ∨
      ∃ j < cs.length, NoErrorBelow values j ∧ values j ≠ CommandResult.noError.code ∧
        new.length = j + 1 ∧ ending = reported (values j) := by
  induction h generalizing values with
  | nil => exact Or.inl ⟨fun j hj => absurd hj (Nat.not_lt_zero j), rfl, rfl⟩
  | @ok c cs before i new ending observed _ hok _ ih =>
    have hfirst : values 0 = CommandResult.noError.code := by
      rw [← hvalues 0 (Nat.succ_pos _)]
      exact reported_ok_iff.mp hok
    have hbelow {n : Nat} (hn : NoErrorBelow (fun j => values (j + 1)) n) :
        NoErrorBelow values (n + 1) := by
      intro j hj
      cases j with
      | zero => exact hfirst
      | succ j => exact hn j (Nat.lt_of_succ_lt_succ hj)
    have hrest (j : Nat) (hj : j < new.length) : status new[j].reply = values (j + 1) :=
      hvalues (j + 1) (Nat.succ_lt_succ hj)
    rcases ih hrest with ⟨hall, hlen, hend⟩ | ⟨j, hj, hn, hne, hlen, hend⟩
    · exact Or.inl ⟨hbelow hall, congrArg (· + 1) hlen, hend⟩
    · exact Or.inr ⟨j + 1, Nat.succ_lt_succ hj, hbelow hn, hne, congrArg (· + 1) hlen, hend⟩
  | @stop c cs before i _ hne =>
    have hvalue : status i.reply = values 0 := hvalues 0 (Nat.succ_pos _)
    rw [hvalue] at hne ⊢
    refine Or.inr ⟨0, Nat.succ_pos _, fun j hj => absurd hj (Nat.not_lt_zero j), ?_, rfl, rfl⟩
    exact fun heq => hne (reported_ok_iff.mpr heq)

/-- The engine `E` with `values n` in the error half-word after command `n`. -/
def Engine.reporting (E : Engine ε) (values : Nat → Halfword) : Engine (Nat × ε) where
  run e p :=
    (splice (E.run e.2 p).1 errorBitsOffset [hi (values e.1), lo (values e.1)], e.1 + 1,
      (E.run e.2 p).2)
  latency e p := E.latency e.2 p

theorem status_reporting (E : Engine ε) (values : Nat → Halfword) (e : Nat × ε) (p : Pram) :
    status ((E.reporting values).run e p).1 = values e.1 :=
  halfwordAt_splice_self (E.run e.2 p).1 (values e.1) (by decide)

/-- The peripheral before the first command of a call, with the engine `reporting`
in place of its own. -/
def Cse.counted (s : Cse ε) : Cse (Nat × ε) := ⟨s.pram, (0, s.engine), s.running, [], []⟩

/-- The call has returned: with `Ok` exactly when every value found after its
commands was `NoError`, and no command followed one with another value. -/
def Returns (values : Nat → Halfword) (r : Outcome (Except CommandResult Unit) × Cse ε) : Prop :=
  ∃ result, r.1 = .done result ∧
    (result = .ok () ↔ NoErrorBelow values r.2.issued.length) ∧
    ∀ j < r.2.issued.length, values j ≠ CommandResult.noError.code → j + 1 = r.2.issued.length

namespace ErrorPathLemmas

/-- A value that is no code ends in the panic. -/
theorem reported_of_unknown {v : Halfword} (h : ¬ ∃ r : CommandResult, v = r.code) :
    reported v = .panicked (CommandResult.unknown v) := by
  unfold reported
  cases hresult : CommandResult.fromU16 v with
  | none => rfl
  | some r => exact absurd ⟨r, CommandResult.code_of_fromU16 hresult⟩ h

theorem eq_of_first {values : Nat → Halfword} {j k : Nat} (hj : NoErrorBelow values j)
    (hk : NoErrorBelow values k) (hnj : values j ≠ CommandResult.noError.code)
    (hnk : values k ≠ CommandResult.noError.code) : j = k := by
  rcases Nat.lt_trichotomy j k with hlt | heq | hgt
  · exact absurd (hk j hlt) hnj
  · exact heq
  · exact absurd (hj k hgt) hnk

/-- A call that the value `values j` ends returns as it should if this value is a code, and
panics otherwise. -/
theorem returns_iff_of_first {values : Nat → Halfword}
    {r : Outcome (Except CommandResult Unit) × Cse ε} {j : Nat} (hbelow : NoErrorBelow values j)
    (hne : values j ≠ CommandResult.noError.code) (hlen : r.2.issued.length = j + 1)
    (hend : r.1 = reported (values j)) :
    Returns values r ↔ ∃ e : CommandResult, values j = e.code := by
  constructor
  · rintro ⟨result, hresult, _⟩
    by_contra hunknown
    rw [hend, reported_of_unknown hunknown] at hresult
    cases hresult
  · rintro ⟨e, hcode⟩
    have herror : e ≠ .noError := by
      rintro rfl
      exact hne hcode
    refine ⟨.error e, hend.trans (hcode ▸ reported_error herror), ?_, fun k hk hkne => ?_⟩
    · refine iff_of_false ?_ fun hall => hne (hall j (hlen ▸ Nat.lt_succ_self j))
      intro h
      cases h
    · cases Nat.lt_or_ge k j with
      | inl hlt => exact absurd (hbelow k hlt) hkne
      | inr hge =>
        rw [hlen] at hk ⊢
        rw [Nat.le_antisymm (Nat.le_of_lt_succ hk) hge]

end ErrorPathLemmas

/-- Whatever the engine does and whatever it reports, a call that is accepted
returns as it should exactly when the first value that is not `NoError`, if any of
its commands is to find one, is one of the twelve codes. -/
theorem errorPath_iff (E : Engine ε) (values : Nat → Halfword) (op : Op) (h : op.Accepted)
    (s : Cse ε) :
    Returns values (exec (cseHw (E.reporting values)) op.result s.counted) ↔
      ∀ j < op.commands, NoErrorBelow values j → ∃ r : CommandResult, values j = r.code := by
  obtain ⟨β, cs, s₁, hengine, hissued, hcount, hexec⟩ :=
    Op.exec_result (E := E.reporting values) (s := s.counted) h
  have hlog := log_of_monitored (E := E.reporting values) cs hissued
  have hcount₀ : s₁.engine.1 = 0 := congrArg Prod.fst hengine
  have hends := hlog.ends fun j hj => counted_replies Prod.fst values
    (status_reporting E values) (fun _ _ => rfl) cs hcount₀ hissued hj
  rw [hexec, ← hcount]
  rcases hends with ⟨hall, hlen, hend⟩ | ⟨j, hj, hbelow, hne, hlen, hend⟩
  · refine iff_of_true ⟨_, hend, ?_, fun j hj hne => ?_⟩ fun j hj _ => ?_
    · exact iff_of_true rfl (hlen ▸ hall)
    · exact absurd (hall j (hlen ▸ hj)) hne
    · exact ⟨.noError, hall j hj⟩
  · rw [returns_iff_of_first hbelow hne hlen hend]
    constructor
    · intro hknown k hk hkbelow
      by_cases hk : values k = CommandResult.noError.code
      · exact ⟨.noError, hk⟩
      · obtain rfl := eq_of_first hbelow hkbelow hne hk
        exact hknown
    · intro hknown
      exact hknown j hj hbelow

/-- An engine that leaves PRAM as it finds it. -/
def Engine.inert : Engine Unit := ⟨fun e p => (p, e), fun _ _ => 0⟩

/-- The second of two commands reports that the key is not available. -/
theorem errorPath_iff_second :
    Returns (fun n => if n = 1 then 0x4 else 0x1)
      (exec (cseHw (Engine.inert.reporting fun n => if n = 1 then 0x4 else 0x1))
        (Op.generateMac (List.replicate 200 7)).result (Cse.reset ()).counted) := by
  have haccepted : (Op.generateMac (List.replicate 200 7)).Accepted := by
    rw [Op.Accepted, List.length_replicate]
    decide
  refine (errorPath_iff Engine.inert (fun n => if n = 1 then 0x4 else 0x1)
    (Op.generateMac (List.replicate 200 7)) haccepted (Cse.reset ())).mpr fun j _ _ => ?_
  by_cases hj : j = 1
  · exact ⟨.keyNotAvailable, if_pos hj⟩
  · exact ⟨.noError, if_neg hj⟩

/-- Two error bits at once: `init_rng` panics. -/
theorem errorPath_panics :
    Op.initRng.Accepted ∧ ¬ Returns (fun _ => 0x6)
      (exec (cseHw (Engine.inert.reporting fun _ => 0x6)) Op.initRng.result
        (Cse.reset ()).counted) := by
  refine ⟨trivial, ?_⟩
  rintro ⟨result, hresult, _⟩
  have hpanic : (exec (cseHw (Engine.inert.reporting fun _ => 0x6)) Op.initRng.result
      (Cse.reset ()).counted).1 = .panicked (CommandResult.unknown 0x6) := by
    decide
  rw [hpanic] at hresult
  cases hresult

end Csec
