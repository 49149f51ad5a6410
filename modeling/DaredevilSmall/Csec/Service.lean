import DaredevilSmall.Csec.Guarded
import DaredevilSmall.Mmio.Component

/-!
# The driver as a service

What the driver is for, without registers, PRAM, pages and commands: a service that may
hold a key and has a stream of random blocks. `Service.serve` is its specification. It
answers every call, also those that the driver rejects, those that come before the
generator has been seeded or a key loaded, and those that fail because a length does not
fit its field.

`service_refined` says that the driver, on the engine `guarded`, is this service: for any
sequence of calls from a reset on, whatever PRAM holds and however long the engine takes.
-/

namespace Csec

open Mmio Data She SheLemmas CbcLemmas OverrunLemmas CommandsLemmas SessionLemmas SingleLemmas
  GuardedLemmas

/-- What a call returns, with the new contents of the buffer it is given. -/
inductive Reply where
  | unit (result : Except CommandResult Unit)
  | bytes (result : Except CommandResult (List Byte))
  | verdict (result : Except CommandResult Bool)
  | buffer (result : Except CommandResult Unit) (contents : List Byte)

/-- A call of the driver. -/
def Op.reply : Op → Driver Reply
  | initRng => Csec.initRng >>= fun r => pure (.unit r)
  | generateRnd => Csec.generateRnd >>= fun r => pure (.bytes r)
  | loadPlainkey key => Csec.loadPlainkey key >>= fun r => pure (.unit r)
  | encryptCbc plaintext initVec ciphertext =>
    Csec.encryptCbc plaintext initVec ciphertext >>= fun r => pure (.buffer r.1 r.2)
  | decryptCbc ciphertext initVec plaintext =>
    Csec.decryptCbc ciphertext initVec plaintext >>= fun r => pure (.buffer r.1 r.2)
  | generateMac message => Csec.generateMac message >>= fun r => pure (.bytes r)
  | verifyMac message cmac => Csec.verifyMac message cmac >>= fun r => pure (.verdict r)

/-- The driver on an engine. -/
def driver {ε : Type} (E : Engine ε) : Component Op Reply (Cse ε) :=
  fun op => exec (cseHw E) op.reply

/-! ## The specification -/

/-- Whether the generator has been seeded, the key if one has been loaded, and how many
random blocks have been drawn. -/
structure Service where
  seeded : Bool
  ramKey : Option Block
  drawn : Nat

namespace Service

variable (P : Primitives)

/-- A CBC call. From 65536 pages on, the number of pages that the engine is told is
short, and the call fails after as many pages. -/
def cbc (direction : Direction) (ramKey : Option Block) (initVec : Block)
    (input output : List Byte) : Outcome Reply :=
  if output.length = input.length then
    if output.length % 16 = 0 then
      match ramKey with
      | none => .done (.buffer (.error .keyEmpty) output)
      | some key =>
        if input.length / 16 < 65536 then
          .done (.buffer (.ok ()) (cbcBytes P direction key initVec input))
        else
          let n := max (input.length / 16 % 65536) 1
          .done (.buffer (.error .sequenceError)
            (cutShort P direction key initVec n (input.take (carried n)) ++
              output.drop (carried n)))
    else .panicked (.assertion "output.len() % 16 == 0")
  else .panicked (.assertion "output.len() == input.len()")

/-- A MAC is computed of messages shorter than 8192 bytes. -/
def mac (ramKey : Option Block) (message : List Byte) : Outcome Reply :=
  if message.length ≤ u32Max then
    match ramKey with
    | none => .done (.bytes (.error .keyEmpty))
    | some key =>
      if message.length < 8192 then .done (.bytes (.ok (P.cmac key (bitsOf message)).toList))
      else .done (.bytes (.error .sequenceError))
  else .panicked (.assertion "message.len() <= u32::max_value() as usize")

/-- A MAC is verified of messages shorter than 8192 bytes that do not end on page 6 of
the last command. -/
def verify (ramKey : Option Block) (message : List Byte) (cmac : Block) : Outcome Reply :=
  if 0 < message.length ∧ message.length ≤ u32Max then
    match ramKey with
    | none => .done (.verdict (.error .keyEmpty))
    | some key =>
      if message.length < 8192 ∧ ¬ (81 ≤ message.length % 112 ∧ message.length % 112 ≤ 96) then
        .done (.verdict (.ok (P.cmac key (bitsOf message) == cmac)))
      else .done (.verdict (.error .sequenceError))
  else .panicked
    (.assertion "message.len() > 0 && message.len() <= u32::max_value() as usize")

/-- The service. -/
def serve : Component Op Reply Service
  | .initRng, s => (.done (.unit (.ok ())), { s with seeded := true })
  | .generateRnd, s =>
    if s.seeded then
      (.done (.bytes (.ok (P.random s.drawn).toList)), { s with drawn := s.drawn + 1 })
    else (.done (.bytes (.error .rngSeed)), s)
  | .loadPlainkey key, s => (.done (.unit (.ok ())), { s with ramKey := some key })
  | .encryptCbc input initVec output, s => (cbc P .enc s.ramKey initVec input output, s)
  | .decryptCbc input initVec output, s => (cbc P .dec s.ramKey initVec input output, s)
  | .generateMac message, s => (mac P s.ramKey message, s)
  | .verifyMac message cmac, s => (verify P s.ramKey message cmac, s)

/-- The peripheral implements the state of the service: its engine is idle, with this seed,
key and count. -/
structure Represents (t : Service) (s : Cse Guarded) : Prop where
  engine : s.engine = ⟨t.seeded, t.ramKey, t.drawn, .idle⟩

namespace Represents

variable {t : Service} {s s' : Cse Guarded}

theorem idle (h : Represents t s) : s.engine.job = .idle := by
  rw [h.engine]

theorem ramKey (h : Represents t s) : s.engine.ramKey = t.ramKey := by
  rw [h.engine]

theorem core (h : Represents t s) :
    s.engine.core = ⟨t.ramKey.getD (Vector.replicate 16 0), t.drawn, .idle⟩ := by
  rw [h.engine]
  rfl

theorem of_engine (h : Represents t s) (hengine : s'.engine = s.engine) : Represents t s' :=
  ⟨hengine.trans h.engine⟩

/-- With a key, there is an engine `she` behind the guards. -/
theorem behind (h : Represents t s) {key : Block} (hkey : t.ramKey = some key) :
    ∃ s₀ : Cse She, s = s₀.guard t.seeded ∧ s₀.engine.job = .idle ∧ s₀.engine.ramKey = key := by
  have hram := h.ramKey.trans hkey
  have hseeded : s.engine.seeded = t.seeded := by rw [h.engine]
  refine ⟨GuardedLemmas.core s, ?_, h.idle, (Guarded.eq_behind hram).2⟩
  rw [← hseeded]
  exact (guard_core hram).symm

end Represents

end Service

open Service

/-! ## The refinement -/

variable {P : Primitives} (latency : Guarded → Pram → Nat) {s : Cse Guarded} {t : Service}

namespace ServiceLemmas

/-- A call that is followed by wrapping its result. -/
theorem exec_wrap {ε α : Type} {E : Engine ε} {p : Driver α} {f : α → Reply} {a : α}
    {s s' : Cse ε} (h : exec (cseHw E) p s = (.done a, s')) :
    exec (cseHw E) (p >>= fun r => pure (f r)) s = (.done (f a), s') :=
  exec_bind_of _ h

theorem exec_wrap_panic {ε α : Type} {E : Engine ε} {p : Driver α} {f : α → Reply} {e : Panic}
    {s s' : Cse ε} (h : exec (cseHw E) p s = (.panicked e, s')) :
    exec (cseHw E) (p >>= fun r => pure (f r)) s = (.panicked e, s') := by
  rw [exec_bind, h]
  rfl

/-- Commands take no time on the engine behind the guards: no result depends on it. -/
def atOnce : She → Pram → Nat := fun _ _ => 0

/-- What a call that uses the key returns, and that it leaves the engine as it was. -/
theorem of_guard {α : Type} {p : Driver α} {f : α → Reply} {a : α} {s₀ s' : Cse She}
    {seeded : Bool} (h : Represents t (s₀.guard seeded))
    (hbehind : exec (cseHw (guarded P latency)) p (s₀.guard seeded) =
      guardOutcome seeded (exec (cseHw (she P atOnce)) p s₀))
    (hexec : exec (cseHw (she P atOnce)) p s₀ = (.done a, s')) (hengine : s'.engine = s₀.engine) :
    (exec (cseHw (guarded P latency)) (p >>= fun r => pure (f r)) (s₀.guard seeded)).1 =
        .done (f a) ∧
      Represents t
        (exec (cseHw (guarded P latency)) (p >>= fun r => pure (f r)) (s₀.guard seeded)).2 := by
  rw [hexec] at hbehind
  rw [exec_wrap hbehind]
  exact ⟨rfl, h.of_engine (congrArg (Guarded.behind seeded) hengine)⟩

theorem cbc_refined (h : Represents t s) (direction : Direction) (initVec : Block)
    (input output : List Byte) :
    (exec (cseHw (guarded P latency)) (handleCbc direction.command input initVec output >>=
        fun r => pure (Reply.buffer r.1 r.2)) s).1 =
        cbc P direction t.ramKey initVec input output ∧
      Represents t (exec (cseHw (guarded P latency)) (handleCbc direction.command input initVec
        output >>= fun r => pure (Reply.buffer r.1 r.2)) s).2 := by
  unfold Service.cbc
  split
  · next hout =>
    split
    · next hpages =>
      have hpages' : input.length % 16 = 0 := hout ▸ hpages
      cases hkey : t.ramKey with
      | none =>
        obtain ⟨s', hengine, hexec⟩ := exec_handleCbc_refused latency (P := P)
          (h.ramKey.trans hkey) direction initVec hout hpages'
        rw [exec_wrap hexec]
        exact ⟨rfl, h.of_engine hengine⟩
      | some key =>
        obtain ⟨s₀, rfl, hidle, rfl⟩ := h.behind hkey
        have hbehind := exec_handleCbc_behind latency (P := P) t.seeded atOnce s₀ direction initVec
          hout hpages'
        simp only
        split
        · next hcount =>
          obtain ⟨s', hengine, hexec⟩ := exec_handleCbc_she atOnce (P := P) direction hidle
            initVec hpages' (Nat.le_of_lt_succ hcount) hout
          exact of_guard latency h hbehind hexec hengine
        · next hcount =>
          obtain ⟨s', hengine, hexec⟩ := exec_handleCbc_overrun atOnce P direction hidle
            initVec hpages' (Nat.not_lt.mp hcount) hout
          rw [announcedPages_toNat] at hexec
          exact of_guard latency h hbehind hexec hengine
    · next hpages =>
      have hexec : exec (cseHw (guarded P latency)) (handleCbc direction.command input initVec
          output) s = (.panicked (.assertion "output.len() % 16 == 0"), s) := by
        rw [handleCbc, dif_pos hout, dif_neg hpages]
        rfl
      rw [exec_wrap_panic hexec]
      exact ⟨rfl, h⟩
  · next hout =>
    have hexec : exec (cseHw (guarded P latency)) (handleCbc direction.command input initVec output)
        s = (.panicked (.assertion "output.len() == input.len()"), s) := by
      rw [handleCbc, dif_neg hout]
      rfl
    rw [exec_wrap_panic hexec]
    exact ⟨rfl, h⟩

theorem mac_refined (h : Represents t s) (message : List Byte) :
    (exec (cseHw (guarded P latency)) (Op.generateMac message).reply s).1 =
        mac P t.ramKey message ∧
      Represents t (exec (cseHw (guarded P latency)) (Op.generateMac message).reply s).2 := by
  rw [Op.reply]
  unfold Service.mac
  split
  · next hlen =>
    cases hkey : t.ramKey with
    | none =>
      obtain ⟨s', hengine, hexec⟩ := exec_generateMac_refused latency (P := P)
        (h.ramKey.trans hkey) hlen
      rw [exec_wrap hexec]
      exact ⟨rfl, h.of_engine hengine⟩
    | some key =>
      obtain ⟨s₀, rfl, hidle, rfl⟩ := h.behind hkey
      have hbehind := exec_generateMac_behind latency (P := P) t.seeded atOnce s₀ hlen
      simp only
      split
      · next hshort =>
        obtain ⟨s', hengine, hexec⟩ := exec_generateMac_short atOnce (P := P) hidle hshort
        exact of_guard latency h hbehind hexec hengine
      · next hlong =>
        have herror := exec_generateMac_long atOnce (P := P) hidle (Nat.not_lt.mp hlong) hlen
        exact of_guard latency h hbehind (exec_eq_done _ herror)
          (exec_generateMac_idle atOnce P hidle hlen)
  · next hlen =>
    have hexec : exec (cseHw (guarded P latency)) (generateMac message) s =
        (.panicked (.assertion "message.len() <= u32::max_value() as usize"), s) := by
      rw [generateMac, assert, if_neg (by simpa using hlen)]
      rfl
    rw [exec_wrap_panic hexec]
    exact ⟨rfl, h⟩

theorem verify_refined (h : Represents t s) (message : List Byte) (cmac : Block) :
    (exec (cseHw (guarded P latency)) (Op.verifyMac message cmac).reply s).1 =
        verify P t.ramKey message cmac ∧
      Represents t (exec (cseHw (guarded P latency)) (Op.verifyMac message cmac).reply s).2 := by
  rw [Op.reply]
  unfold Service.verify
  split
  · next haccepted =>
    obtain ⟨hpos, hlen⟩ := haccepted
    cases hkey : t.ramKey with
    | none =>
      obtain ⟨s', hengine, hexec⟩ := exec_verifyMac_refused latency (P := P)
        (h.ramKey.trans hkey) hpos hlen cmac
      rw [exec_wrap hexec]
      exact ⟨rfl, h.of_engine hengine⟩
    | some key =>
      obtain ⟨s₀, rfl, hidle, rfl⟩ := h.behind hkey
      have hbehind := exec_verifyMac_behind latency (P := P) t.seeded atOnce s₀ hpos hlen cmac
      obtain ⟨hengine, hlong⟩ := exec_verifyMac_idle atOnce P hidle hpos hlen cmac
      simp only
      split
      · next hverdict =>
        obtain ⟨hshort, hband⟩ := hverdict
        have hexec := exec_verifyMac_verdict atOnce (P := P) hidle hpos hshort hband cmac
        exact of_guard latency h hbehind (exec_eq_done _ hexec) hengine
      · next hno =>
        have herror : (exec (cseHw (she P atOnce)) (verifyMac message cmac) s₀).1 =
            .done (.error .sequenceError) := by
          cases Nat.lt_or_ge message.length 8192 with
          | inl hshort =>
            have hband := not_not.mp (not_and.mp hno hshort)
            exact exec_verifyMac_stale atOnce hidle hshort hband cmac
          | inr hge => exact hlong hge
        exact of_guard latency h hbehind (exec_eq_done _ herror) hengine
  · next hreject =>
    have hexec : exec (cseHw (guarded P latency)) (verifyMac message cmac) s = (.panicked
        (.assertion "message.len() > 0 && message.len() <= u32::max_value() as usize"), s) := by
      rw [verifyMac, assert, if_neg (by simpa using hreject)]
      rfl
    rw [exec_wrap_panic hexec]
    exact ⟨rfl, h⟩

theorem initRng_refined (h : Represents t s) :
    ∃ s' : Cse Guarded, s'.engine = ⟨true, t.ramKey, t.drawn, .idle⟩ ∧
      exec (cseHw (guarded P latency)) initRng s = (.done (.ok ()), s') := by
  have hstep (p : Pram) : s.engine.core.step P .initRng .first p = some (p, s.engine.core) := by
    simp only [step, h.core]
  obtain ⟨s', hengine, hrun⟩ := run_passed latency (P := P) (c := bareRequest .initRng)
    (s := s) rfl rfl rfl (hstep _)
  refine ⟨s', ?_, ?_⟩
  · rw [hengine, h.engine]
    cases t.ramKey <;> simp [Guarded.after, Guarded.core]
  · rw [exec_initRng_finish, hrun]
    rfl

theorem generateRnd_refined (h : Represents t s) :
    if t.seeded then
      ∃ s' : Cse Guarded, s'.engine = ⟨true, t.ramKey, t.drawn + 1, .idle⟩ ∧
        exec (cseHw (guarded P latency)) generateRnd s =
          (.done (.ok (P.random t.drawn).toList), s')
    else
      ∃ s' : Cse Guarded, s'.engine = s.engine ∧
        exec (cseHw (guarded P latency)) generateRnd s = (.done (.error .rngSeed), s') := by
  rw [exec_generateRnd_finish]
  cases hseeded : t.seeded with
  | false =>
    have hrefused : s.engine.refusal .rng = some .rngSeed := by
      rw [h.engine, hseeded]
      rfl
    obtain ⟨s', hengine, hrun⟩ := run_refused latency (P := P) (c := rndRequest) (s := s) rfl rfl
      hrefused []
    rw [hrun]
    exact ⟨s', hengine, rfl⟩
  | true =>
    have hpass : s.engine.refusal .rng = none := by
      rw [h.engine, hseeded]
      rfl
    have hstep (p : Pram) : s.engine.core.step P .rng .first p =
        some (splice p page1Offset (P.random t.drawn).toList,
          { s.engine.core with drawn := t.drawn + 1 }) := by
      simp only [step, h.core]
    obtain ⟨s', hengine, hrun⟩ := run_passed latency (P := P) (c := rndRequest) (s := s) rfl rfl
      hpass (hstep _)
    refine ⟨s', ?_, ?_⟩
    · rw [hengine, h.engine, hseeded]
      cases t.ramKey <;> simp [Guarded.after, Guarded.core]
    · have hblock (p : Pram) : rndRequest.observe
          (report (splice p page1Offset (P.random t.drawn).toList) .noError) =
            (P.random t.drawn).toList := by
        change slice (report _ _) page1Offset 16 = _
        rw [slice_report _ _ (by decide)]
        exact slice_splice_page _ _ (by decide)
      rw [hrun, hblock]
      rfl

theorem loadPlainkey_refined (h : Represents t s) (key : Block) :
    ∃ s' : Cse Guarded, s'.engine = ⟨t.seeded, some key, t.drawn, .idle⟩ ∧
      exec (cseHw (guarded P latency)) (loadPlainkey key) s = (.done (.ok ()), s') := by
  have hstep : s.engine.core.step P .loadPlainKey .first ((keyRequest key).handed s.pram) =
      some ((keyRequest key).handed s.pram, { s.engine.core with ramKey := key }) := by
    simp only [step, h.core, page_keyRequest]
  obtain ⟨s', hengine, hrun⟩ := run_passed latency (P := P) (c := keyRequest key) (s := s) rfl rfl
    rfl hstep
  refine ⟨s', ?_, ?_⟩
  · rw [hengine, h.engine]
    simp [Guarded.after, Guarded.core]
  · rw [exec_loadPlainkey_finish, hrun]
    rfl

/-- Call by call, the driver is the service. -/
theorem simulates (P : Primitives) (latency : Guarded → Pram → Nat) :
    Simulates (serve P) (driver (guarded P latency)) Represents := by
  intro op t s h
  unfold driver
  cases op with
  | initRng =>
    obtain ⟨s', hengine, hexec⟩ := initRng_refined latency (P := P) h
    rw [Op.reply, exec_wrap hexec]
    exact ⟨rfl, ⟨hengine⟩⟩
  | generateRnd =>
    have hrnd := generateRnd_refined latency (P := P) h
    rw [Op.reply, serve]
    split at hrnd
    · next hseeded =>
      obtain ⟨s', hengine, hexec⟩ := hrnd
      rw [exec_wrap hexec, if_pos hseeded]
      exact ⟨rfl, ⟨by rw [hengine, hseeded]⟩⟩
    · next hseeded =>
      obtain ⟨s', hengine, hexec⟩ := hrnd
      rw [exec_wrap hexec, if_neg hseeded]
      exact ⟨rfl, h.of_engine hengine⟩
  | loadPlainkey key =>
    obtain ⟨s', hengine, hexec⟩ := loadPlainkey_refined latency (P := P) h key
    rw [Op.reply, exec_wrap hexec]
    exact ⟨rfl, ⟨hengine⟩⟩
  | encryptCbc input initVec output => exact cbc_refined latency h .enc initVec input output
  | decryptCbc input initVec output => exact cbc_refined latency h .dec initVec input output
  | generateMac message => exact mac_refined latency h message
  | verifyMac message cmac => exact verify_refined latency h message cmac

end ServiceLemmas

/-- For any sequence of calls, accepted or not, from an idle engine, seeded or not, with a
key or without, whatever PRAM holds and however long each command takes: the driver
answers as the service does, up to and including the first panic, and the engine is idle
at the end, with the seed, the key and the number of random blocks of the service. -/
theorem service_refined (P : Primitives) (latency : Guarded → Pram → Nat) (s : Cse Guarded)
    (hidle : s.engine.job = .idle) (ops : List Op) :
    let run := Component.run (driver (guarded P latency)) ops s
    let service := Component.run (serve P) ops
      ⟨s.engine.seeded, s.engine.ramKey, s.engine.drawn⟩
    run.1 = service.1 ∧
      run.2.engine = ⟨service.2.seeded, service.2.ramKey, service.2.drawn, .idle⟩ := by
  have hrepresents :
      Represents ⟨s.engine.seeded, s.engine.ramKey, s.engine.drawn⟩ s := ⟨by rw [← hidle]⟩
  obtain ⟨hreplies, hstate⟩ := (ServiceLemmas.simulates P latency).run ops hrepresents
  exact ⟨hreplies, hstate.engine⟩

/-- From a reset on: neither random bytes nor a MAC before there is a seed and a key. A MAC
that is too long, then one that is not: no failure leaves anything behind. -/
theorem service_refined_recovers :
    (Component.run (driver (guarded .sample fun _ _ => 3))
      [.generateRnd, .generateMac samplePlain.toList, .initRng, .loadPlainkey sampleKey,
        .generateRnd, .generateMac (List.replicate 8192 0), .generateMac samplePlain.toList]
      (Cse.reset Guarded.reset)).1 =
      [.done (.bytes (.error .rngSeed)), .done (.bytes (.error .keyEmpty)),
        .done (.unit (.ok ())), .done (.unit (.ok ())),
        .done (.bytes (.ok (List.replicate 16 0))), .done (.bytes (.error .sequenceError)),
        .done (.bytes (.ok sampleCmac.toList))] := by
  have hlong : (List.replicate 8192 (0 : Byte)).length = 8192 := List.length_replicate
  have hrefined := service_refined .sample (fun _ _ => 3) (Cse.reset Guarded.reset) rfl
    [.generateRnd, .generateMac samplePlain.toList, .initRng, .loadPlainkey sampleKey,
      .generateRnd, .generateMac (List.replicate 8192 0), .generateMac samplePlain.toList]
  rw [hrefined.1]
  simp only [Component.run, serve, Service.mac, hlong]
  rfl

end Csec
