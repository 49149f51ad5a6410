import DaredevilSmall.Csec.Service

/-!
# The integration test

`main` of `examples/csec.rs`: every operation of the driver once, on one message,
each with the results of those before. The test has a fixed message of 160 bytes;
here it is a parameter, with the buffers of its length.

`selfTest_passes_iff`: the messages for which the test passes.
-/

namespace Csec

open Mmio Data She

/-- `Result::unwrap`. -/
def unwrap {α : Type} : Except CommandResult α → Driver α
  | .ok a => pure a
  | .error _ => .panic .unwrap

/-- The `[u8; 16]` with the given bytes. -/
def blockOf (bytes : List Byte) : Block := Vector.ofFn fun i => bytes[i]?.getD 0

/-- `main` of `examples/csec.rs`, up to the light. The clocks are configured before. -/
def selfTest (plainkey : Block) (plaintext : List Byte) : Driver Unit := do
  let enctext := List.replicate plaintext.length 0
  let dectext := List.replicate plaintext.length 0
  unwrap (← initRng)
  let rndBuf ← unwrap (← generateRnd)
  unwrap (← loadPlainkey plainkey)
  let (result, enctext) ← encryptCbc plaintext (blockOf rndBuf) enctext
  unwrap result
  let (result, dectext) ← decryptCbc enctext (blockOf rndBuf) dectext
  unwrap result
  let cmac ← unwrap (← generateMac plaintext)
  let verified ← unwrap (← verifyMac plaintext (blockOf cmac))
  assert verified "csec.verify_mac(&plaintext, &cmac).unwrap()"
  assert (plaintext == dectext) "plaintext == &dectext[..]"

variable {P : Primitives} (latency : She → Pram → Nat) {s : Cse She}

namespace SelfTestLemmas

@[simp] theorem blockOf_toList (b : Block) : blockOf b.toList = b := by
  apply Vector.ext
  intro i hi
  simp [blockOf]

/-- A call whose result is unwrapped, and succeeds. -/
theorem exec_unwrap {α : Type} {p : Driver (Except CommandResult α)} {f : α → Driver Unit}
    {a : α} {s' : Cse She}
    (h : exec (cseHw (she P latency)) p s = (.done (.ok a), s')) :
    exec (cseHw (she P latency)) (p >>= fun r => unwrap r >>= f) s =
      exec (cseHw (she P latency)) (f a) s' :=
  exec_bind_of _ h

/-- A call whose result is unwrapped, and does not succeed. -/
theorem exec_unwrap_error {α : Type} {p : Driver (Except CommandResult α)} {f : α → Driver Unit}
    {e : CommandResult}
    (h : (exec (cseHw (she P latency)) p s).1 = .done (.error e)) :
    (exec (cseHw (she P latency)) (p >>= fun r => unwrap r >>= f) s).1 = .panicked .unwrap := by
  rw [exec_bind_of _ (exec_eq_done _ h)]
  rfl

/-- The test up to the encryption. -/
theorem exec_start (hidle : s.engine.job = .idle) (plainkey : Block)
    {f : List Byte → Driver Unit} :
    ∃ s' : Cse She, s'.engine = ⟨plainkey, s.engine.drawn + 1, .idle⟩ ∧
      exec (cseHw (she P latency)) (do
        unwrap (← initRng)
        let rndBuf ← unwrap (← generateRnd)
        unwrap (← loadPlainkey plainkey)
        f rndBuf) s =
      exec (cseHw (she P latency)) (f (P.random s.engine.drawn).toList) s' := by
  obtain ⟨s₁, hengine₁, hrng⟩ := exec_initRng latency P hidle
  obtain ⟨s₂, hengine₂, hrnd⟩ := exec_generateRnd latency P (s := s₁) (by rw [hengine₁, hidle])
  obtain ⟨s₃, hengine₃, hload⟩ := exec_loadPlainkey latency P (s := s₂)
    (by rw [hengine₂, hengine₁, hidle]) plainkey
  refine ⟨s₃, ?_, ?_⟩
  · rw [hengine₃, hengine₂, hengine₁, ← hidle]
  · rw [exec_unwrap latency hrng, exec_unwrap latency hrnd, exec_unwrap latency hload, hengine₁]

/-- The test from the encryption on. -/
def rest (plaintext rndBuf : List Byte) : Driver Unit := do
  let (result, enctext) ←
    encryptCbc plaintext (blockOf rndBuf) (List.replicate plaintext.length 0)
  unwrap result
  let (result, dectext) ← decryptCbc enctext (blockOf rndBuf) (List.replicate plaintext.length 0)
  unwrap result
  let cmac ← unwrap (← generateMac plaintext)
  let verified ← unwrap (← verifyMac plaintext (blockOf cmac))
  assert verified "csec.verify_mac(&plaintext, &cmac).unwrap()"
  assert (plaintext == dectext) "plaintext == &dectext[..]"

theorem selfTest_eq (plainkey : Block) (plaintext : List Byte) :
    selfTest plainkey plaintext = (do
      unwrap (← initRng)
      let rndBuf ← unwrap (← generateRnd)
      unwrap (← loadPlainkey plainkey)
      rest plaintext rndBuf) := rfl

/-- The test from the MAC on, when the decrypted text is the plaintext. -/
theorem exec_macs (hidle : s.engine.job = .idle) {plaintext : List Byte}
    (hlen : plaintext.length ≤ u32Max) :
    (exec (cseHw (she P latency)) (do
        let cmac ← unwrap (← generateMac plaintext)
        let verified ← unwrap (← verifyMac plaintext (blockOf cmac))
        assert verified "csec.verify_mac(&plaintext, &cmac).unwrap()"
        assert (plaintext == plaintext) "plaintext == &dectext[..]") s).1 = .done () ↔
      0 < plaintext.length ∧ plaintext.length < 8192 ∧
        ¬ (81 ≤ plaintext.length % 112 ∧ plaintext.length % 112 ≤ 96) := by
  cases Nat.lt_or_ge plaintext.length 8192 with
  | inr hlong =>
    have herror := exec_generateMac_long latency (P := P) hidle hlong hlen
    rw [exec_unwrap_error latency herror]
    exact iff_of_false (by simp) fun h => absurd h.2.1 (Nat.not_lt.mpr hlong)
  | inl hshort =>
    obtain ⟨s', hengine, hmac⟩ := exec_generateMac_short latency (P := P) hidle hshort
    have hidle' : s'.engine.job = .idle := by rw [hengine, hidle]
    rw [exec_unwrap latency hmac, blockOf_toList]
    cases Nat.eq_zero_or_pos plaintext.length with
    | inl hzero =>
      have hempty : ¬ (0 < plaintext.length ∧ plaintext.length ≤ u32Max) := by
        rw [hzero]
        decide
      obtain ⟨msg, hpanic⟩ := exec_verifyMac_reject (E := she P latency) (s := s')
        (P.cmac s.engine.ramKey (bitsOf plaintext)) hempty
      rw [exec_bind, hpanic]
      exact iff_of_false (by simp) fun h => absurd h.1 (by rw [hzero]; decide)
    | inr hpos =>
      by_cases hband : 81 ≤ plaintext.length % 112 ∧ plaintext.length % 112 ≤ 96
      · have herror := exec_verifyMac_stale latency (P := P) hidle' hshort hband
          (P.cmac s.engine.ramKey (bitsOf plaintext))
        rw [exec_unwrap_error latency herror]
        exact iff_of_false (by simp) fun h => h.2.2 hband
      · have hverified := exec_verifyMac_verdict latency (P := P) hidle' hpos hshort hband
          (P.cmac s.engine.ramKey (bitsOf plaintext))
        rw [hengine, beq_self_eq_true] at hverified
        rw [exec_unwrap latency (exec_eq_done _ hverified), beq_self_eq_true]
        exact iff_of_true rfl ⟨hpos, hshort, hband⟩

end SelfTestLemmas

open SelfTestLemmas

/-- The messages of whole pages that a MAC can be generated and verified of. -/
def Testable (plaintext : List Byte) : Prop :=
  plaintext.length % 16 = 0 ∧ 0 < plaintext.length ∧ plaintext.length < 8192 ∧
    plaintext.length % 112 ≠ 96

/-- For every key and message, from an idle engine and whatever PRAM holds: the
integration test passes exactly if the message is not empty, consists of whole
pages, is shorter than 8192 bytes, and does not end on page 6 of a command. -/
theorem selfTest_passes_iff (P : Primitives) (latency : She → Pram → Nat) (s : Cse She)
    (hidle : s.engine.job = .idle) (plainkey : Block) (plaintext : List Byte) :
    (exec (cseHw (she P latency)) (selfTest plainkey plaintext) s).1 = .done () ↔
      Testable plaintext := by
  obtain ⟨s₁, hengine₁, hstart⟩ := exec_start latency (P := P) hidle plainkey
    (f := rest plaintext)
  have hidle₁ : s₁.engine.job = .idle := by rw [hengine₁]
  have hout : (List.replicate plaintext.length (0 : Byte)).length = plaintext.length :=
    List.length_replicate
  rw [selfTest_eq, hstart, rest, blockOf_toList]
  by_cases hpages : plaintext.length % 16 = 0
  case neg =>
    have hreject : (List.replicate plaintext.length (0 : Byte)).length ≠ plaintext.length ∨
        (List.replicate plaintext.length (0 : Byte)).length % 16 ≠ 0 := Or.inr (by rwa [hout])
    obtain ⟨msg, hpanic⟩ := exec_handleCbc_reject (E := she P latency) (s := s₁) .encCbc
      (P.random s.engine.drawn) hreject
    rw [exec_bind, encryptCbc, hpanic]
    exact iff_of_false (by simp) fun h => hpages h.1
  cases Nat.lt_or_ge (plaintext.length / 16) 65536 with
  | inr hlong =>
    obtain ⟨s', _, hexec⟩ := exec_handleCbc_overrun latency P .enc hidle₁
      (P.random s.engine.drawn) hpages hlong hout
    rw [exec_bind_of (p := encryptCbc _ _ _) _ hexec]
    refine iff_of_false ?_ fun h => absurd h.2.2.1 (by omega)
    intro h
    cases h
  | inl hcount =>
    obtain ⟨s₂, hengine₂, henc⟩ := exec_encryptCbc latency P hidle₁ plaintext
      (P.random s.engine.drawn) _ hpages (Nat.le_of_lt_succ hcount) hout
    have hidle₂ : s₂.engine.job = .idle := by rw [hengine₂, hidle₁]
    have hlen := encryptBytes_length (P := P) s₁.engine.ramKey (P.random s.engine.drawn) hpages
    obtain ⟨s₃, hengine₃, hdec⟩ := exec_decryptCbc latency P hidle₂
      (encryptBytes P s₁.engine.ramKey (P.random s.engine.drawn) plaintext)
      (P.random s.engine.drawn) (List.replicate plaintext.length 0) (by rw [hlen, hpages])
      (by rw [hlen]; exact Nat.le_of_lt_succ hcount) (by rw [hout, hlen])
    have hidle₃ : s₃.engine.job = .idle := by rw [hengine₃, hidle₂]
    rw [hengine₂, decryptBytes_encryptBytes _ _ hpages] at hdec
    rw [exec_bind_of _ henc]
    refine Iff.trans (iff_of_eq (congrArg (fun r => r.1 = Outcome.done ())
      (exec_bind_of (p := decryptCbc _ _ _) _ hdec))) ?_
    refine (exec_macs latency hidle₃ (by rw [u32Max]; omega)).trans ?_
    rw [Testable]
    constructor
    · rintro ⟨hpos, hshort, hband⟩
      exact ⟨hpages, hpos, hshort, by omega⟩
    · rintro ⟨_, hpos, hshort, hsix⟩
      exact ⟨hpos, hshort, by omega⟩

/-- The message of the test has ten pages. -/
theorem selfTest_passes_tenPages :
    (exec (cseHw (she .sample fun _ _ => 3)) (selfTest sampleKey (List.replicate 160 0x4b))
      (Cse.reset She.sample)).1 = .done () := by
  refine (selfTest_passes_iff .sample (fun _ _ => 3) (Cse.reset She.sample) rfl sampleKey _).mpr ?_
  rw [Testable, List.length_replicate]
  decide

end Csec
