import DaredevilSmall.Csec.Access
import DaredevilSmall.Mmio.Monitor

/-!
# The PRAM access discipline

The accessors of the driver take free offsets and check nothing. That they stay
inside PRAM, that only `write_command_header` writes the word that starts a
command, and that PRAM is left alone while a command runs, rests on the callers.

`pramMonitor` states the rules as an automaton. Every driver function obeys it
whatever the registers read as, so the statements here need no model of the
engine. `pram_discipline` reads the rules off for every public operation.
-/

namespace Csec

open Mmio

variable {σ α β : Type}

/-! ## The rules -/

/-- The PRAM words a driver function may write. -/
def Site.mayWrite : Site → Fin 32 → Bool
  | .writeCommandHeader, n => n == 0
  | .writeCommandHalfword, n => n == 2 || n == 3
  | .writeCommandByte, n => 4 ≤ n
  | .writeCommandBytes, n => 4 ≤ n
  | .readCommandHalfword, _ => false
  | .readCommandByte, _ => false
  | .readCommandBytes, _ => false

/-- The monitor state says whether a command has been started whose end has not
been observed. Until then only `FSTAT` is accessed. -/
def pramMonitor : Monitor CseReg Site Bool
  | true, .read _ .fstat v => some (ccifIsClear v)
  | true, _ => none
  | false, .read _ (.ram _) _ => some false
  | false, .write site (.ram n) _ => if site.mayWrite n then some (n == 0) else none
  | false, _ => none

/-- A write to word 0, which starts a command. -/
def startsCommand : Event CseReg Site → Bool
  | .write _ (.ram n) _ => n == 0
  | _ => false

/-- A read of `FSTAT` that finds `CCIF` set. -/
def observesCcif : Event CseReg Site → Bool
  | .read _ .fstat v => !ccifIsClear v
  | _ => false

/-- An access to PRAM. -/
def accessesPram : Event CseReg Site → Bool
  | .read _ (.ram _) _ => true
  | .write _ (.ram _) _ => true
  | _ => false

/-- The rules, read off an access log: who writes which word, and that PRAM is
not accessed between the write of a header and the first observation of `CCIF`
set. -/
structure Disciplined (t : List (Event CseReg Site)) : Prop where
  header : ∀ site r v, .write site r v ∈ t → (r = .ram 0 ↔ site = .writeCommandHeader)
  parameters : ∀ r v, .write .writeCommandHalfword r v ∈ t → r = .ram 2 ∨ r = .ram 3
  bytes : ∀ site r v, .write site r v ∈ t → site = .writeCommandBytes ∨ site = .writeCommandByte →
    ∃ n : Fin 32, 4 ≤ n ∧ r = .ram n
  waits : ∀ before e between e' after, t = before ++ e :: (between ++ e' :: after) →
    startsCommand e = true → accessesPram e' = true → ∃ o ∈ between, observesCcif o = true

namespace DisciplineLemmas

theorem mayWrite_of_step {q q' : Bool} {site : Site} {r : CseReg} {v : Word}
    (h : pramMonitor q (.write site r v) = some q') : ∃ n, r = .ram n ∧ site.mayWrite n = true := by
  cases q with
  | true => cases r <;> simp [pramMonitor] at h
  | false =>
    cases r with
    | fstat => simp [pramMonitor] at h
    | ram n =>
      simp only [pramMonitor] at h
      split at h
      · next hmay => exact ⟨n, rfl, hmay⟩
      · exact absurd h (by simp)

theorem start_of_step {q q' : Bool} {e : Event CseReg Site} (h : pramMonitor q e = some q')
    (hstart : startsCommand e = true) : q' = true := by
  cases e with
  | read site r v => exact absurd hstart (by simp [startsCommand])
  | write site r v =>
    obtain ⟨n, rfl, hmay⟩ := mayWrite_of_step h
    cases q with
    | true => exact absurd h (by simp [pramMonitor])
    | false =>
      rw [pramMonitor, if_pos hmay] at h
      exact (Option.some.inj h).symm.trans hstart

/-- While nothing is observed, the command stays unobserved. -/
theorem run_unobserved {es : List (Event CseReg Site)} {q' : Bool}
    (h : pramMonitor.run true es = some q') (hnone : ∀ o ∈ es, observesCcif o = false) :
    q' = true := by
  induction es with
  | nil => exact (Option.some.inj h).symm
  | cons e es ih =>
    obtain ⟨q₁, he, hes⟩ := Option.bind_eq_some_iff.mp h
    have hquiet := hnone e List.mem_cons_self
    unfold pramMonitor at he
    split at he
    · obtain rfl := Option.some.inj he
      rw [observesCcif, Bool.not_eq_false'] at hquiet
      rw [hquiet] at hes
      exact ih hes fun o ho => hnone o (List.mem_cons_of_mem _ ho)
    all_goals simp_all

theorem pram_blocked {e : Event CseReg Site} (h : accessesPram e = true) :
    pramMonitor true e = none := by
  unfold accessesPram at h
  split at h
  · rfl
  · rfl
  · exact absurd h (by simp)

/-- Every accepted log is disciplined. -/
theorem disciplined_of_run {q' : Bool} {t : List (Event CseReg Site)}
    (h : pramMonitor.run false t = some q') : Disciplined t := by
  refine ⟨fun site r v he => ?_, fun r v he => ?_, fun site r v he hsite => ?_, ?_⟩
  · obtain ⟨_, _, hstep⟩ := Monitor.step_of_mem h he
    obtain ⟨n, rfl, hmay⟩ := mayWrite_of_step hstep
    constructor
    · intro hr
      obtain rfl := CseReg.ram.inj hr
      cases site <;> simp [Site.mayWrite] at hmay ⊢
    · rintro rfl
      exact congrArg CseReg.ram (eq_of_beq hmay)
  · obtain ⟨_, _, hstep⟩ := Monitor.step_of_mem h he
    obtain ⟨n, rfl, hmay⟩ := mayWrite_of_step hstep
    simpa [Site.mayWrite] using hmay
  · obtain ⟨_, _, hstep⟩ := Monitor.step_of_mem h he
    obtain ⟨n, rfl, hmay⟩ := mayWrite_of_step hstep
    rcases hsite with rfl | rfl
    · exact ⟨n, of_decide_eq_true hmay, rfl⟩
    · exact ⟨n, of_decide_eq_true hmay, rfl⟩
  · intro before e between e' after ht hstart hpram
    by_contra hnone
    have hquiet : ∀ o ∈ between, observesCcif o = false := fun o ho =>
      Bool.eq_false_iff.mpr fun hset => hnone ⟨o, ho, hset⟩
    rw [ht, Monitor.run_append] at h
    obtain ⟨q₀, _, h⟩ := Option.bind_eq_some_iff.mp h
    obtain ⟨q₁, he, h⟩ := Option.bind_eq_some_iff.mp h
    obtain rfl := start_of_step he hstart
    rw [Monitor.run_append] at h
    obtain ⟨q₂, hbetween, h⟩ := Option.bind_eq_some_iff.mp h
    obtain rfl := run_unobserved hbetween hquiet
    obtain ⟨q₃, he', _⟩ := Option.bind_eq_some_iff.mp h
    rw [pram_blocked hpram] at he'
    exact absurd he' (by simp)

theorem count_of_step {q q' : Bool} {e : Event CseReg Site} (h : pramMonitor q e = some q') :
    (startsCommand e).toNat + q.toNat = (observesCcif e).toNat + q'.toNat := by
  unfold pramMonitor at h
  split at h
  · obtain rfl := Option.some.inj h
    simp only [startsCommand, observesCcif]
    cases ccifIsClear _ <;> rfl
  · exact absurd h (by simp)
  · obtain rfl := Option.some.inj h
    rfl
  · split at h
    · obtain rfl := Option.some.inj h
      exact Nat.add_comm _ _
    · exact absurd h (by simp)
  · exact absurd h (by simp)

/-- Starts and observed ends alternate. -/
theorem count_of_run {q q' : Bool} {t : List (Event CseReg Site)}
    (h : pramMonitor.run q t = some q') :
    t.countP startsCommand + q.toNat = t.countP observesCcif + q'.toNat := by
  induction t generalizing q with
  | nil =>
    obtain rfl := Option.some.inj h
    rfl
  | cons e es ih =>
    obtain ⟨q₁, he, hes⟩ := Option.bind_eq_some_iff.mp h
    have hstep := count_of_step he
    have hrest := ih hes
    have hcount (b : Bool) : (if b = true then 1 else 0) = b.toNat := by cases b <;> rfl
    rw [List.countP_cons, List.countP_cons, hcount, hcount]
    omega

end DisciplineLemmas

open DisciplineLemmas

/-! ## The accessors -/

/-- The panic of `from_u16` on a half-word that is no result code, with no
command unobserved. -/
def unknownResult (p : Panic) (q : Bool) : Prop :=
  q = false ∧ ∃ v, p = CommandResult.unknown v

/-- The program follows the rules from one observed command to another. -/
def Quiet (p : Driver α) : Prop :=
  p.Obeys pramMonitor unknownResult (fun _ q => q = false) false

namespace Quiet

theorem pure (a : α) : Quiet (Pure.pure a) := rfl

theorem bind {p : Driver α} {f : α → Driver β} (hp : Quiet p) (hf : ∀ a, Quiet (f a)) :
    Quiet (p >>= f) :=
  Prog.Obeys.seq hp fun a q hq => by
    subst hq
    exact hf a

theorem readPram (site : Site) {n : Nat} (hn : n < 32) : Quiet (Csec.readPram site n) := by
  rw [Csec.readPram, dif_pos hn]
  exact fun v => ⟨false, rfl, rfl⟩

theorem writePram {site : Site} {n : Nat} (hn : n < 32) (hmay : site.mayWrite ⟨n, hn⟩ = true)
    (hpos : 0 < n) (buf : Vector Byte 4) : Quiet (Csec.writePram site n buf) := by
  have hne : ((⟨n, hn⟩ : Fin 32) == 0) = false := by
    rw [beq_eq_false_iff_ne]
    exact fun h => absurd (Fin.mk.inj h) (Nat.ne_of_gt hpos)
  rw [Csec.writePram, dif_pos hn]
  exact ⟨false, by rw [pramMonitor, if_pos hmay, hne], rfl⟩

theorem checkSlice {n len : Nat} (h : n ≤ len) : Quiet (Mmio.checkSlice n len) := by
  rw [Mmio.checkSlice, if_pos h]
  exact rfl

theorem assert {c : Bool} (h : c = true) (msg : String) : Quiet (Mmio.assert c msg) := by
  rw [Mmio.assert, if_pos h]
  exact rfl

end Quiet

namespace DisciplineLemmas

theorem word_lt {offset : Nat} (h : offset < 128) : offset >>> 2 < 32 := by
  rw [Nat.shiftRight_eq_div_pow]
  exact Nat.div_lt_of_lt_mul h

theorem four_le_word {offset : Nat} (h : 16 ≤ offset) : 4 ≤ offset >>> 2 := by
  rw [Nat.shiftRight_eq_div_pow]
  exact (Nat.le_div_iff_mul_le (by decide)).mpr h

theorem lane_cases (offset : Nat) :
    offset &&& 3 = 0 ∨ offset &&& 3 = 1 ∨ offset &&& 3 = 2 ∨ offset &&& 3 = 3 := by
  have hmod : offset &&& 3 = offset % 4 := Nat.and_two_pow_sub_one_eq_mod offset 2
  omega

end DisciplineLemmas

theorem quiet_readCommandHalfword {offset : Nat} (h : offset < 128) :
    Quiet (readCommandHalfword offset) := by
  refine Quiet.bind (Quiet.readPram _ (word_lt h)) fun page => ?_
  split
  · exact Quiet.pure _
  · exact Quiet.pure _

/-- Parameters go to words 2 and 3. -/
theorem quiet_writeCommandHalfword {offset : Nat} (hlo : 8 ≤ offset) (hhi : offset < 16)
    (v : Halfword) : Quiet (writeCommandHalfword offset v) := by
  have hword : offset >>> 2 = 2 ∨ offset >>> 2 = 3 := by
    rw [Nat.shiftRight_eq_div_pow]
    omega
  have hn : offset >>> 2 < 32 := by omega
  refine Quiet.bind (Quiet.readPram _ hn) fun page => Quiet.writePram hn ?_ (by omega) _
  rcases hword with h | h
  · simp [Site.mayWrite, h]
  · simp [Site.mayWrite, h]

theorem quiet_writeCommandWords {offset : Nat} (hlo : 8 ≤ offset) (hhi : offset + 2 < 16)
    (words : List Word) : Quiet (writeCommandWords offset words) := by
  induction words with
  | nil => exact Quiet.pure ()
  | cons w ws ih =>
    exact Quiet.bind (quiet_writeCommandHalfword hlo (Nat.lt_of_add_right_lt hhi) _) fun _ =>
      Quiet.bind (quiet_writeCommandHalfword (Nat.le_add_right_of_le hlo) hhi _) fun _ => ih

theorem quiet_readCommandByte {offset : Nat} (h : offset < 128) :
    Quiet (readCommandByte offset) := by
  refine Quiet.bind (Quiet.readPram _ (word_lt h)) fun page => ?_
  rcases lane_cases offset with hk | hk | hk | hk
  all_goals
    simp only [hk]
    exact Quiet.pure _

/-- Message bytes go behind page 0. -/
theorem quiet_writeCommandByte {offset : Nat} (hlo : 16 ≤ offset) (hhi : offset < 128) (b : Byte) :
    Quiet (writeCommandByte offset b) := by
  have hmay : Site.writeCommandByte.mayWrite ⟨offset >>> 2, word_lt hhi⟩ = true :=
    decide_eq_true (four_le_word hlo)
  have hpos : 0 < offset >>> 2 := Nat.lt_of_lt_of_le (by decide) (four_le_word hlo)
  refine Quiet.bind (Quiet.readPram _ (word_lt hhi)) fun page => ?_
  rcases lane_cases offset with hk | hk | hk | hk
  all_goals
    simp only [hk]
    exact Quiet.writePram (word_lt hhi) hmay hpos _

theorem quiet_readTail {offset : Nat} {buf : List Byte} (hfit : offset + buf.length ≤ 128) :
    Quiet (readCommandBytes.tail offset buf) := by
  induction buf generalizing offset with
  | nil => exact Quiet.pure _
  | cons b buf ih =>
    rw [List.length_cons] at hfit
    exact Quiet.bind (quiet_readCommandByte (by omega)) fun _ =>
      Quiet.bind (ih (by omega)) fun _ => Quiet.pure _

theorem quiet_writeTail {offset : Nat} {buf : List Byte} (hlo : 16 ≤ offset)
    (hfit : offset + buf.length ≤ 128) : Quiet (writeCommandBytes.tail offset buf) := by
  induction buf generalizing offset with
  | nil => exact Quiet.pure _
  | cons b buf ih =>
    rw [List.length_cons] at hfit
    exact Quiet.bind (quiet_writeCommandByte hlo (by omega) b) fun _ =>
      ih (Nat.le_add_right_of_le hlo) (by omega)

theorem quiet_readCommandBytes {offset : Nat} {buf : List Byte} (hfit : offset + buf.length ≤ 128) :
    Quiet (readCommandBytes offset buf) := by
  induction offset, buf using readCommandBytes.induct with
  | case1 offset b0 b1 b2 b3 buf ih =>
    simp only [List.length_cons] at hfit
    rw [readCommandBytes]
    exact Quiet.bind (Quiet.readPram _ (word_lt (by omega))) fun _ =>
      Quiet.bind (ih (by omega)) fun _ => Quiet.pure _
  | case2 offset buf hshort =>
    rw [readCommandBytes]
    · exact quiet_readTail hfit
    · exact hshort

theorem quiet_writeCommandBytes {offset : Nat} {buf : List Byte} (hlo : 16 ≤ offset)
    (hfit : offset + buf.length ≤ 128) : Quiet (writeCommandBytes offset buf) := by
  induction offset, buf using writeCommandBytes.induct with
  | case1 offset b0 b1 b2 b3 buf ih =>
    simp only [List.length_cons] at hfit
    have hword : offset >>> 2 < 32 := word_lt (by omega)
    have hmay : Site.writeCommandBytes.mayWrite ⟨offset >>> 2, hword⟩ = true :=
      decide_eq_true (four_le_word hlo)
    rw [writeCommandBytes]
    exact Quiet.bind (Quiet.writePram hword hmay
      (Nat.lt_of_lt_of_le (by decide) (four_le_word hlo)) _) fun _ =>
        ih (Nat.le_add_right_of_le hlo) (by omega)
  | case2 offset buf hshort =>
    rw [writeCommandBytes]
    · exact quiet_writeTail hlo hfit
    · exact hshort

/-- A command: its header, the wait for its end, its result. -/
theorem quiet_writeCommandHeader {cmd : Command} (himpl : cmd.implemented = true)
    (cmdFormat : Format) (callseq : Sequence) (key : KeyID) :
    Quiet (writeCommandHeader cmd cmdFormat callseq key) := by
  have hwait (k : Driver (Except CommandResult Unit)) (hk : Quiet k) :
      (pollReg Site.writeCommandHeader .fstat ccifIsClear >>= fun _ => k).Obeys pramMonitor
        unknownResult (fun _ q => q = false) true := by
    refine ⟨fun v hv => ?_, fun v hv => ⟨false, ?_, hk⟩⟩
    · rw [pramMonitor, hv]
    · rw [pramMonitor, hv]
  rw [writeCommandHeader, if_pos himpl]
  refine ⟨true, rfl, hwait _ (Quiet.bind (quiet_readCommandHalfword (by decide)) fun value => ?_)⟩
  split
  · exact ⟨rfl, value, rfl⟩
  · exact Quiet.pure _
  · exact Quiet.pure _

/-! ## The operations -/

/-- A command whose result decides how a function goes on. -/
theorem Quiet.command {cmd : Command} (himpl : cmd.implemented = true) {cmdFormat : Format}
    {callseq : Sequence} {key : KeyID} {f : Except CommandResult Unit → Driver α}
    (herror : ∀ e, Quiet (f (.error e))) (hok : Quiet (f (.ok ()))) :
    Quiet (writeCommandHeader cmd cmdFormat callseq key >>= f) :=
  Quiet.bind (quiet_writeCommandHeader himpl _ _ _) fun result => by
    cases result with
    | error e => exact herror e
    | ok u => exact hok

theorem quiet_initRng : Quiet initRng := quiet_writeCommandHeader rfl _ _ _

theorem quiet_generateRnd : Quiet generateRnd :=
  Quiet.command rfl (fun _ => Quiet.pure _)
    (Quiet.bind (quiet_readCommandBytes (by decide)) fun _ => Quiet.pure _)

theorem quiet_loadPlainkey (key : Vector Byte 16) : Quiet (loadPlainkey key) :=
  Quiet.bind (quiet_writeCommandBytes (by decide) (by rw [Vector.length_toList]; decide)) fun _ =>
    quiet_writeCommandHeader rfl _ _ _

theorem quiet_generateMac_processBlocks (message : List Byte) (sequence : Sequence) :
    Quiet (generateMac.processBlocks message sequence) := by
  induction message, sequence using generateMac.processBlocks.induct with
  | case1 message sequence bytes ih =>
    rw [generateMac.processBlocks]
    refine Quiet.bind (Quiet.checkSlice (Nat.min_le_left _ _)) fun _ =>
      Quiet.bind (quiet_writeCommandBytes (by decide) ?_) fun _ =>
        Quiet.command rfl (fun _ => Quiet.pure _) ?_
    · simp only [page1Offset, maxPages, pageSizeInBytes, List.length_take]
      omega
    · show Quiet (ite _ _ _)
      split
      · next hmore => exact ih hmore
      · exact Quiet.pure _

theorem quiet_generateMac {message : List Byte} (hlen : message.length ≤ u32Max) :
    Quiet (generateMac message) := by
  refine Quiet.bind (Quiet.assert (by simpa using hlen) _) fun _ =>
    Quiet.bind (quiet_writeCommandWords (by decide) (by decide) _) fun _ =>
      Quiet.bind (quiet_generateMac_processBlocks message .first) fun result => ?_
  cases result with
  | error e => exact Quiet.pure _
  | ok u =>
    exact Quiet.bind (quiet_readCommandBytes (by decide)) fun _ => Quiet.pure _

theorem quiet_verifyMac_processBlocks (message : List Byte) {cmac : List Byte}
    (hcmac : cmac.length = 16) (sequence : Sequence) (macWritten : Bool) :
    Quiet (verifyMac.processBlocks message cmac sequence macWritten) := by
  induction message, sequence, macWritten using verifyMac.processBlocks.induct with
  | case1 message sequence macWritten bytes ih =>
    have hbytes : bytes ≤ 112 := Nat.min_le_right _ _
    have hrest {append : Bool} (happend : append = (!macWritten &&
        decide (verifyMac.nextPage bytes < maxPages))) :
        Quiet (readCommandHalfword macVerificationBitsOffset >>= fun bits =>
          if !(macWritten || append) then
            verifyMac.processBlocks (message.drop bytes) cmac .subsequent (macWritten || append)
          else Pure.pure (.ok (bits == 0))) := by
      refine Quiet.bind (quiet_readCommandHalfword (by decide)) fun bits => ?_
      subst happend
      split
      · next hmore => exact ih hmore
      · exact Quiet.pure _
    have hchunk : Quiet (writeCommandBytes page1Offset (message.take bytes)) := by
      refine quiet_writeCommandBytes (by decide) ?_
      rw [List.length_take]
      exact Nat.add_le_add_left (Nat.le_trans (Nat.min_le_left _ _) hbytes) 16
    rw [verifyMac.processBlocks]
    refine Quiet.bind (Quiet.checkSlice (Nat.min_le_left _ _)) fun _ =>
      Quiet.bind hchunk fun _ => ?_
    dsimp only
    split
    · next happend =>
      have hpage : verifyMac.nextPage bytes < maxPages := by
        simp only [Bool.and_eq_true, decide_eq_true_eq] at happend
        exact happend.2
      obtain ⟨hbehind, hfit⟩ := verifyMac.room (verifyMac.nextPage_lt_maxPages.mp hpage)
      exact Quiet.bind (quiet_writeCommandBytes (Nat.le_of_add_right_le hbehind)
        (hcmac.symm ▸ hfit)) fun _ => Quiet.command rfl (fun _ => Quiet.pure _) (hrest rfl)
    · exact Quiet.command rfl (fun _ => Quiet.pure _) (hrest rfl)

theorem quiet_verifyMac {message : List Byte} (hpos : 0 < message.length)
    (hlen : message.length ≤ u32Max) (cmac : Vector Byte 16) : Quiet (verifyMac message cmac) :=
  Quiet.bind (Quiet.assert (by simp [hpos, hlen]) _) fun _ =>
    Quiet.bind (quiet_writeCommandWords (by decide) (by decide) _) fun _ =>
      Quiet.bind (quiet_writeCommandHalfword (by decide) (by decide) _) fun _ =>
        quiet_verifyMac_processBlocks message (Vector.length_toList) .first false

theorem quiet_handleCbc_processBlocks {command : Command} (himpl : command.implemented = true)
    (input output : List Byte) (sequence : Sequence) (hpages : input.length % 16 = 0)
    (hout : output.length = input.length) :
    Quiet (handleCbc.processBlocks input output sequence command hpages) := by
  induction input, output, sequence, hpages using handleCbc.processBlocks.induct with
  | case1 input output sequence hpages availPages bytes ih =>
    obtain ⟨hoff, _, _, hend⟩ := handleCbc.layout sequence
    have hbytes : bytes = min input.length (16 * availPages) := handleCbc.bytes_eq hpages availPages
    have hle : bytes ≤ input.length := hbytes ▸ Nat.min_le_left _ _
    have hfit (buf : List Byte) :
        handleCbc.pageOffset sequence + (buf.take bytes).length ≤ 128 := by
      rw [List.length_take, ← hend]
      exact Nat.add_le_add_left
        (Nat.le_trans (Nat.min_le_left _ _) (hbytes ▸ Nat.min_le_right _ _)) _
    rw [handleCbc.processBlocks]
    refine Quiet.bind (Quiet.checkSlice hle) fun _ =>
      Quiet.bind (quiet_writeCommandBytes hoff (hfit input)) fun _ =>
        Quiet.command himpl (fun _ => Quiet.pure _)
          (Quiet.bind (Quiet.checkSlice (Nat.le_trans hle (Nat.le_of_eq hout.symm))) fun _ =>
            Quiet.bind (quiet_readCommandBytes (hfit output)) fun _ => ?_)
    show Quiet (ite _ _ _)
    split
    · next hmore =>
      refine Quiet.bind (ih hmore ?_) fun _ => Quiet.pure _
      rw [List.length_drop, List.length_drop, hout]
    · exact Quiet.pure _

theorem quiet_handleCbc {command : Command} (himpl : command.implemented = true)
    {input output : List Byte} (initVec : Vector Byte 16) (hout : output.length = input.length)
    (hpages : output.length % 16 = 0) : Quiet (handleCbc command input initVec output) := by
  rw [handleCbc, dif_pos hout, dif_pos hpages]
  refine Quiet.bind (Quiet.assert ?_ _) fun _ =>
    Quiet.bind (quiet_writeCommandBytes (by decide) (by rw [Vector.length_toList]; decide)) fun _ =>
      Quiet.bind (quiet_writeCommandHalfword (by decide) (by decide) _) fun _ =>
        quiet_handleCbc_processBlocks himpl input output .first _ hout
  simp only [u16Max, BitVec.le_def, decide_eq_true_eq]
  exact Nat.le_of_lt_succ (BitVec.isLt _)

/-- The public operations of the driver. -/
inductive Op where
  | initRng
  | generateRnd
  | loadPlainkey (key : Vector Byte 16)
  | encryptCbc (plaintext : List Byte) (initVec : Vector Byte 16) (ciphertext : List Byte)
  | decryptCbc (ciphertext : List Byte) (initVec : Vector Byte 16) (plaintext : List Byte)
  | generateMac (message : List Byte)
  | verifyMac (message : List Byte) (cmac : Vector Byte 16)

namespace Op

/-- A call of the operation. -/
def call : Op → Driver Unit
  | initRng => Csec.initRng >>= fun _ => pure ()
  | generateRnd => Csec.generateRnd >>= fun _ => pure ()
  | loadPlainkey key => Csec.loadPlainkey key >>= fun _ => pure ()
  | encryptCbc plaintext initVec ciphertext =>
    Csec.encryptCbc plaintext initVec ciphertext >>= fun _ => pure ()
  | decryptCbc ciphertext initVec plaintext =>
    Csec.decryptCbc ciphertext initVec plaintext >>= fun _ => pure ()
  | generateMac message => Csec.generateMac message >>= fun _ => pure ()
  | verifyMac message cmac => Csec.verifyMac message cmac >>= fun _ => pure ()

/-- The arguments pass the assertions of the operation. -/
def Accepted : Op → Prop
  | initRng => True
  | generateRnd => True
  | loadPlainkey _ => True
  | encryptCbc input _ output => output.length = input.length ∧ output.length % 16 = 0
  | decryptCbc input _ output => output.length = input.length ∧ output.length % 16 = 0
  | generateMac message => message.length ≤ u32Max
  | verifyMac message _ => 0 < message.length ∧ message.length ≤ u32Max

theorem quiet_call {op : Op} (h : op.Accepted) : Quiet op.call := by
  have hdiscard {α : Type} {p : Driver α} (hp : Quiet p) : Quiet (p >>= fun _ => pure ()) :=
    hp.bind fun _ => Quiet.pure ()
  cases op with
  | initRng => exact hdiscard quiet_initRng
  | generateRnd => exact hdiscard quiet_generateRnd
  | loadPlainkey key => exact hdiscard (quiet_loadPlainkey key)
  | encryptCbc input initVec output => exact hdiscard (quiet_handleCbc rfl initVec h.1 h.2)
  | decryptCbc input initVec output => exact hdiscard (quiet_handleCbc rfl initVec h.1 h.2)
  | generateMac message => exact hdiscard (quiet_generateMac h)
  | verifyMac message cmac => exact hdiscard (quiet_verifyMac h.1 h.2 cmac)

end Op

/-- On any hardware an accepted call follows the rules. It panics on a result
code that does not exist and on nothing else, so that no access leaves PRAM and
no slice its buffer, and as long as the hardware finishes its commands every one
of them is started by a single write. -/
theorem pram_discipline (hw : Hw CseReg σ) (op : Op) (h : op.Accepted) (s : σ) :
    Disciplined (trace hw op.call s) ∧
      (∀ p, (exec hw op.call s).1 = .panicked p → ∃ v, p = CommandResult.unknown v) ∧
      ((exec hw op.call s).1 ≠ .hung →
        (trace hw op.call s).countP startsCommand = (trace hw op.call s).countP observesCcif) := by
  obtain ⟨q, hrun, hdone, hpanic⟩ := (Op.quiet_call h).sound hw s
  refine ⟨disciplined_of_run hrun, fun p hp => (hpanic p hp).2, fun hended => ?_⟩
  have hq : q = false := by
    cases hout : (exec hw op.call s).1 with
    | done a => exact hdone a hout
    | panicked p => exact (hpanic p hout).1
    | hung => exact absurd hout hended
  have hcount := count_of_run hrun
  rwa [hq] at hcount

/-- A message of two commands, on an engine that accepts them. -/
theorem pram_discipline_verifyMac :
    Disciplined (trace (cseHw (Engine.scripted fun _ => .noError))
      (Op.verifyMac (List.replicate 160 7) (Vector.replicate 16 1)).call (Cse.reset 0)) :=
  (pram_discipline (cseHw (Engine.scripted fun _ => .noError))
    (Op.verifyMac (List.replicate 160 7) (Vector.replicate 16 1))
    ⟨by rw [List.length_replicate]; decide, by rw [List.length_replicate]; decide⟩
    (Cse.reset 0)).1

end Csec
