import DaredevilSmall.Csec.Reference.Driver
import DaredevilSmall.Csec.Session
import DaredevilSmall.Mmio.Chain

/-!
# The commands of the reference driver

What the `Start` and `Continue` functions do, on any engine. A state of the driver
stands for one command, its `request`. A `Start` function launches it and changes the
state to the one that is `launched`. A `Continue` function makes of the state and the
engine's reply the state that is `answered`, and launches the next command if that state
is still in progress.

1. `exec_startCmd` and `exec_continueCmd` say so of the code.
2. A call is a chain: `step` runs one command to its end and takes the call to the next.
   `Stands` is the driver that is at a point of this chain, and `exec_start_stands` and
   `exec_continue_stands` are the two functions between such points.
-/

namespace Csec

namespace Reference

open Mmio

variable {ε : Type}

/-! ## What a state stands for -/

/-- The message bytes of the command that comes next. -/
def State.numBytes (st : State) : Byte :=
  match st.cmd with
  | .generateMac | .verifyMac => Reference.numBytes st
  | _ =>
    match st.seq with
    | .first => (numPages (dataPagesAvailable - 1) st <<< 4).setWidth 8
    | .subsequent => (numPages dataPagesAvailable st <<< 4).setWidth 8

/-- Whether there is room for the MAC to be verified behind the bytes. -/
def State.fits (st : State) : Bool :=
  (macOffset st.numBytes).toNat + pageSizeInBytes < dataBytesAvailable.toNat

/-- The command that comes next: what the `Start` function writes, in its order. -/
def State.request (st : State) : Request Unit where
  writes :=
    match st.cmd with
    | .generateMac =>
      [(page1Offset, st.chunk st.numBytes), (macMessageLengthOffset, bytesOf st.msgLen)]
    | .verifyMac =>
      [(page1Offset, st.chunk st.numBytes), (macMessageLengthOffset, bytesOf st.msgLen),
        (macLengthOffset, [hi (st.macLen.setWidth 16), lo (st.macLen.setWidth 16)])] ++
      if st.fits then [(page1Offset + (macOffset st.numBytes).toNat, st.mac.toList)] else []
    | _ =>
      (match st.seq with
      | .first => [(page1Offset, st.iv.toList), (page2Offset, st.chunk st.numBytes)]
      | .subsequent => [(page1Offset, st.chunk st.numBytes)]) ++
      [(pageLengthOffset, [hi ((st.fullSize >>> 4).setWidth 16),
        lo ((st.fullSize >>> 4).setWidth 16)])]
  header := headerWord st.cmd .copy st.seq st.keyId
  observe _ := ()

/-- The state when that command has been launched. -/
def State.launched (st : State) : State :=
  { st with
    partSize := st.numBytes.setWidth 32
    macWritten := st.macWritten || (st.cmd == .verifyMac && st.fits) }

/-- The `Start` function of a command. -/
def startCmd (st : State) : Access State :=
  match st.cmd with
  | .generateMac => startGenMacCmd st
  | .verifyMac => startVerifMacCmd st
  | _ => startEncDecCbcCmd st

/-- The state after a success. -/
def State.proceed (st : State) (p : Pram) : State :=
  match st.cmd with
  | .generateMac =>
    let st : State := { st.advance with seq := .subsequent }
    if st.index ≥ st.fullSize then
      { st.fill 0 (slice p page2Offset pageSizeInBytes) with cmdInProgress := false }
    else st
  | .verifyMac =>
    let st : State := { st.advance with seq := .subsequent, cmdInProgress := !st.macWritten }
    if st.cmdInProgress then st
    else { st with verifStatus := halfwordAt p macVerificationBitsOffset == 0 }
  | _ =>
    let st := st.collect (slice p (partOffset st.seq) (st.partSize.setWidth 8).toNat)
    if st.index ≥ st.fullSize then { st with cmdInProgress := false } else st

/-- What a `Continue` function makes of the reply to the command that was launched. -/
def State.answered (st : State) (p : Pram) : State :=
  let st := { st with errCode := Status.ofErrorBits (status p) }
  if st.errCode ≠ .success then { st with cmdInProgress := false } else st.proceed p

/-- The commands that calls are made of. -/
def Chained (cmd : Command) : Prop :=
  cmd = .encCbc ∨ cmd = .decCbc ∨ cmd = .generateMac ∨ cmd = .verifyMac

/-! ## Sizes -/

namespace StepsLemmas

theorem setWidth_part (n : Byte) : ((n.setWidth 32 : Word).setWidth 8) = n := by
  rw [BitVec.setWidth_setWidth_of_le _ (by decide), BitVec.setWidth_eq]

theorem toNat_part (n : Byte) : (n.setWidth 32 : Word).toNat = n.toNat :=
  BitVec.toNat_setWidth_of_le (by decide)

theorem min_toNat {a b : Word} (ha : a.toNat < 256) :
    ((if b > a then a else b).setWidth 8 : Byte).toNat = min a.toNat b.toNat := by
  rw [BitVec.toNat_setWidth]
  split
  · next h =>
    rw [Nat.min_eq_left (Nat.le_of_lt (BitVec.lt_def.mp h)), Nat.mod_eq_of_lt ha]
  · next h =>
    have hle : b.toNat ≤ a.toNat := Nat.not_lt.mp fun hlt => h (BitVec.lt_def.mpr hlt)
    rw [Nat.min_eq_right hle, Nat.mod_eq_of_lt (Nat.lt_of_le_of_lt hle ha)]

theorem numBytes_toNat (st : State) :
    (numBytes st).toNat = min 112 (st.fullSize - st.index).toNat := min_toNat (by decide)

theorem numPages_toNat {available : Word} (h : available.toNat ≤ 7) (st : State) :
    ((numPages available st <<< 4).setWidth 8 : Byte).toNat =
      16 * min available.toNat ((st.fullSize - st.index).toNat / 16) := by
  have hshift : ((st.fullSize - st.index) >>> 4).toNat = (st.fullSize - st.index).toNat / 16 := by
    rw [BitVec.toNat_ushiftRight, Nat.shiftRight_eq_div_pow]
  have hpages : (numPages available st).toNat =
      min available.toNat ((st.fullSize - st.index).toNat / 16) := by
    simp only [numPages]
    rw [BitVec.toNat_setWidth]
    split
    · next hlt =>
      have hlt' := BitVec.lt_def.mp hlt
      rw [hshift] at hlt'
      rw [Nat.min_eq_left (Nat.le_of_lt hlt')]
      exact Nat.mod_eq_of_lt (Nat.lt_of_le_of_lt h (by decide))
    · next hle =>
      have hle' : ((st.fullSize - st.index) >>> 4).toNat ≤ available.toNat :=
        Nat.not_lt.mp fun hlt => hle (BitVec.lt_def.mpr hlt)
      rw [hshift] at hle' ⊢
      rw [Nat.min_eq_right hle']
      exact Nat.mod_eq_of_lt (Nat.lt_of_le_of_lt (Nat.le_trans hle' h) (by decide))
  rw [BitVec.toNat_setWidth, BitVec.toNat_shiftLeft, hpages, Nat.shiftLeft_eq]
  omega

theorem round_eq (v : Word) (k : Nat) : v &&& ~~~(BitVec.allOnes k).setWidth 32 =
    (v >>> k) <<< k := by
  apply BitVec.eq_of_getLsbD_eq
  intro i hi
  simp only [BitVec.getLsbD_and, BitVec.getLsbD_not, BitVec.getLsbD_setWidth,
    BitVec.getLsbD_allOnes, BitVec.getLsbD_shiftLeft, BitVec.getLsbD_ushiftRight, hi]
  by_cases hk : i < k
  · simp [hk]
  · have hadd : k + (i - k) = i := by omega
    simp [hk, hadd]

theorem round_toNat (v : Word) {k : Nat} : (v &&& ~~~(BitVec.allOnes k).setWidth 32).toNat =
    v.toNat / 2 ^ k * 2 ^ k := by
  have hle : v.toNat / 2 ^ k * 2 ^ k ≤ v.toNat := Nat.div_mul_le_self _ _
  rw [round_eq, BitVec.toNat_shiftLeft, BitVec.toNat_ushiftRight, Nat.shiftRight_eq_div_pow,
    Nat.shiftLeft_eq]
  exact Nat.mod_eq_of_lt (Nat.lt_of_le_of_lt hle v.isLt)

theorem macOffset_toNat {n : Byte} (h : n.toNat ≤ 112) :
    (macOffset n).toNat = (n.toNat + 15) / 16 * 16 := by
  have hround := round_toNat (n.setWidth 32 + 15) (k := 4)
  have hsum : ((n.setWidth 32 : Word) + 15).toNat = n.toNat + 15 := by
    rw [BitVec.toNat_add, toNat_part]
    exact Nat.mod_eq_of_lt (show n.toNat + 15 < 2 ^ 32 by omega)
  rw [macOffset, roundTo, BitVec.toNat_setWidth]
  rw [hsum] at hround
  exact (congrArg (· % 2 ^ 8) hround).trans (Nat.mod_eq_of_lt (by omega))

/-- The bytes of a message of so many bits. -/
theorem roundTo_toNat {msgLen : Word} (h : msgLen.toNat + 7 < 2 ^ 32) :
    (roundTo msgLen 0x8 >>> 3).toNat = (msgLen.toNat + 7) / 8 := by
  have hround := round_toNat (msgLen + 7) (k := 3)
  have hsum : (msgLen + 7).toNat = msgLen.toNat + 7 := by
    rw [BitVec.toNat_add]
    exact Nat.mod_eq_of_lt h
  rw [hsum] at hround
  rw [BitVec.toNat_ushiftRight, Nat.shiftRight_eq_div_pow]
  refine (congrArg (· / 2 ^ 3) hround).trans ?_
  exact Nat.mul_div_cancel _ (by decide)

theorem chunk_length_le (st : State) (n : Byte) : (st.chunk n).length ≤ n.toNat :=
  List.length_take_le _ _

/-- No command carries more than seven pages, and the first one of a CBC call, which
starts with the initialization vector, not more than six. -/
theorem numBytes_le (st : State) :
    st.numBytes.toNat ≤ 112 ∧
      (st.cmd = .encCbc ∨ st.cmd = .decCbc → st.seq = .first → st.numBytes.toNat ≤ 96) := by
  have hmac := numBytes_toNat st
  have hsix := numPages_toNat (show (dataPagesAvailable - 1).toNat ≤ 7 by decide) st
  have hseven := numPages_toNat (show dataPagesAvailable.toNat ≤ 7 by decide) st
  rw [show (dataPagesAvailable - 1).toNat = 6 from rfl] at hsix
  rw [show dataPagesAvailable.toNat = 7 from rfl] at hseven
  unfold State.numBytes
  split
  · next hcmd => exact ⟨by omega, fun h => by simp [hcmd] at h⟩
  · next hcmd => exact ⟨by omega, fun h => by simp [hcmd] at h⟩
  · cases hseq : st.seq with
    | first => exact ⟨by simp only; omega, fun _ _ => by simp only; omega⟩
    | subsequent => exact ⟨by simp only; omega, fun _ h => absurd h (by decide)⟩

end StepsLemmas

open StepsLemmas

/-! ## The functions -/

section Exec

variable {E : Engine ε} {st : State} {s : Cse ε}

theorem exec_launch (n : Byte) (st : State) :
    ∃ s', exec (cseHw E) (launch n st) s =
        (.done { st with partSize := n.setWidth 32 }, s') ∧
      InFlight E s.engine
        (Function.update s.pram 0 (headerWord st.cmd .copy st.seq st.keyId))
        (E.latency s.engine
          (Function.update s.pram 0 (headerWord st.cmd .copy st.seq st.keyId))) s' := by
  obtain ⟨s', hexec, hflight⟩ := exec_writeCommandHeader (E := E) (s := s) st.cmd st.seq st.keyId
  exact ⟨s', exec_bind_of _ hexec, hflight⟩

namespace StepsLemmas

/-- The part of a message that a MAC command carries, and its length. -/
theorem exec_macPart (hn : st.numBytes.toNat ≤ 112) (k : Access State) :
    exec (cseHw E)
        (writeCommandBytes page1Offset (st.chunk st.numBytes) >>= fun _ =>
          writeCommandWords macMessageLengthOffset [st.msgLen] >>= fun _ => k) s =
      exec (cseHw E) k (s.store
        (wordsOf page1Offset (st.chunk st.numBytes).length ++ [wordAt macMessageLengthOffset])
        (splice (splice s.pram page1Offset (st.chunk st.numBytes)) macMessageLengthOffset
          (bytesOf st.msgLen))) := by
  have hfit : page1Offset + (st.chunk st.numBytes).length ≤ 128 :=
    Nat.add_le_add_left (Nat.le_trans (chunk_length_le _ _) hn) 16
  rw [exec_bind_of _ (exec_writeCommandBytes (by decide) (by decide) hfit),
    exec_bind_of _ (exec_writeCommandWord (by decide) (by decide) (by decide) _), Cse.store_store,
    Cse.store_pram]

theorem exec_startGenMac (hcmd : st.cmd = .generateMac) :
    ∃ s', exec (cseHw E) (startGenMacCmd st) s = (.done st.launched, s') ∧
      InFlight E s.engine (st.request.handed s.pram)
        (E.latency s.engine (st.request.handed s.pram)) s' := by
  have hbytes : Reference.numBytes st = st.numBytes := by rw [State.numBytes, hcmd]
  unfold startGenMacCmd
  rw [hbytes, exec_macPart (numBytes_le st).1]
  obtain ⟨s', hexec, hflight⟩ := exec_launch (E := E) st.numBytes st
  refine ⟨s', hexec.trans ?_, ?_⟩
  · simp [State.launched, hcmd]
  · simpa [Request.handed, Request.prepare, State.request, hcmd] using hflight

/-- Where there is room for the MAC. -/
theorem macOffset_fits {n : Byte} (hn : n.toNat ≤ 112)
    (h : (macOffset n).toNat + pageSizeInBytes < dataBytesAvailable.toNat) :
    (page1Offset + (macOffset n).toNat) % 4 = 0 ∧
      page1Offset + n.toNat ≤ page1Offset + (macOffset n).toNat ∧
      page1Offset + (macOffset n).toNat + 16 ≤ 128 := by
  have hoffset := macOffset_toNat hn
  simp only [pageSizeInBytes, show dataBytesAvailable.toNat = 112 from rfl] at h
  simp only [page1Offset]
  omega

theorem exec_startVerifMac (hcmd : st.cmd = .verifyMac) :
    ∃ s', exec (cseHw E) (startVerifMacCmd st) s = (.done st.launched, s') ∧
      InFlight E s.engine (st.request.handed s.pram)
        (E.latency s.engine (st.request.handed s.pram)) s' := by
  have hbytes : Reference.numBytes st = st.numBytes := by rw [State.numBytes, hcmd]
  have hn := (numBytes_le st).1
  unfold startVerifMacCmd
  simp only [hbytes]
  rw [exec_macPart hn,
    exec_bind_of _ (exec_writeCommandHalfWord (by decide) (by decide) (by decide) _),
    Cse.store_store, Cse.store_pram]
  by_cases hroom : (macOffset st.numBytes).toNat + pageSizeInBytes < dataBytesAvailable.toNat
  · obtain ⟨halign, _, hfit⟩ := macOffset_fits hn hroom
    have hfits : st.fits = true := decide_eq_true hroom
    have hpos : 4 ≤ page1Offset + (macOffset st.numBytes).toNat :=
      Nat.le_add_right_of_le (by decide)
    rw [if_pos hroom, exec_bind_of _ (exec_writeCommandBytes halign hpos
      (Vector.length_toList.symm ▸ hfit)), Cse.store_store, Cse.store_pram]
    obtain ⟨s', hexec, hflight⟩ := exec_launch (E := E) st.numBytes
      { st with macWritten := true }
    refine ⟨s', hexec.trans ?_, ?_⟩
    · simp [State.launched, hcmd, hfits]
    · simpa [Request.handed, Request.prepare, State.request, hcmd, hfits] using hflight
  · have hfits : st.fits = false := decide_eq_false hroom
    rw [if_neg hroom]
    obtain ⟨s', hexec, hflight⟩ := exec_launch (E := E) st.numBytes st
    refine ⟨s', hexec.trans ?_, ?_⟩
    · simp [State.launched, hfits]
    · simpa [Request.handed, Request.prepare, State.request, hcmd, hfits] using hflight

theorem exec_startEncDecCbc (hcmd : st.cmd = .encCbc ∨ st.cmd = .decCbc) :
    ∃ s', exec (cseHw E) (startEncDecCbcCmd st) s = (.done st.launched, s') ∧
      InFlight E s.engine (st.request.handed s.pram)
        (E.latency s.engine (st.request.handed s.pram)) s' := by
  have hlaunched : st.launched = { st with partSize := st.numBytes.setWidth 32 } := by
    rcases hcmd with hcmd | hcmd <;> simp [State.launched, hcmd]
  obtain ⟨hseven, hsix⟩ := numBytes_le st
  have hlen := chunk_length_le st st.numBytes
  unfold startEncDecCbcCmd
  cases hseq : st.seq with
  | first =>
    have hbytes : (numPages (dataPagesAvailable - 1) st <<< 4).setWidth 8 = st.numBytes := by
      rcases hcmd with hcmd | hcmd <;> simp only [State.numBytes, hcmd, hseq]
    have hfit : page2Offset + (st.chunk st.numBytes).length ≤ 128 :=
      Nat.add_le_add_left (Nat.le_trans hlen (hsix hcmd hseq)) 32
    have hiv : page1Offset + st.iv.toList.length ≤ 128 := by
      rw [Vector.length_toList]
      decide
    simp only [hbytes]
    rw [exec_bind_of _ (exec_writeCommandBytes (by decide) (by decide) hiv),
      exec_bind_of _ (exec_writeCommandBytes (by decide) (by decide) hfit), Prog.pure_eq,
      Prog.done_bind,
      exec_bind_of _ (exec_writeCommandHalfWord (by decide) (by decide) (by decide) _)]
    simp only [Cse.store_store, Cse.store_pram]
    obtain ⟨s', hexec, hflight⟩ := exec_launch (E := E) st.numBytes st
    refine ⟨s', hexec.trans (by rw [hlaunched]), ?_⟩
    rcases hcmd with hcmd | hcmd <;>
      simpa [Request.handed, Request.prepare, State.request, hcmd, hseq] using hflight
  | subsequent =>
    have hbytes : (numPages dataPagesAvailable st <<< 4).setWidth 8 = st.numBytes := by
      rcases hcmd with hcmd | hcmd <;> simp only [State.numBytes, hcmd, hseq]
    have hfit : page1Offset + (st.chunk st.numBytes).length ≤ 128 :=
      Nat.add_le_add_left (Nat.le_trans hlen hseven) 16
    simp only [hbytes]
    rw [exec_bind_of _ (exec_writeCommandBytes (by decide) (by decide) hfit), Prog.pure_eq,
      Prog.done_bind,
      exec_bind_of _ (exec_writeCommandHalfWord (by decide) (by decide) (by decide) _)]
    simp only [Cse.store_store, Cse.store_pram]
    obtain ⟨s', hexec, hflight⟩ := exec_launch (E := E) st.numBytes st
    refine ⟨s', hexec.trans (by rw [hlaunched]), ?_⟩
    rcases hcmd with hcmd | hcmd <;>
      simpa [Request.handed, Request.prepare, State.request, hcmd, hseq] using hflight

end StepsLemmas

/-- A `Start` function launches the command that the state stands for. -/
theorem exec_startCmd (hcmd : Chained st.cmd) :
    ∃ s', exec (cseHw E) (startCmd st) s = (.done st.launched, s') ∧
      InFlight E s.engine (st.request.handed s.pram)
        (E.latency s.engine (st.request.handed s.pram)) s' := by
  unfold startCmd
  rcases hcmd with hcmd | hcmd | hcmd | hcmd
  · rw [hcmd]
    exact exec_startEncDecCbc (Or.inl hcmd)
  · rw [hcmd]
    exact exec_startEncDecCbc (Or.inr hcmd)
  · rw [hcmd]
    exact exec_startGenMac hcmd
  · rw [hcmd]
    exact exec_startVerifMac hcmd

/-- What follows a `Continue` function's reading of the reply. -/
def goOn (E : Engine ε) (st : State) (s : Cse ε) : Outcome State × Cse ε :=
  if st.cmdInProgress then exec (cseHw E) (startCmd st) s else (.done st, s)

namespace StepsLemmas

theorem exec_ifSuccess {resume : State → Access State}
    (hresume : exec (cseHw E) (resume { st with errCode := .success }) s =
      goOn E (State.proceed { st with errCode := .success } s.pram) s) :
    exec (cseHw E) (ifSuccess st resume) s = goOn E (st.answered s.pram) s := by
  unfold ifSuccess State.answered
  rw [exec_bind_of _ exec_readErrorBits]
  by_cases hstatus : Status.ofErrorBits (status s.pram) = .success
  · simp only [hstatus, ne_eq, not_true, if_false]
    exact hresume
  · simp only [ne_eq, hstatus, not_false_iff, if_true]
    rfl

theorem launched_cmd (st : State) : st.launched.cmd = st.cmd := rfl

theorem launched_part (st : State) : st.launched.partSize.setWidth 8 = st.numBytes :=
  setWidth_part _

theorem exec_continueGenMac (hcmd : st.cmd = .generateMac) (hbusy : st.cmdInProgress = true) :
    exec (cseHw E) (continueGenMacCmd st) s = goOn E (st.answered s.pram) s := by
  refine exec_ifSuccess ?_
  simp only [State.proceed, hcmd]
  by_cases hmore : st.advance.index ≥ st.advance.fullSize
  · rw [if_pos (by exact hmore), if_pos (by exact hmore),
      exec_bind_of _ (exec_readCommandBytes (by decide) (by decide))]
    rfl
  · rw [if_neg (by exact hmore), if_neg (by exact hmore), goOn, if_pos (by exact hbusy)]
    simp only [startCmd, State.advance]

theorem exec_continueVerifMac (hcmd : st.cmd = .verifyMac) :
    exec (cseHw E) (continueVerifMacCmd st) s = goOn E (st.answered s.pram) s := by
  refine exec_ifSuccess ?_
  simp only [State.proceed, hcmd]
  cases hwritten : st.macWritten with
  | true =>
    simp only [Bool.not_true, Bool.not_false, if_true, Bool.false_eq_true, if_false]
    rw [exec_bind_of _ (exec_readCommandHalfWord (by decide) (by decide))]
    rfl
  | false =>
    simp only [Bool.not_true, Bool.not_false, if_true, Bool.false_eq_true, if_false, goOn]
    simp only [startCmd, State.advance]

theorem exec_continueEncDecCbc (hcmd : st.cmd = .encCbc ∨ st.cmd = .decCbc)
    (hbusy : st.cmdInProgress = true) :
    exec (cseHw E) (continueEncDecCbcCmd st.launched) s =
      goOn E (st.launched.answered s.pram) s := by
  obtain ⟨hseven, hsix⟩ := numBytes_le st
  have hproceed (st : State) (hcmd : st.cmd = .encCbc ∨ st.cmd = .decCbc) (p : Pram) :
      st.proceed p =
        let st := st.collect (slice p (partOffset st.seq) (st.partSize.setWidth 8).toNat)
        if st.index ≥ st.fullSize then { st with cmdInProgress := false } else st := by
    rcases hcmd with hcmd | hcmd <;> simp only [State.proceed, hcmd]
  have hstart (st : State) (hcmd : st.cmd = .encCbc ∨ st.cmd = .decCbc) :
      startCmd st = startEncDecCbcCmd st := by
    rcases hcmd with hcmd | hcmd <;> simp only [startCmd, hcmd]
  have hread : exec (cseHw E)
      (readCommandBytes (partOffset st.launched.seq) (st.launched.partSize.setWidth 8).toNat) s =
      (.done (slice s.pram (partOffset st.launched.seq) (st.launched.partSize.setWidth 8).toNat),
        s) := by
    rw [launched_part]
    cases hseq : st.launched.seq with
    | first =>
      exact exec_readCommandBytes (by decide) (Nat.add_le_add_left (hsix hcmd hseq) 32)
    | subsequent => exact exec_readCommandBytes (by decide) (Nat.add_le_add_left hseven 16)
  refine exec_ifSuccess ((exec_bind_of _ hread).trans ?_)
  rw [hproceed _ (by exact hcmd)]
  obtain ⟨st', hst'⟩ : ∃ st', State.collect { st.launched with errCode := .success }
      (slice s.pram (partOffset st.launched.seq) (st.launched.partSize.setWidth 8).toNat) = st' :=
    ⟨_, rfl⟩
  simp only [hst']
  by_cases hmore : st'.index ≥ st'.fullSize
  · rw [if_pos hmore, if_pos hmore]
    rfl
  · have hcmd' : st'.cmd = .encCbc ∨ st'.cmd = .decCbc := by rw [← hst']; exact hcmd
    have hbusy' : st'.cmdInProgress = true := by rw [← hst']; exact hbusy
    rw [if_neg hmore, if_neg hmore, goOn, if_pos hbusy', hstart _ hcmd']

end StepsLemmas

/-- A `Continue` function takes the call from the command that was launched to the next
one, or to its end. -/
theorem exec_continueCmd (hcmd : Chained st.cmd) (hbusy : st.cmdInProgress = true) :
    exec (cseHw E) (continueCmd st.launched) s = goOn E (st.launched.answered s.pram) s := by
  unfold continueCmd
  rcases hcmd with hcmd | hcmd | hcmd | hcmd
  · rw [launched_cmd, hcmd]
    exact exec_continueEncDecCbc (Or.inl hcmd) hbusy
  · rw [launched_cmd, hcmd]
    exact exec_continueEncDecCbc (Or.inr hcmd) hbusy
  · rw [launched_cmd, hcmd]
    exact exec_continueGenMac hcmd hbusy
  · rw [launched_cmd, hcmd]
    exact exec_continueVerifMac hcmd

end Exec

/-! ## Calls as chains -/

/-- A point of a call: the state that stands for the next command, with the PRAM and the
engine that the command finds. -/
abbrev Point (ε : Type) := State × Pram × ε

def Point.busy (c : Point ε) : Bool := c.1.cmdInProgress

/-- What the engine makes of the next command. -/
def Point.core (E : Engine ε) (c : Point ε) : Pram × ε :=
  E.run c.2.2 (c.1.request.handed c.2.1)

/-- The next command, from its launch to the driver's answer. -/
def Point.step (E : Engine ε) (c : Point ε) : Point ε :=
  (c.1.launched.answered (c.core E).1, c.core E)

/-- The driver is at a point of a call: with a command in progress that `k` more reads of
`FSTAT` find busy, or at the end. -/
inductive Stands (E : Engine ε) : Point ε → Nat → State → Cse ε → Prop
  | running {c : Point ε} {k : Nat} {s : Cse ε} : c.busy = true →
      InFlight E c.2.2 (c.1.request.handed c.2.1) k s → Stands E c k c.1.launched s
  | resting {c : Point ε} {s : Cse ε} : c.busy = false → Answered c.2 s → Stands E c 0 c.1 s

namespace Stands

variable {E : Engine ε} {c : Point ε} {k : Nat} {st : State} {s : Cse ε}

theorem cmdInProgress (h : Stands E c k st s) : st.cmdInProgress = c.busy := by
  cases h with
  | running _ _ => rfl
  | resting _ _ => rfl

theorem inFlight (h : Stands E c k st s) (hbusy : c.busy = true) :
    st = c.1.launched ∧ InFlight E c.2.2 (c.1.request.handed c.2.1) k s := by
  cases h with
  | running _ hflight => exact ⟨rfl, hflight⟩
  | resting hrest _ => exact absurd (hrest.symm.trans hbusy) Bool.false_ne_true

theorem answered (h : Stands E c k st s) (hrest : c.busy = false) : st = c.1 ∧ Answered c.2 s := by
  cases h with
  | running hbusy _ => exact absurd (hrest.symm.trans hbusy) Bool.false_ne_true
  | resting _ hanswered => exact ⟨rfl, hanswered⟩

end Stands

/-- What a call does not change from command to command. -/
structure SameCall (st st' : State) : Prop where
  cmd : st'.cmd = st.cmd
  inputBuff : st'.inputBuff = st.inputBuff
  fullSize : st'.fullSize = st.fullSize
  keyId : st'.keyId = st.keyId
  iv : st'.iv = st.iv
  msgLen : st'.msgLen = st.msgLen
  mac : st'.mac = st.mac
  macLen : st'.macLen = st.macLen
  callback : st'.callback = st.callback
  called : st'.called = st.called

theorem SameCall.refl (st : State) : SameCall st st :=
  ⟨rfl, rfl, rfl, rfl, rfl, rfl, rfl, rfl, rfl, rfl⟩

theorem SameCall.trans {st₁ st₂ st₃ : State} (h : SameCall st₁ st₂) (h' : SameCall st₂ st₃) :
    SameCall st₁ st₃ where
  cmd := h'.cmd.trans h.cmd
  inputBuff := h'.inputBuff.trans h.inputBuff
  fullSize := h'.fullSize.trans h.fullSize
  keyId := h'.keyId.trans h.keyId
  iv := h'.iv.trans h.iv
  msgLen := h'.msgLen.trans h.msgLen
  mac := h'.mac.trans h.mac
  macLen := h'.macLen.trans h.macLen
  callback := h'.callback.trans h.callback
  called := h'.called.trans h.called

namespace StepsLemmas

theorem same_proceed (st : State) (p : Pram) : SameCall st (st.proceed p) := by
  unfold State.proceed
  split
  · dsimp only
    split <;> exact ⟨rfl, rfl, rfl, rfl, rfl, rfl, rfl, rfl, rfl, rfl⟩
  · dsimp only
    split <;> exact ⟨rfl, rfl, rfl, rfl, rfl, rfl, rfl, rfl, rfl, rfl⟩
  · dsimp only
    split <;> exact ⟨rfl, rfl, rfl, rfl, rfl, rfl, rfl, rfl, rfl, rfl⟩

theorem same_answered (st : State) (p : Pram) : SameCall st (st.launched.answered p) := by
  unfold State.answered
  dsimp only
  split
  · exact ⟨rfl, rfl, rfl, rfl, rfl, rfl, rfl, rfl, rfl, rfl⟩
  · exact { same_proceed { st.launched with errCode := Status.ofErrorBits (status p) } p with }

end StepsLemmas

/-- One command of a call leaves its arguments alone. -/
theorem same_step (E : Engine ε) (c : Point ε) : SameCall c.1 (c.step E).1 :=
  same_answered c.1 _

theorem same_ends {E : Engine ε} {n : Nat} {c c' : Point ε}
    (h : Ends Point.busy (Point.step E) n c c') : SameCall c.1 c'.1 := by
  induction h with
  | rest _ => exact .refl _
  | more _ _ ih => exact (same_step E _).trans ih

section Chains

variable {E : Engine ε} {c : Point ε} {st : State} {s : Cse ε}

/-- From the point at which a command is to be launched. -/
theorem exec_start_stands (hcmd : Chained st.cmd) (hbusy : st.cmdInProgress = true) :
    ∃ s', exec (cseHw E) (startCmd st) s = (.done st.launched, s') ∧
      Stands E (st, s.pram, s.engine)
        (E.latency s.engine (st.request.handed s.pram)) st.launched s' := by
  obtain ⟨s', hexec, hflight⟩ := exec_startCmd (E := E) (s := s) hcmd
  exact ⟨s', hexec, .running hbusy hflight⟩

/-- How often the next command is found busy. -/
def Point.delay (E : Engine ε) (c : Point ε) : Nat :=
  if c.busy then E.latency c.2.2 (c.1.request.handed c.2.1) else 0

/-- From the end of a command to the next one, or to the end of the call. -/
theorem exec_continue_stands (hcmd : Chained c.1.cmd) (hbusy : c.busy = true)
    (hs : Answered (c.core E) s) :
    ∃ st' s', exec (cseHw E) (continueCmd c.1.launched) s = (.done st', s') ∧
      Stands E (c.step E) ((c.step E).delay E) st' s' := by
  have hexec := exec_continueCmd (E := E) (s := s) hcmd hbusy
  rw [hs.pram] at hexec
  unfold goOn at hexec
  cases hnext : (c.step E).busy with
  | true =>
    have hcmd' : Chained (c.step E).1.cmd := by rwa [(same_step E c).cmd]
    obtain ⟨s', hstart, hstands⟩ := exec_start_stands (E := E) (s := s) hcmd' hnext
    have hpoint : ((c.step E).1, s.pram, s.engine) = c.step E := by
      rw [hs.pram, hs.engine]
      rfl
    have hdelay : (c.step E).delay E =
        E.latency (c.step E).2.2 ((c.step E).1.request.handed (c.step E).2.1) := if_pos hnext
    rw [hpoint, hs.engine, hs.pram] at hstands
    refine ⟨_, s', (hexec.trans (if_pos hnext)).trans hstart, ?_⟩
    rw [hdelay]
    exact hstands
  | false =>
    have hdelay : (c.step E).delay E = 0 := if_neg (by rw [hnext]; decide)
    refine ⟨_, s, hexec.trans (if_neg ?_), ?_⟩
    · exact fun h => absurd (h.symm.trans hnext) (by decide)
    · rw [hdelay]
      exact .resting hnext hs

end Chains

end Reference

end Csec
