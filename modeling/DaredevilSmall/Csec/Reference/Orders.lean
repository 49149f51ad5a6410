import DaredevilSmall.Csec.Reference.Blocking
import DaredevilSmall.Csec.Guarded

/-!
# Orders

An `Order` is a call of several commands with arguments that the driver is meant for: whole
blocks, as many bytes as the message has bits, and lengths that fit in their fields. What it
is to deliver, with a key and without, is its `status`, its `output` and its `verdict`.

1. `ends_order`: on the engine `guarded` the order is delivered, after no more commands than
   it has bytes, and one. With a key its chain of commands is one of `she`, and without one
   its first command is refused.
2. `blocking_returns`: on any engine a blocking call returns.
-/

namespace Csec

namespace Reference

open Mmio Data She SheLemmas OverrunLemmas StepsLemmas MacChainLemmas GuardedLemmas

variable {ε : Type}

/-- The arguments of a call. -/
inductive Order where
  | cbc (direction : Direction) (input : List Byte) (iv : Block) (output : List Byte)
      (pages : input.length % 16 = 0) (count : input.length / 16 < 65536)
  | generateMac (message : List Byte) (msgLen : Word) (cmac : List Byte)
      (length : message.length = (msgLen.toNat + 7) / 8) (fits : msgLen.toNat + 7 < 2 ^ 32)
  | verifyMac (message : List Byte) (msgLen : Word) (mac : Block) (macLen : Halfword)
      (length : message.length = (msgLen.toNat + 7) / 8) (fits : msgLen.toNat + 7 < 2 ^ 32)

namespace Order

def call : Order → Call
  | cbc direction input iv output _ _ =>
    cbcCall direction .ramKey input (BitVec.ofNat 32 input.length) iv output
  | generateMac message msgLen cmac _ _ => Reference.generateMac .ramKey message msgLen cmac
  | verifyMac message msgLen mac macLen _ _ =>
    Reference.verifyMac .ramKey message msgLen mac macLen

def command : Order → Command
  | cbc direction _ _ _ _ _ => direction.command
  | generateMac .. => .generateMac
  | verifyMac .. => .verifyMac

/-- The bytes that the commands of a call carry. -/
def size : Order → Nat
  | cbc _ input _ _ _ _ => input.length
  | generateMac message .. => message.length
  | verifyMac message .. => message.length

/-- The message ends on page 6 of its last command. -/
def Stale : Order → Prop
  | verifyMac message .. => 81 ≤ message.length % 112 ∧ message.length % 112 ≤ 96
  | _ => False

instance (o : Order) : Decidable o.Stale := by
  cases o <;> unfold Stale <;> infer_instance

/-- The status in the end. -/
def status (o : Order) : Option Block → Status
  | none => .secKeyEmpty
  | some _ => if o.Stale then .secSequenceError else .success

variable (P : Primitives)

/-- What is in the output buffer in the end. Without a key it is what has been there before. -/
def output : Order → Option Block → List Byte
  | cbc _ _ _ output _ _, none => output
  | cbc direction input iv output _ _, some key =>
    cbcBytes P direction key iv input ++ output.drop input.length
  | generateMac _ _ cmac _ _, none => cmac
  | generateMac message msgLen cmac _ _, some key =>
    (P.cmac key ((bitsOf message).take msgLen.toNat)).toList ++ cmac.drop 16
  | verifyMac .., _ => []

/-- Whether the MAC matches, if there is an answer to that. -/
def verdict (o : Order) : Option Block → Option Bool
  | none => none
  | some key =>
    match o with
    | verifyMac message msgLen mac macLen _ _ =>
      if o.Stale then none
      else some (agree macLen.toNat (P.cmac key ((bitsOf message).take msgLen.toNat)) mac)
    | _ => none

/-- The state of the driver holds what the order is to deliver. -/
structure Delivered (ramKey : Option Block) (o : Order) (st : State) : Prop where
  cmd : st.cmd = o.command
  status : st.errCode = o.status ramKey
  output : st.outputBuff = o.output P ramKey
  verdict : ∀ b, o.verdict P ramKey = some b → st.verifStatus = b

end Order

theorem regular_order (o : Order) : o.call.Regular := by
  cases o with
  | cbc => exact regular_cbcCall _ _ _ _ _
  | generateMac => exact regular_generateMac _ _ _
  | verifyMac => exact regular_verifyMac _ _ _ _

theorem command_order (o : Order) (st : State) : (o.call.init st).cmd = o.command := by
  cases o with
  | cbc direction input iv output =>
    cases direction with
    | enc => rfl
    | dec => rfl
  | generateMac => rfl
  | verifyMac => rfl

/-! ## With a key -/

section WithKey

variable {P : Primitives}

/-- On the engine `she` an order is delivered. -/
theorem ends_she (latency : She → Pram → Nat) (o : Order) (st : State) (p : Pram) {e : She}
    (hidle : e.job = .idle) :
    ∃ n c', n ≤ o.size + 1 ∧
      Ends Point.busy (Point.step (she P latency)) n (o.call.point st p e) c' ∧
      SameCall (o.call.init st) c'.1 ∧ o.Delivered P (some e.ramKey) c'.1 ∧ c'.2.2 = e := by
  have hcmd {c' : Point She} (h : SameCall (o.call.init st) c'.1) : c'.1.cmd = o.command :=
    h.cmd.trans (command_order o st)
  cases o with
  | cbc direction input iv output hpages hcount =>
    have hlen : (BitVec.ofNat 32 input.length).toNat = input.length := Nat.mod_eq_of_lt (by omega)
    obtain ⟨n, c', hn, hends, hended⟩ := ends_cbc (P := P) (p := p) latency direction hidle
      hlen.symm (by rwa [hlen]) (by rwa [hlen]) iv output
    exact ⟨n, c', hn, hends, hended.args, ⟨hcmd hended.args, hended.errCode, hended.output,
      fun _ h => absurd h (by simp [Order.verdict])⟩, hended.engine.trans (idle_eq hidle)⟩
  | generateMac message msgLen cmac hlen hfit =>
    obtain ⟨n, c', hn, hends, hended⟩ := ends_generateMac (P := P) (p := p) latency hidle hlen hfit
      cmac
    exact ⟨n, c', hn, hends, hended.args, ⟨hcmd hended.args, hended.errCode, hended.output,
      fun _ h => absurd h (by simp [Order.verdict])⟩, hended.engine.trans (idle_eq hidle)⟩
  | verifyMac message msgLen mac macLen hlen hfit =>
    by_cases hband : (Order.verifyMac message msgLen mac macLen hlen hfit).Stale
    · obtain ⟨n, c', hn, hends, hended⟩ := ends_verifyMac_stale (P := P) (p := p) latency hidle hlen
        hfit hband mac macLen
      refine ⟨n, c', hn, hends, hended.args, ⟨hcmd hended.args, ?_, hended.output,
        fun b hb => ?_⟩, hended.engine.trans (idle_eq hidle)⟩
      · exact hended.errCode.trans (if_pos hband).symm
      · simp only [Order.verdict, if_pos hband, reduceCtorEq] at hb
    · obtain ⟨n, c', hn, hends, hended, hverdict⟩ := ends_verifyMac (P := P) (p := p) latency hidle
        hlen hfit hband mac macLen
      refine ⟨n, c', hn, hends, hended.args, ⟨hcmd hended.args, ?_, hended.output,
        fun b hb => ?_⟩, hended.engine.trans (idle_eq hidle)⟩
      · exact hended.errCode.trans (if_neg hband).symm
      · simp only [Order.verdict, if_neg hband, Option.some.injEq] at hb
        exact hverdict.trans hb

variable (latency : Guarded → Pram → Nat)

theorem usesKey_chained {cmd : Command} (h : Chained cmd) :
    cmd.implemented = true ∧ cmd.usesKey = true ∧ keyOf cmd = .ramKey := by
  rcases h with rfl | rfl | rfl | rfl <;> exact ⟨rfl, rfl, rfl⟩

/-- A point of a call on `she`, with the guards around the engine. -/
def Point.guard (seeded : Bool) (c : Point She) : Point Guarded :=
  (c.1, c.2.1, Guarded.behind seeded c.2.2)

theorem decode_request {st : State} (hcmd : Chained st.cmd) (hkey : st.keyId = .ramKey)
    (p : Pram) : decode (st.request.handed p 0) = some (st.cmd, st.seq) := by
  obtain ⟨himpl, _, hkeyOf⟩ := usesKey_chained hcmd
  refine decode_handed himpl ?_ p
  rw [State.request, hkey, hkeyOf]

theorem step_guard {c : Point She} (hcmd : Chained c.1.cmd) (hkey : c.1.keyId = .ramKey)
    (seeded : Bool) (latency' : She → Pram → Nat) :
    (c.guard seeded).step (guarded P latency) = (c.step (she P latency')).guard seeded := by
  have hcore := guarded_behind latency (P := P) (decode_request hcmd hkey c.2.1)
    (usesKey_chained hcmd).2.1 seeded latency' c.2.2
  unfold Point.step Point.core Point.guard
  simp only [hcore]

/-- A chain of commands on `she` is one behind the guards. -/
theorem ends_guard {n : Nat} {c c' : Point She} {latency' : She → Pram → Nat}
    (h : Ends Point.busy (Point.step (she P latency')) n c c') (hcmd : Chained c.1.cmd)
    (hkey : c.1.keyId = .ramKey) (seeded : Bool) :
    Ends Point.busy (Point.step (guarded P latency)) n (c.guard seeded) (c'.guard seeded) := by
  refine h.map (Point.guard seeded) (fun c => Chained c.1.cmd ∧ c.1.keyId = .ramKey)
    (fun _ => rfl) (fun c _ hc => ?_) ⟨hcmd, hkey⟩
  obtain ⟨hcmd, hkey⟩ := hc
  have hsame := same_step (she P latency') c
  refine ⟨step_guard latency hcmd hkey seeded latency', ?_, hsame.keyId.trans hkey⟩
  rwa [hsame.cmd]

end WithKey

/-! ## On the engine from a reset on -/

section Guarded

variable {P : Primitives} (latency : Guarded → Pram → Nat) {g : Guarded}

/-- Without a key the first command is refused, and the call ends with that. -/
theorem ends_refused {st : State} {p : Pram} (hcmd : Chained st.cmd) (hkey : st.keyId = .ramKey)
    (hbusy : st.cmdInProgress = true) (hnone : g.ramKey = none) :
    ∃ p', Ends Point.busy (Point.step (guarded P latency)) 1 (st, p, g)
      ({ st.launched with errCode := .secKeyEmpty, cmdInProgress := false }, p', g) := by
  have hrefused : g.refusal st.cmd = some .keyEmpty :=
    Guarded.refusal_of_empty hnone (usesKey_chained hcmd).2.1
  have hcore := guarded_refused latency (P := P) (decode_request hcmd hkey p) hrefused
  have hstatus : Status.ofErrorBits (Csec.status (report (st.request.handed p) .keyEmpty)) =
      .secKeyEmpty := by
    rw [status_report]
    rfl
  have hstep : Point.step (guarded P latency) (st, p, g) =
      ({ st.launched with errCode := .secKeyEmpty, cmdInProgress := false },
        report (st.request.handed p) .keyEmpty, g) := by
    unfold Point.step Point.core
    simp only [hcore]
    rw [answered_failure (by rw [hstatus]; decide), hstatus]
  refine ⟨report (st.request.handed p) .keyEmpty, ?_⟩
  rw [← hstep]
  refine .more hbusy (.rest ?_)
  rw [hstep]
  rfl

theorem output_init (o : Order) (st : State) : (o.call.init st).outputBuff = o.output P none := by
  cases o with
  | cbc direction input iv output =>
    cases direction with
    | enc => rfl
    | dec => rfl
  | generateMac => rfl
  | verifyMac => rfl

/-- On the engine an order is delivered, with a key and without. -/
theorem ends_order (o : Order) (st : State) (p : Pram) (hidle : g.job = .idle) :
    ∃ n c', n ≤ o.size + 1 ∧
      Ends Point.busy (Point.step (guarded P latency)) n (o.call.init st, p, g) c' ∧
      SameCall (o.call.init st) c'.1 ∧ o.Delivered P g.ramKey c'.1 ∧ c'.2.2 = g := by
  have hregular := regular_order o
  cases hram : g.ramKey with
  | none =>
    obtain ⟨p', hends⟩ := ends_refused latency (P := P) (p := p) (hregular.chained st)
      (hregular.keyId st) (hregular.busy st) hram
    refine ⟨1, _, Nat.le_add_left 1 _, hends, ?_, ⟨command_order o st, rfl, output_init o st, ?_⟩,
      rfl⟩
    · exact ⟨rfl, rfl, rfl, rfl, rfl, rfl, rfl, rfl, rfl, rfl⟩
    · exact fun b hb => absurd hb (by simp [Order.verdict])
  | some key =>
    obtain ⟨hg, rfl⟩ := Guarded.eq_behind hram
    have hcore : g.core.job = .idle := hidle
    obtain ⟨n, c', hn, hends, hsame, hdelivered, hengine⟩ := ends_she (P := P) (fun _ _ => 0) o st p
      hcore
    refine ⟨n, c'.guard g.seeded, hn, ?_, hsame, hdelivered, ?_⟩
    · have hguard := ends_guard latency hends (hregular.chained st) (hregular.keyId st) g.seeded
      unfold Call.point Point.guard at hguard
      rwa [← hg] at hguard
    · rw [Point.guard, hengine]
      exact hg.symm

end Guarded

/-! ## Any engine -/

section AnyEngine

variable (E : Engine ε) {c c' : Point ε}

/-- On any engine the call for an order comes to its end. -/
theorem ends_any (o : Order) (st : State) (p : Pram) (e : ε) :
    ∃ n c', n ≤ o.size + 1 ∧ Ends Point.busy (Point.step E) n (o.call.init st, p, e) c' := by
  have hbusy : Point.busy (o.call.init st, p, e) = true := (regular_order o).busy st
  cases o with
  | cbc direction input iv output hpages hcount =>
    have hlen : (BitVec.ofNat 32 input.length).toNat = input.length := Nat.mod_eq_of_lt (by omega)
    have hinit := cbcCall_init direction input output (BitVec.ofNat 32 input.length) iv st
    have hstate : CbcState direction
        { initState .ramKey direction.command input output (BitVec.ofNat 32 input.length) st with
          iv := iv } :=
      ⟨rfl, rfl, hlen.symm, hlen.symm ▸ hpages, Nat.zero_le _, rfl⟩
    rw [← hinit] at hstate
    obtain ⟨n, c', hn, hends⟩ := ends_cbcState E (c := (_, p, e)) hstate hbusy
    refine ⟨n, c', ?_, hends⟩
    cases direction with
    | enc => exact hn
    | dec => exact hn
  | generateMac message msgLen cmac hlen hfit =>
    exact ends_mac E (c := (_, p, e)) (macState_generateMac st hlen hfit cmac) hbusy
  | verifyMac message msgLen mac macLen hlen hfit =>
    exact ends_mac E (c := (_, p, e)) (macState_verifyMac st hlen hfit mac macLen) hbusy

variable {E}

/-- The driver has the status of the last command. -/
theorem errCode_of_ends {n : Nat} (hends : Ends Point.busy (Point.step E) n c c')
    (hbusy : c.busy = true) : c'.1.errCode = Status.ofErrorBits (status c'.2.1) := by
  have hproceed (st : State) (p : Pram) : (st.proceed p).errCode = st.errCode := by
    unfold State.proceed
    split <;> dsimp only <;> split <;> rfl
  have hstep (c : Point ε) :
      (c.step E).1.errCode = Status.ofErrorBits (status (c.step E).2.1) := by
    change (c.1.launched.answered (c.core E).1).errCode = _
    unfold State.answered
    dsimp only
    split
    · rfl
    · exact hproceed _ _
  induction hends with
  | rest hrest => exact absurd (hrest.symm.trans hbusy) Bool.false_ne_true
  | @more n c c' _ hends ih =>
    cases hnext : (c.step E).busy with
    | true => exact ih hnext
    | false =>
      obtain ⟨_, rfl⟩ := hends.eq_of_rest hnext
      exact hstep c

/-- Whatever the engine answers and whatever the clock says: a blocking call of the driver
returns after one round at least, and after no more than it has bytes, and one. It reads the
clock at its start and in each round. If all the readings are in time it returns the status
that the engine has reported last, and otherwise a timeout. No call is in progress then. -/
theorem blocking_returns (E : Engine ε) (o : Order) (st : State) (s : Cse ε) (h : Host)
    (hfree : st.cmdInProgress = false) (timeout : Word) {fuel : Nat} (hfuel : o.size + 1 ≤ fuel) :
    ∃ rounds st' s' h', exec (systemHw E) (o.call.blocking timeout fuel st) (s, h) =
        (.done (some (st'.errCode, st')), s', h') ∧ st'.cmdInProgress = false ∧
      0 < rounds ∧ rounds ≤ o.size + 1 ∧ h'.readings = h.readings + 1 + rounds ∧
      (h.InTime timeout rounds → st'.errCode = Status.ofErrorBits (status s'.pram)) ∧
      (¬ h.InTime timeout rounds → st'.errCode = .timeout) := by
  obtain ⟨n, c', hn, hends⟩ := ends_any E o st s.pram s.engine
  obtain ⟨rounds, st', s', h', hexec, hpos, hle, _, hreadings, hreturns⟩ := exec_blocking (h := h)
    (regular_order o) hfree timeout hends (Nat.le_trans hn hfuel)
  refine ⟨rounds, st', s', h', hexec, ?_⟩
  rcases hreturns with ⟨hin, rfl, hanswered⟩ | ⟨hlate, htimeout, hover⟩
  · refine ⟨hends.not_busy, hpos, Nat.le_trans hle hn, hreadings, fun _ => ?_,
      fun hlate => absurd hin hlate⟩
    rw [hanswered.pram]
    exact errCode_of_ends hends ((regular_order o).busy st)
  · exact ⟨hover, hpos, Nat.le_trans hle hn, hreadings, fun hin => absurd hin hlate,
      fun _ => htimeout⟩

/-- An engine that reports a memory failure, and a clock that is late from its second reading
on. -/
theorem blocking_returns_late : ∃ st' s' h',
    exec (systemHw (Engine.scripted fun _ => .memoryFailure))
        ((Order.generateMac samplePlain.toList 128 [] (by decide) (by decide)).call.blocking 100 17
          .sample) (Cse.reset 0, ⟨0, fun i => if i = 0 then 0 else 200, 0⟩) =
        (.done (some (.timeout, st')), s', h') ∧ st'.cmdInProgress = false := by
  obtain ⟨rounds, st', s', h', hexec, hover, hpos, _, _, _, hlate⟩ := blocking_returns
    (Engine.scripted fun _ => .memoryFailure)
    (.generateMac samplePlain.toList 128 [] (by decide) (by decide)) .sample (Cse.reset 0)
    ⟨0, fun i => if i = 0 then 0 else 200, 0⟩ rfl 100
    (show samplePlain.toList.length + 1 ≤ 17 by decide)
  have htimeout : st'.errCode = .timeout :=
    hlate fun hin => hin 0 hpos (show (200 : Word) > 0 + 100 by decide)
  exact ⟨st', s', h', htimeout ▸ hexec, hover⟩

end AnyEngine

end Reference

end Csec
