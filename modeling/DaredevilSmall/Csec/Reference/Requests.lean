import DaredevilSmall.Csec.Reference.Steps
import DaredevilSmall.Csec.Mac

/-!
# What the engine is handed

The commands of the reference driver as the engine `she` sees them. The `Start` functions
write their parameters in an order of their own, and none of these writes touches another
one, so the engine finds them all: `slice_apart`. The message length is the whole word,
and the parameters are written anew for every command.
-/

namespace Csec

namespace Reference

open Mmio Data She SheLemmas StepsLemmas

variable {P : Primitives} {latency : She → Pram → Nat} {st : State} {p : Pram}

/-! ## Writes that do not touch each other -/

/-- One buffer lies behind the other. -/
def Apart (a b : Nat × List Byte) : Prop :=
  a.1 + a.2.length ≤ b.1 ∨ b.1 + b.2.length ≤ a.1

namespace RequestsLemmas

theorem slice_beside {ws : List (Nat × List Byte)} {off len : Nat}
    (h : ∀ w ∈ ws, off + len ≤ w.1 ∨ w.1 + w.2.length ≤ off) (p : Pram) :
    slice (ws.foldl (fun p w => splice p w.1 w.2) p) off len = slice p off len := by
  induction ws generalizing p with
  | nil => rfl
  | cons w ws ih =>
    rw [List.foldl_cons, ih (fun v hv => h v (List.mem_cons_of_mem _ hv))]
    exact slice_splice_of_disjoint p (h w List.mem_cons_self)

theorem slice_written {ws : List (Nat × List Byte)} (h : ws.Pairwise Apart) (p : Pram)
    {w : Nat × List Byte} (hw : w ∈ ws) (hfit : w.1 + w.2.length ≤ 128) :
    slice (ws.foldl (fun p w => splice p w.1 w.2) p) w.1 w.2.length = w.2 := by
  induction ws generalizing p with
  | nil => exact absurd hw (by simp)
  | cons w' ws ih =>
    obtain ⟨hfirst, hrest⟩ := List.pairwise_cons.mp h
    rcases List.mem_cons.mp hw with rfl | hin
    · rw [List.foldl_cons, slice_beside fun v hv => (hfirst v hv)]
      exact slice_splice_self p hfit
    · exact ih hrest _ hin

end RequestsLemmas

open RequestsLemmas

/-- The engine finds what a command writes. -/
theorem slice_apart {β : Type} (c : Request β) (h : c.writes.Pairwise Apart) (p : Pram)
    {w : Nat × List Byte} (hw : w ∈ c.writes) (hpos : 4 ≤ w.1) (hfit : w.1 + w.2.length ≤ 128) :
    slice (c.handed p) w.1 w.2.length = w.2 := by
  rw [Request.handed, SessionLemmas.slice_update_zero _ _ hpos]
  exact slice_written h p hw hfit

namespace RequestsLemmas

theorem halfwordAt_of_slice {i : Nat} {v : Halfword} (h : slice p i 2 = [hi v, lo v]) :
    halfwordAt p i = v := by
  have hbytes : slice p i 2 = [byteAt p i, byteAt p (i + 1)] := rfl
  rw [hbytes] at h
  simp only [List.cons.injEq, and_true] at h
  rw [halfwordAt, h.1, h.2, hi_append_lo]

theorem bitLength_of_slice {w : Word} (h : slice p macMessageLengthOffset 4 = bytesOf w) :
    bitLength p = w.toNat := by
  have hbytes : slice p macMessageLengthOffset 4 = [byteAt p 12, byteAt p 13, byteAt p 14,
      byteAt p 15] := rfl
  rw [hbytes] at h
  simp only [bytesOf, List.cons.injEq, and_true] at h
  obtain ⟨h0, h1, h2, h3⟩ := h
  have hword : halfwordAt p macMessageLengthOffset ++ halfwordAt p (macMessageLengthOffset + 2) =
      be (lane w 0) (lane w 1) (lane w 2) (lane w 3) := by
    rw [← h0, ← h1, ← h2, ← h3]
    apply BitVec.eq_of_getLsbD_eq
    intro i hi
    rw [MemoryLemmas.getLsbD_be]
    simp only [halfwordAt, macMessageLengthOffset, BitVec.getLsbD_append]
    grind
  rw [bitLength, hword, be_lane]

end RequestsLemmas

/-! ## The engine -/

/-- A command in sequence. -/
theorem she_run {β : Type} {c : Request β} {cmd : Command} {sequence : Sequence} {e e' : She}
    {p' : Pram} (himpl : cmd.implemented = true)
    (hheader : c.header = headerWord cmd .copy sequence (keyOf cmd))
    (hstep : e.step P cmd sequence (c.handed p) = some (p', e')) :
    (she P latency).run e (c.handed p) = (report p' .noError, e') := by
  have hdecode : decode (c.handed p 0) = some (cmd, sequence) := by
    rw [Request.handed, Function.update_self, hheader, decode_headerWord himpl]
  simp only [she, hdecode, hstep]

/-- A command out of sequence. -/
theorem she_outOfSequence {β : Type} {c : Request β} {cmd : Command} {sequence : Sequence}
    {e : She} (himpl : cmd.implemented = true)
    (hheader : c.header = headerWord cmd .copy sequence (keyOf cmd))
    (hstep : e.step P cmd sequence (c.handed p) = none) :
    (she P latency).run e (c.handed p) = (report (c.handed p) .sequenceError, e) := by
  have hdecode : decode (c.handed p 0) = some (cmd, sequence) := by
    rw [Request.handed, Function.update_self, hheader, decode_headerWord himpl]
  simp only [she, hdecode, hstep]

theorem status_noError (p : Pram) :
    Status.ofErrorBits (status (report p .noError)) = .success := by
  rw [status_report]
  rfl

/-- After a success the driver goes on. -/
theorem answered_success (h : Status.ofErrorBits (status p) = .success) :
    st.answered p = State.proceed { st with errCode := .success } p := by
  simp only [State.answered, h, ne_eq, not_true, if_false]

/-- An error ends the call. -/
theorem answered_failure (h : Status.ofErrorBits (status p) ≠ .success) :
    st.answered p =
      { st with errCode := Status.ofErrorBits (status p), cmdInProgress := false } := by
  simp only [State.answered, ne_eq, h, not_false_iff, if_true]

theorem answered_sequenceError (p : Pram) :
    st.answered (report p .sequenceError) =
      { st with errCode := .secSequenceError, cmdInProgress := false } := by
  have hstatus : Status.ofErrorBits (status (report p .sequenceError)) = .secSequenceError := by
    rw [status_report]
    rfl
  rw [answered_failure (by rw [hstatus]; decide), hstatus]

/-! ## Calls -/

/-- What is left of the input. -/
def State.rest (st : State) : List Byte := st.inputBuff.drop st.index.toNat

/-- How many bytes are left. -/
def Point.left {ε : Type} (c : Point ε) : Nat := c.1.rest.length

/-- The first point of a call. -/
def Call.point (c : Call) (st : State) (p : Pram) (e : She) : Point She := (c.init st, p, e)

/-- A call from `c` that has ended at `c'`. The engine is idle, with the same key. -/
structure Ended (c c' : Point She) (errCode : Status) (output : List Byte) : Prop where
  args : SameCall c.1 c'.1
  errCode : c'.1.errCode = errCode
  output : c'.1.outputBuff = output
  engine : c'.2.2 = { c.2.2 with job := .idle }

end Reference

end Csec
