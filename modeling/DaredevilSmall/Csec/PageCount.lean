import DaredevilSmall.Csec.Transcript

/-!
# The page count of a CBC call

`handle_cbc` announces the number of pages of its input in the half-word at
`PAGE_LENGTH_OFFSET`. It casts the number to `u16` twice: once for the value it
writes, and once inside the assertion that should reject inputs of more than
65535 pages and that therefore never fails.

1. `pageCountExact_iff`: the announced count is right, or the call is rejected,
   exactly for the inputs that are no multiple of a page or have at most 65535
   pages.
2. `pageCount_truncated`: an input of 65536 pages is processed as a single page.
-/

namespace Csec

open Mmio Data SessionLemmas TranscriptLemmas

variable {ε β : Type}

/-- The engine leaves the page count alone: it is a parameter on page 0. -/
def Engine.KeepsPageCount (E : Engine ε) : Prop :=
  ∀ e p, halfwordAt (E.run e p).1 pageLengthOffset = halfwordAt p pageLengthOffset

/-- The call is rejected by an assertion before any command, or every command
is issued under the page count of `input`. -/
def PageCountExact (input : List Byte)
    (run : Outcome (Except CommandResult Unit × List Byte) × Cse ε) : Prop :=
  (∃ msg, run.1 = .panicked (.assertion msg) ∧ run.2.issued = []) ∨
    ∀ i ∈ run.2.issued,
      (halfwordAt i.request pageLengthOffset).toNat = input.length / pageSizeInBytes

namespace PageCountLemmas

variable {E : Engine ε} {s : Cse ε} {command : Command} {input : List Byte}

/-- All commands so far, and the PRAM now, have `count` at the page count. -/
def Announced (count : Halfword) (s : Cse ε) : Prop :=
  halfwordAt s.pram pageLengthOffset = count ∧
    ∀ i ∈ s.issued, halfwordAt i.request pageLengthOffset = count

/-- The chunks of a CBC call lie behind page 0. -/
theorem announced_serve (hkeep : E.KeepsPageCount) {count : Halfword} {c : Request (List Byte)}
    (hc : c ∈ cbcRequests command .first input) (h : Announced count s) :
    Announced count (s.serve E c) := by
  obtain ⟨hpram, hissued⟩ := h
  obtain ⟨⟨sequence, chunk⟩, _, rfl⟩ := List.mem_map.mp hc
  have hoffset : pageLengthOffset + 2 ≤ handleCbc.pageOffset sequence :=
    (handleCbc.layout sequence).1
  have hrequest (w : Word) : halfwordAt (Function.update
      ((cbcRequest command sequence chunk).prepare s.pram) 0 w) pageLengthOffset = count := by
    rw [halfwordAt, byteAt_update_zero _ _ (by decide), byteAt_update_zero _ _ (by decide)]
    exact (halfwordAt_splice_of_disjoint s.pram (Or.inl hoffset)).trans hpram
  refine ⟨(hkeep _ _).trans (hrequest _), fun i hi => ?_⟩
  rcases List.mem_append.mp hi with hold | hnew
  · exact hissued i hold
  · obtain rfl := List.mem_singleton.mp hnew
    exact hrequest _

theorem announced_prepareCbc (initVec : Vector Byte 16) :
    Announced (announcedPages input) (s.monitor.prepareCbc input initVec) :=
  ⟨halfwordAt_splice_self _ _ (by decide), fun _ hi => absurd hi List.not_mem_nil⟩

/-- Every command of a CBC call is issued under the announced page count. -/
theorem announced_run (hkeep : E.KeepsPageCount) (command : Command) (input : List Byte)
    (initVec : Vector Byte 16) :
    Announced (announcedPages input) (Session.run E (cbcRequests command .first input)
      (s.monitor.prepareCbc input initVec)).state :=
  Session.run_invariant (fun _ hc _ h => announced_serve hkeep hc h) (announced_prepareCbc initVec)

/-- The cast to `u16` is exact up to 65535 pages. -/
theorem announcedPages_exact (hne : input ≠ []) (hpages : input.length % pageSizeInBytes = 0) :
    (announcedPages input).toNat = input.length / pageSizeInBytes ↔
      input.length / pageSizeInBytes ≤ 65535 := by
  have hpos := List.length_pos_of_ne_nil hne
  simp only [announcedPages_toNat, pageSizeInBytes] at *
  omega

/-- A call that gets past the assertions issues a command, so an exact count
fits a half-word. -/
theorem le_of_pageCountExact (hkeep : E.KeepsPageCount) (himpl : command.implemented = true)
    {output : List Byte} (hne : input ≠ []) (hout : output.length = input.length)
    (hpages : input.length % pageSizeInBytes = 0) (initVec : Vector Byte 16)
    (h : PageCountExact input
      (exec (cseHw E) (handleCbc command input initVec output) s.monitor)) :
    input.length / pageSizeInBytes ≤ 65535 := by
  rw [exec_handleCbc himpl initVec hout hpages, PageCountExact, finishCbc_state] at h
  obtain ⟨_, hissued⟩ := announced_run (s := s) hkeep command input initVec
  have hlog := log_of_monitored (E := E) (cbcRequests command .first input)
    (s := s.monitor.prepareCbc input initVec) rfl
  have hfirst := hlog.continues (j := 0) (fun _ _ h => absurd h (Nat.not_lt_zero _)) (by
    rw [cbcRequests, List.length_map, sequenced_length]
    exact List.length_pos_of_ne_nil pieces_ne_nil)
  rcases h with ⟨_, _, hnone⟩ | hexact
  · rw [hnone] at hfirst
    exact absurd hfirst (Nat.lt_irrefl 0)
  · refine (announcedPages_exact hne hpages).mp ?_
    rw [← hissued _ (List.getElem_mem hfirst)]
    exact hexact _ (List.getElem_mem hfirst)

theorem scripted_keepsPageCount (script : Nat → CommandResult) :
    (Engine.scripted script).KeepsPageCount := fun _ p =>
  halfwordAt_splice_of_disjoint p (Or.inr (show 4 + 2 ≤ 14 by decide))

end PageCountLemmas

open PageCountLemmas

/-- The page count is exact, or the call is rejected, exactly when the input is
no multiple of a page or has at most 65535 pages. -/
theorem pageCountExact_iff {E : Engine ε} (hkeep : E.KeepsPageCount) {command : Command}
    (hcommand : command = .encCbc ∨ command = .decCbc) {input output : List Byte}
    (hne : input ≠ []) (hout : output.length = input.length) (initVec : Vector Byte 16)
    (s : Cse ε) :
    PageCountExact input (exec (cseHw E) (handleCbc command input initVec output) s.monitor) ↔
      input.length % pageSizeInBytes ≠ 0 ∨ input.length / pageSizeInBytes ≤ 65535 := by
  have himpl : command.implemented = true := by rcases hcommand with rfl | rfl <;> rfl
  by_cases hpages : input.length % pageSizeInBytes = 0
  · constructor
    · exact fun h => Or.inr (le_of_pageCountExact hkeep himpl hne hout hpages initVec h)
    · rintro (hno | hle)
      · exact absurd hpages hno
      · obtain ⟨_, hissued⟩ := announced_run (s := s) hkeep command input initVec
        rw [exec_handleCbc himpl initVec hout hpages, PageCountExact, finishCbc_state]
        refine Or.inr fun i hi => ?_
        rw [hissued i hi]
        exact (announcedPages_exact hne hpages).mpr hle
  · obtain ⟨msg, hpanic⟩ := exec_handleCbc_reject (E := E) (s := s.monitor) command
      initVec (Or.inr (by rwa [hout]))
    rw [hpanic]
    exact ⟨fun _ => Or.inl hpages, fun _ => Or.inl ⟨msg, rfl, rfl⟩⟩

/-- At 65535 pages the count is exact. -/
theorem pageCountExact_largest :
    PageCountExact (List.replicate 1048560 0)
      (exec (cseHw (Engine.scripted fun _ => .noError))
        (handleCbc .encCbc (List.replicate 1048560 0) (Vector.replicate 16 0)
          (List.replicate 1048560 0)) (Cse.reset 0).monitor) := by
  have hlen : (List.replicate 1048560 (0 : Byte)).length = 1048560 := List.length_replicate
  refine (pageCountExact_iff (scripted_keepsPageCount _) (Or.inl rfl) ?_ rfl _ _).mpr (Or.inr ?_)
  · exact List.ne_nil_of_length_pos (by rw [hlen]; decide)
  · rw [hlen]
    decide

/-- An input of 65536 pages gets past the assertions and is announced as one
page. -/
theorem pageCount_truncated :
    ¬ PageCountExact (List.replicate 1048576 0)
      (exec (cseHw (Engine.scripted fun _ => .noError))
        (handleCbc .encCbc (List.replicate 1048576 0) (Vector.replicate 16 0)
          (List.replicate 1048576 0)) (Cse.reset 0).monitor) := by
  have hlen : (List.replicate 1048576 (0 : Byte)).length = 1048576 := List.length_replicate
  intro h
  have hle := le_of_pageCountExact (scripted_keepsPageCount _) rfl
    (List.ne_nil_of_length_pos (by rw [hlen]; decide)) rfl (by rw [hlen]; decide) _ h
  rw [hlen] at hle
  exact absurd hle (by decide)

end Csec
