import DaredevilSmall.Csec.She

/-!
# Commands without pages to chain

`init_rng`, `generate_rnd` and `load_plainkey` are one command each. On the
engine `she`, from an idle engine, they return without error:

1. `exec_initRng` leaves the engine as it is.
2. `exec_generateRnd` returns the next random block.
3. `exec_loadPlainkey` loads the key.
-/

namespace Csec

open Mmio She SheLemmas SessionLemmas

variable {P : Primitives} (latency : She → Pram → Nat) {s : Cse She}

namespace CommandsLemmas

/-- A command in sequence returns without error. -/
theorem exec_header_done {β : Type} {c : Request β} {cmd : Command} {sequence : Sequence}
    (himpl : cmd.implemented = true)
    (hheader : c.header = headerWord cmd .copy sequence (keyOf cmd)) {p' : Pram} {e' : She}
    (hstep : s.engine.step P cmd sequence (c.handed s.pram) = some (p', e')) :
    ∃ s' : Cse She, s'.pram = report p' .noError ∧ s'.engine = e' ∧
      exec (cseHw (she P latency)) (writeCommandHeader cmd .copy sequence (keyOf cmd))
        (s.store c.words (c.prepare s.pram)) = (.done (.ok ()), s') := by
  obtain ⟨hpram, hengine⟩ := serve_done latency himpl hheader hstep
  refine ⟨s.serve (she P latency) c, hpram, hengine, ?_⟩
  rw [exec_header himpl hheader, hpram, status_report]
  rfl

/-- A command that nothing is written for. -/
def bareRequest (cmd : Command) : Request Unit where
  writes := []
  header := headerWord cmd .copy .first (keyOf cmd)
  observe _ := ()

theorem exec_bare {cmd : Command} (himpl : cmd.implemented = true) {p' : Pram} {e' : She}
    (hstep : s.engine.step P cmd .first ((bareRequest cmd).handed s.pram) = some (p', e')) :
    ∃ s' : Cse She, s'.pram = report p' .noError ∧ s'.engine = e' ∧
      exec (cseHw (she P latency)) (writeCommandHeader cmd .copy .first (keyOf cmd)) s =
        (.done (.ok ()), s') := by
  obtain ⟨s', hpram, hengine, hexec⟩ := exec_header_done latency himpl rfl hstep
  exact ⟨s', hpram, hengine, (congrArg (exec _ _) s.store_nil.symm).trans hexec⟩

/-- The request of `load_plainkey`. -/
def keyRequest (key : Block) : Request Unit where
  writes := [(page1Offset, key.toList)]
  header := headerWord .loadPlainKey .copy .first .ramKey
  observe _ := ()

theorem key_fits (key : Block) : page1Offset + key.toList.length ≤ 128 := by
  rw [Vector.length_toList]
  decide

theorem page_keyRequest (key : Block) (p : Pram) :
    page ((keyRequest key).handed p) page1Offset = key := by
  have hordered : Ordered page1Offset (keyRequest key).writes :=
    ⟨Nat.le_refl _, key_fits key, trivial⟩
  apply Vector.toList_inj.mp
  rw [page_toList]
  have hslice := (keyRequest key).slice_handed hordered (by decide) p List.mem_cons_self
  rwa [Vector.length_toList] at hslice

end CommandsLemmas

open CommandsLemmas

/-- `init_rng`. -/
theorem exec_initRng (P : Primitives) (hidle : s.engine.job = .idle) :
    ∃ s' : Cse She, s'.engine = s.engine ∧
      exec (cseHw (she P latency)) initRng s = (.done (.ok ()), s') := by
  have hstep (p : Pram) : s.engine.step P .initRng .first p = some (p, s.engine) := by
    simp only [step, hidle]
  obtain ⟨s', _, hengine, hexec⟩ := exec_bare latency rfl (hstep _)
  exact ⟨s', hengine, hexec⟩

/-- `generate_rnd`. -/
theorem exec_generateRnd (P : Primitives) (hidle : s.engine.job = .idle) :
    ∃ s' : Cse She, s'.engine = { s.engine with drawn := s.engine.drawn + 1 } ∧
      exec (cseHw (she P latency)) generateRnd s =
        (.done (.ok (P.random s.engine.drawn).toList), s') := by
  have hstep (p : Pram) : s.engine.step P .rng .first p =
      some (splice p page1Offset (P.random s.engine.drawn).toList,
        { s.engine with drawn := s.engine.drawn + 1 }) := by
    simp only [step, hidle]
  obtain ⟨s', hpram, hengine, hexec⟩ := exec_bare latency rfl (hstep _)
  refine ⟨s', hengine, ?_⟩
  have hpage : slice s'.pram page1Offset 16 = (P.random s.engine.drawn).toList := by
    rw [hpram, slice_report _ _ (by decide)]
    exact slice_splice_page _ _ (by decide)
  rw [generateRnd]
  refine (exec_bind_of _ hexec).trans ?_
  refine (exec_bind_of _ (exec_readCommandBytes (by decide) (by decide))).trans ?_
  rw [List.length_replicate, hpage]
  rfl

/-- `load_plainkey`. -/
theorem exec_loadPlainkey (P : Primitives) (hidle : s.engine.job = .idle) (key : Block) :
    ∃ s' : Cse She, s'.engine = { s.engine with ramKey := key } ∧
      exec (cseHw (she P latency)) (loadPlainkey key) s = (.done (.ok ()), s') := by
  have hstep : s.engine.step P .loadPlainKey .first ((keyRequest key).handed s.pram) =
      some ((keyRequest key).handed s.pram, { s.engine with ramKey := key }) := by
    simp only [step, hidle, page_keyRequest]
  obtain ⟨s', _, hengine, hexec⟩ := exec_header_done latency rfl rfl hstep
  refine ⟨s', hengine, ?_⟩
  rw [loadPlainkey, exec_bind_of _ (exec_write (c := keyRequest key) rfl (by decide) (by decide)
    (key_fits key))]
  exact hexec

end Csec
