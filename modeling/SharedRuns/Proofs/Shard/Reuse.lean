import SharedRuns.Proofs.Shard.Visitors

/-!
# An engine that is used again

What a search finds in its engine is the work of all searches before it: cells with links of other
corpora under other patterns, a cursor somewhere, and the abort flag raised if a visitor stopped a
worker. None of this is met. Links are numbered anew and each cell is written before it is read, the
heads are cleared, and both phases rewind the cursor. So an engine with any past searches as a new
one does (`ShardEngine.search_eq_search_of_created`).
-/

namespace SharedRuns.ShardEngine

variable {settings : ShardSettings} {engine fresh : ShardEngine} {m : Stencil} {texts : List Text}
  {σ : Type}

theorem phase_search (idle : engine.phase = .idle) (texts : List Text) (m : Stencil)
    (visit : Visitor σ) (out : σ) : (engine.search texts m visit out).engine.phase = .idle := by
  obtain ⟨settings, phase, layout, arena, cursor⟩ := engine
  simp only [search, layOut]
  cases checkCorpus texts m with
  | error fault => exact idle
  | ok =>
      dsimp only
      split <;> rfl

/-- Between searches an engine is idle. -/
theorem Reachable.phase_eq (reached : Reachable settings engine) : engine.phase = .idle := by
  induction reached with
  | created made =>
      rw [create] at made
      cases checked : settings.check with
      | error flaw =>
          rw [checked] at made
          cases made
      | ok =>
          rw [checked] at made
          obtain rfl := Except.ok.inj made
          rfl
  | searched _ texts model visit out ih => exact phase_search ih texts model visit out

/-- What a search reports and with what it leaves its visitor depends on the settings only. -/
theorem search_eq_of_ready (ready : Ready settings engine) (other : Ready settings fresh)
    (single : settings.workers = 1) (word : settings.chunkSize < Position.space)
    (accepted : m.Accepted) (patterns : 0 < m.patternCount) (texts : List Text)
    (visit : Visitor σ) (out : σ) :
    (engine.search texts m visit out).out = (fresh.search texts m visit out).out ∧
      (engine.search texts m visit out).result = (fresh.search texts m visit out).result := by
  cases taken : checkCorpus texts m with
  | error fault =>
      rw [search_refused taken, search_refused taken]
      exact ⟨rfl, rfl⟩
  | ok =>
      generalize calls : (shardedMatches m settings.maxChain texts).forM visit out = ended
      obtain ⟨ended, after⟩ := ended
      obtain ⟨kept, result⟩ := search_of_calls ready single word accepted patterns taken calls
      obtain ⟨kept', result'⟩ := search_of_calls other single word accepted patterns taken calls
      exact ⟨kept.trans kept'.symm, result.trans result'.symm⟩

/-- Only a refusal says that a corpus is too large. -/
theorem refused_of_corpusTooLarge (ready : Ready settings engine) (single : settings.workers = 1)
    (word : settings.chunkSize < Position.space) (accepted : m.Accepted)
    (patterns : 0 < m.patternCount) {visit : Visitor σ} {out : σ} {symbols stencils : Nat}
    (tooLarge : (engine.search texts m visit out).result =
      .error (.corpusTooLarge symbols stencils)) :
    ∃ fault, checkCorpus texts m = .error fault := by
  cases taken : checkCorpus texts m with
  | error fault => exact ⟨fault, rfl⟩
  | ok =>
      generalize calls : (shardedMatches m settings.maxChain texts).forM visit out = ended
      obtain ⟨ended, after⟩ := ended
      obtain ⟨-, result⟩ := search_of_calls ready single word accepted patterns taken calls
      rw [tooLarge] at result
      cases ended <;> cases result

/-- Whatever an engine was used for before, and however its searches ended, it is idle, and it calls
the visitor and reports as a new engine does. If the corpus is too large, nobody is called and the
engine stays as it is. -/
theorem search_eq_search_of_created {size : Nat} {offsets : Array UInt32} {sorted : Bool}
    (made : Stencil.ofOffsets size offsets sorted = .ok m) (created : create settings = .ok fresh)
    (reached : Reachable settings engine) (single : settings.workers = 1)
    (word : settings.chunkSize < Position.space) (texts : List Text) (visit : Visitor σ) (out : σ) :
    let run := engine.search texts m visit out
    let first := fresh.search texts m visit out
    engine.phase = .idle ∧ run.engine.phase = .idle ∧ run.out = first.out ∧
      run.result = first.result ∧
      ∀ symbols stencils, run.result = .error (.corpusTooLarge symbols stencils) →
        run.out = out ∧ run.engine = engine := by
  have ready := reached.ready
  have accepted := Stencil.accepted_of_ofOffsets made
  have patterns := Stencil.patternCount_pos made
  intro run first
  obtain ⟨kept, result⟩ := search_eq_of_ready ready (ready_of_create created) single word accepted
    patterns texts visit out
  refine ⟨reached.phase_eq, phase_search reached.phase_eq texts m visit out, kept, result, ?_⟩
  intro symbols stencils tooLarge
  obtain ⟨fault, refused⟩ :=
    refused_of_corpusTooLarge ready single word accepted patterns tooLarge
  simp only [run, search_refused refused]
  exact ⟨trivial, trivial⟩

/-- A visitor has stopped the worker at its first call, and the next search reports everything. -/
theorem search_eq_search_of_created_after_failure :
    let m : Stencil := { size := 2, offsets := #[0, 1], widths := #[2], sorted := true }
    let t : Text := { id := "first", symbols := #[7, 9] }
    let u : Text := { id := "second", symbols := #[9, 7] }
    let settings : ShardSettings := { workers := 1, chunkSize := 4, maxChain := 3 }
    ∃ fresh, Stencil.ofOffsets 2 #[0, 1] true = .ok m ∧ create settings = .ok fresh ∧
      settings.workers = 1 ∧ settings.chunkSize < Position.space ∧
      let failed := fresh.search [t, u] m (Visitor.keep.stoppingAt 1 (.text "enough"))
        { out := [], calls := 0 }
      failed.result = .error (.workerStopped .reading 0 "enough") ∧
        Reachable settings failed.engine ∧ failed.engine.phase = .idle ∧
        (failed.engine.search [t, u] m Visitor.keep []).out =
          [{ a := ⟨u, 0, 2⟩, b := ⟨t, 0, 2⟩ }, { a := ⟨t, 0, 2⟩, b := ⟨u, 0, 2⟩ }] := by
  intro m t u settings
  have made : Stencil.ofOffsets 2 #[0, 1] true = .ok m := by decide
  have created : create settings = .ok { settings } := rfl
  have word : settings.chunkSize < Position.space := by decide
  have accepted := Stencil.accepted_of_ofOffsets made
  have patterns := Stencil.patternCount_pos made
  have taken : checkCorpus [t, u] m = .ok () := by rfl
  have some : 0 < (shardedMatches m 3 [t, u]).length := by
    rw [shardedMatches_of_two_texts]
    decide
  have failed := (search_of_calls (ready_of_create created) rfl word accepted patterns taken
    (Visitor.willing_keep.forM_stoppingAt_succ (.text "enough") [] some)).2
  have reached := Reachable.searched (.created created) [t, u] m
    (Visitor.keep.stoppingAt 1 (.text "enough")) { out := [], calls := 0 }
  obtain ⟨idle, -, same, -⟩ :=
    search_eq_search_of_created made created reached rfl word [t, u] Visitor.keep []
  have kept := out_search_keep (ready_of_create created) rfl word accepted patterns taken
  rw [shardedMatches_of_two_texts] at kept
  exact ⟨_, made, created, rfl, word, failed, reached, idle, same.trans kept⟩

end SharedRuns.ShardEngine
