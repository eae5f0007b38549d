import SharedRuns.Proofs.Index.Runs
import SharedRuns.Proofs.Index.Samples
import SharedRuns.Proofs.Shard.Genuine
import SharedRuns.Proofs.Shard.Visitors
import SharedRuns.Proofs.SuffixSort.Engine

/-!
# No engine reports a false match

In a large index a posting of another fingerprint may unfold to the number of a text and to a start
inside it. Then a window is looked at that was never meant, and what is reported of it is true all
the same, since a candidate is compared before it is reported. So nothing is asked here of the
number of texts or of their lengths (`Engines.reports_genuine`).
-/

namespace SharedRuns

theorem RunIndex.genuine_of_mem_search {length : Nat} {texts : List Text} {query : Text} {m : Match}
    (member : m ∈ (ofTexts length texts).search query) : m.Between [query] texts ∧ m.Agrees := by
  obtain ⟨start, inQuery, reported⟩ := List.mem_flatMap.mp member
  rw [searchAt_eq] at reported
  obtain ⟨posting, -, found⟩ := mem_reportAscending reported
  obtain ⟨other, lookup, found⟩ := Option.bind_eq_some_iff.mp found
  obtain ⟨agrees, same⟩ := Option.ite_none_right_eq_some.mp found
  obtain rfl := Option.some.inj same
  rw [texts_ofTexts, List.getElem?_toArray] at lookup
  obtain ⟨named, fits, equal⟩ := agrees_iff.mp agrees
  have inside := Window.fits_iff.mp (Text.mem_starts.mp inQuery)
  refine ⟨⟨List.mem_singleton_self query, List.mem_of_getElem? lookup, inside, fits, ?_⟩, ?_⟩
  · exact fun same => named (Eq.symm same)
  · exact equal.symm

theorem SampleIndex.genuine_of_search {model : Stencil} (accepted : model.Accepted)
    (texts : List Text) (query : Text) :
    ∃ found, (ofTexts model texts).search query = .ok found ∧
      ∀ m ∈ found, m.Between [query] texts ∧ m.AgreesUnder model := by
  refine ⟨_, search_eq accepted query, fun m member => ?_⟩
  obtain ⟨place, placed, reported⟩ := List.mem_flatMap.mp member
  obtain ⟨inside, width, fitsA⟩ := (Stencil.mem_placements accepted).mp placed
  obtain ⟨posting, -, found⟩ := mem_reportAscending reported
  obtain ⟨other, lookup, found⟩ := Option.bind_eq_some_iff.mp found
  obtain ⟨known, found⟩ := Option.ite_none_right_eq_some.mp found
  obtain ⟨⟨named, fitsB, equal⟩, same⟩ := Option.ite_none_right_eq_some.mp found
  obtain rfl := Option.some.inj same
  rw [texts_ofTexts, List.getElem?_toArray] at lookup
  rw [width] at fitsA
  refine ⟨⟨List.mem_singleton_self query, List.mem_of_getElem? lookup, fitsA, fitsB, ?_⟩, ?_⟩
  · exact fun same => named (Eq.symm same)
  · exact Match.agreesUnder_of_sampleOf inside known rfl rfl fitsA fitsB equal.symm

namespace Engines

/-- Whatever an engine was used for, and however large its corpus, each match that it reports lies
inside two texts of different names, and its windows agree: symbol by symbol for the index of runs,
for the engine that sorts, at any tape and depth, and for the comparison of everything; in a sample
under two patterns of the model for the index of samples and for the sharded engine, whether its
workers take turns or interleave, and for any visitor. -/
theorem reports_genuine :
    (∀ length index, RunIndex.create length = .ok index →
      ∀ (calls : List IndexCall) (query : Text),
        ∀ m ∈ (calls.foldl RunIndex.perform index).search query,
          m.Between [query] (heldTexts calls) ∧ m.Agrees) ∧
    (∀ size offsets sorted model, Stencil.ofOffsets size offsets sorted = .ok model →
      (∀ (calls : List IndexCall) (query : Text), ∃ found,
        (calls.foldl SampleIndex.perform { model }).search query = .ok found ∧
          ∀ m ∈ found, m.Between [query] (heldTexts calls) ∧ m.AgreesUnder model) ∧
      ∀ (engine : ShardEngine) (texts : List Text),
        (∀ (σ : Type) (visit : Visitor σ) (out : σ),
          let run := engine.search texts model visit out
          let listed := engine.search texts model visit.logged (out, [])
          (listed.result = run.result ∧ listed.out.1 = run.out) ∧
            ∀ m ∈ listed.out.2, m.Between texts texts ∧ m.AgreesUnder model) ∧
        (ShardEngine.checkCorpus texts model = .ok () →
          let plan := (engine.layOut texts model).plan texts model
          ∀ arena workers team,
            Interleaving.Steps (Interleaving.Reader.act plan arena)
              (.uniform workers {} (.claiming {})) team →
            ∀ m ∈ team.memory.calls, m.Between texts texts ∧ m.AgreesUnder model)) ∧
    (∀ texts tape, Tape.ofTexts texts = .ok tape → ∀ depth, 0 < depth → ∀ times,
      ∃ searches, (do (← SuffixEngine.create tape depth).searchTimes times) = .ok searches ∧
        ∀ found ∈ searches, ∀ m ∈ found, m.Between texts texts ∧ m.Agrees) ∧
    (∀ texts depth, 0 < depth → ∃ found, BruteForce.search texts depth = .ok found ∧
      ∀ m ∈ found, m.Between texts texts ∧ m.Agrees) := by
  refine ⟨?runs, ?models, ?tapes, ?all⟩
  case runs =>
    intro length index created calls query m member
    rw [RunIndex.eq_of_create created, RunIndex.perform_eq_ofTexts] at member
    exact RunIndex.genuine_of_mem_search member
  case models =>
    intro size offsets sorted model made
    have accepted := Stencil.accepted_of_ofOffsets made
    have patterns := Stencil.patternCount_pos made
    refine ⟨fun calls query => ?_, fun engine texts => ⟨?turns, ?interleaved⟩⟩
    · rw [SampleIndex.perform_eq_ofTexts accepted]
      exact SampleIndex.genuine_of_search accepted (heldTexts calls) query
    case turns =>
      intro σ visit out
      obtain ⟨result, kept, -⟩ := engine.search_logged texts model visit out
      exact ⟨⟨result, kept⟩, ShardEngine.genuine_of_logged accepted patterns visit out⟩
    case interleaved =>
      intro taken plan arena workers team steps m member
      have serves : plan.Serves texts :=
        ⟨rfl, rfl, accepted, ShardEngine.numbered_of_checkCorpus taken⟩
      exact Interleaving.genuine_of_steps serves patterns steps m member
  case tapes =>
    intro texts tape made depth positive times
    obtain ⟨engine, created, rfl, serves⟩ :=
      SuffixEngine.create_serves (Tape.laidOut_of_ofTexts made) positive
    refine ⟨List.replicate times (pairsByContent texts engine.plan.depth), ?_, ?_⟩
    · rw [created, Checked.ok_bind]
      exact SuffixEngine.searchTimes_ok serves times
    · intro found inSearches m member
      rw [List.eq_of_mem_replicate inSearches] at member
      exact genuine_of_mem_pairsByContent member
  case all =>
    intro texts depth positive
    refine ⟨_, if_neg (Nat.ne_of_gt positive), fun m member => ?_⟩
    exact genuine_of_mem_pairsByContent
      ((pairsByContent_perm_allPairs texts depth).mem_iff.mpr member)

/-- Two texts hold the same two symbols in another order: one symbol of them is found as a run, and
both as a sample of a sorted model. -/
theorem reports_genuine_of_two_texts :
    let model : Stencil := { size := 2, offsets := #[0, 1], widths := #[2], sorted := true }
    let t : Text := { id := "first", symbols := #[7, 9] }
    let u : Text := { id := "second", symbols := #[9, 7] }
    let engine : ShardEngine := { settings := { workers := 1, chunkSize := 4, maxChain := 3 } }
    let run : Match := { a := ⟨t, 0, 1⟩, b := ⟨u, 1, 1⟩ }
    let other : Match := { a := ⟨t, 1, 1⟩, b := ⟨u, 0, 1⟩ }
    let sample : Match := { a := ⟨t, 0, 2⟩, b := ⟨u, 0, 2⟩ }
    (∃ index, RunIndex.create 1 = .ok index ∧
      run ∈ ([.add u].foldl RunIndex.perform index).search t ∧ run.Between [t] [u] ∧ run.Agrees) ∧
    Stencil.ofOffsets 2 #[0, 1] true = .ok model ∧
    (([.add u].foldl SampleIndex.perform { model }).search t = .ok [sample] ∧
      sample.Between [t] [u] ∧ sample.AgreesUnder model) ∧
    (sample ∈ (engine.search [t, u] model (Visitor.logged Visitor.keep) ([], [])).out.2 ∧
      sample.Between [t, u] [t, u]) ∧
    ShardEngine.checkCorpus [t, u] model = .ok () ∧
    (∃ tape, Tape.ofTexts [t, u] = .ok tape ∧ 0 < 1 ∧
      (do (← SuffixEngine.create tape 1).searchTimes 1) = .ok [[run, other]] ∧
      run.Between [t, u] [t, u]) := by
  intro model t u engine run other sample
  obtain ⟨runs, models, tapes, -⟩ := reports_genuine
  have made : Stencil.ofOffsets 2 #[0, 1] true = .ok model := by decide
  have taken : ShardEngine.checkCorpus [t, u] model = .ok () := by rfl
  have held : heldTexts [.add u] = [u] := by rfl
  have holdable : Holdable [u] := held ▸ holdable_heldTexts [.add u]
  have few : Unmistakable [u] := .inl (by decide)
  have accepted := Stencil.accepted_of_ofOffsets made
  have inIndex : run ∈ ([.add u].foldl RunIndex.perform { length := 1 }).search t := by
    rw [RunIndex.perform_eq_ofTexts, held, RunIndex.search_ofTexts holdable few Nat.one_pos]
    exact List.mem_cons_self
  obtain ⟨samples, shards⟩ := models _ _ _ _ made
  obtain ⟨found, searched, genuine⟩ := samples [.add u] t
  have listed : ([.add u].foldl SampleIndex.perform { model }).search t = .ok [sample] := by
    rw [SampleIndex.perform_eq_ofTexts accepted, held,
      SampleIndex.search_ofTexts accepted holdable few]
    cbv
  obtain rfl := Except.ok.inj (searched.symm.trans listed)
  have inRun :
      sample ∈ (engine.search [t, u] model (Visitor.logged Visitor.keep) ([], [])).out.2 := by
    have created : ShardEngine.create engine.settings = .ok engine := rfl
    have word : engine.settings.chunkSize < Position.space := by decide
    have calls : (shardedMatches model 3 [t, u]).forM (Visitor.logged Visitor.keep) ([], []) =
        (.ok (), ([sample.flip, sample], [sample.flip, sample])) := by
      rw [shardedMatches_of_two_texts]
      rfl
    have called := (ShardEngine.search_of_calls (ShardEngine.ready_of_create created) rfl word
      accepted (Stencil.patternCount_pos made) taken calls).1
    rw [called]
    exact List.mem_cons_of_mem _ List.mem_cons_self
  obtain ⟨tape, laid⟩ : ∃ tape, Tape.ofTexts [t, u] = .ok tape := ⟨_, rfl⟩
  obtain ⟨searches, sorted, genuineRuns⟩ := tapes _ _ laid 1 Nat.one_pos 1
  have pair : searches = [[run, other]] := by
    obtain ⟨engine, created, plan, serves⟩ :=
      SuffixEngine.create_serves (Tape.laidOut_of_ofTexts laid) Nat.one_pos
    rw [created, Checked.ok_bind, SuffixEngine.searchTimes_ok serves, plan] at sorted
    have contents : windowContents [t, u] 1 = [[7], [9]] :=
      windowContents_eq (by decide) (by decide) (by decide)
    rw [← Except.ok.inj sorted, pairsByContent, contents]
    rfl
  subst pair
  refine ⟨⟨_, rfl, inIndex, runs 1 _ rfl [.add u] t run inIndex⟩, made,
    ⟨listed, genuine sample List.mem_cons_self⟩, ⟨inRun, ?_⟩, taken, tape, laid, Nat.one_pos,
    sorted, (genuineRuns _ List.mem_cons_self run List.mem_cons_self).1⟩
  exact (((shards engine [t, u]).1 _ Visitor.keep []).2 sample inRun).1

end Engines

end SharedRuns
