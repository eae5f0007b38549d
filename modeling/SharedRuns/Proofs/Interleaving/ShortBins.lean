import SharedRuns.Proofs.Interleaving.Run
import SharedRuns.Proofs.Shard.ShortBins

/-!
# Which bins a search reads

Whether the workers of a search take turns or interleave: the bins that have fewer postings than the
limit are read, and the others are passed over (`search_reads_short_bins`). So a pair of postings is
dropped that fills a bin exactly up to the limit (`search_drops_full_bin`).
-/

namespace SharedRuns.Interleaving

open ShardEngine

variable {settings : ShardSettings} {engine : ShardEngine} {m : Stencil} {texts : List Text}

/-- Some interleaving of the workers comes to an end, and each one that does has read the bins below
the limit. -/
theorem readsBelow_of_search (ready : Ready settings engine) (accepted : m.Accepted)
    (taken : checkCorpus texts m = .ok ())
    (room : max (symbolCount texts) binCount + (settings.workers + 1) * settings.chunkSize ≤
      Position.space) :
    (∃ result calls, Search engine texts m result calls) ∧
      ∀ result calls, Search engine texts m result calls →
        ReadsBelow m settings.maxChain texts result calls := by
  have prepared := prepared_of_ready ready accepted taken room
  have enough := (bounds_of_check ready.accepted).2
  have workers : (engine.layOut texts m).settings.workers = settings.workers :=
    congrArg ShardSettings.workers ready.settings_eq
  have maxChain : ((engine.layOut texts m).plan texts m).maxChain = settings.maxChain :=
    congrArg ShardSettings.maxChain ready.settings_eq
  simp only [Search, taken, workers]
  constructor
  · obtain ⟨calls, postings, tally, run⟩ := prepared.exists_run
    exact ⟨_, calls, postings, tally, run, rfl⟩
  · rintro result calls ⟨postings, tally, run, rfl⟩
    obtain ⟨called, -, tallied⟩ := prepared.eq_of_run run
    rw [maxChain] at called tallied
    exact readsBelow_of_perm enough called tallied _ _

/-- Whatever the model, the corpus and the settings: a search reports each pair of postings that
share a sample in a bin of fewer than `maxChain` postings, in both directions, nothing else, and
counts the other bins. So does an engine with one worker, however large its chunks are, and so does
any number of workers that interleave, as long as the cursor has room for their claims. -/
theorem search_reads_short_bins {size : Nat} {offsets : Array UInt32} {sorted : Bool}
    (made : Stencil.ofOffsets size offsets sorted = .ok m) (ready : Ready settings engine)
    (taken : checkCorpus texts m = .ok ()) :
    (settings.workers = 1 → settings.chunkSize < Position.space →
      let run := engine.search texts m Visitor.keep []
      ReadsBelow m settings.maxChain texts run.result run.out) ∧
    (max (symbolCount texts) binCount + (settings.workers + 1) * settings.chunkSize ≤
        Position.space →
      (∃ result calls, Search engine texts m result calls) ∧
        ∀ result calls, Search engine texts m result calls →
          ReadsBelow m settings.maxChain texts result calls) := by
  have accepted := Stencil.accepted_of_ofOffsets made
  have patterns := Stencil.patternCount_pos made
  have enough := (bounds_of_check ready.accepted).2
  refine ⟨fun single word => ?_, readsBelow_of_search ready accepted taken⟩
  have kept := out_search_keep ready single word accepted patterns taken
  obtain ⟨-, result⟩ := search_of_calls ready single word accepted patterns taken
    (Visitor.willing_keep.forM_eq _ [])
  simp only [kept, result, resultOf]
  exact readsBelow_of_perm enough (.refl _) rfl _ _

/-- Two texts hold the same two symbols in another order, and no bin reaches the limit. -/
theorem search_reads_short_bins_of_two_texts :
    let m : Stencil := { size := 2, offsets := #[0, 1], widths := #[2], sorted := true }
    let t : Text := { id := "first", symbols := #[7, 9] }
    let u : Text := { id := "second", symbols := #[9, 7] }
    let settings : ShardSettings := { workers := 1, chunkSize := 4, maxChain := 3 }
    let found : List Match :=
      [{ a := ⟨t, 0, 2⟩, b := ⟨u, 0, 2⟩ }, { a := ⟨u, 0, 2⟩, b := ⟨t, 0, 2⟩ }]
    ∃ engine, Stencil.ofOffsets 2 #[0, 1] true = .ok m ∧ Ready settings engine ∧
      checkCorpus [t, u] m = .ok () ∧ settings.workers = 1 ∧
      settings.chunkSize < Position.space ∧
      max (symbolCount [t, u]) binCount + (settings.workers + 1) * settings.chunkSize ≤
        Position.space ∧
      (engine.search [t, u] m Visitor.keep []).out.Perm found ∧
      ∀ result calls, Search engine [t, u] m result calls → calls.Perm found := by
  intro m t u settings found
  have made : Stencil.ofOffsets 2 #[0, 1] true = .ok m := by decide
  have ready : Ready settings { settings } := ready_of_create rfl
  have taken : checkCorpus [t, u] m = .ok () := by rfl
  have word : settings.chunkSize < Position.space := by decide
  have room : max (symbolCount [t, u]) binCount + (settings.workers + 1) * settings.chunkSize ≤
      Position.space := by decide
  obtain ⟨turns, interleaved⟩ := search_reads_short_bins made ready taken
  have all : (sharingPairsBelow m 3 [t, u]).map (CorpusPosting.matchOf m) = found := by
    rw [sharingPairsBelow_eq_self (by cbv)]
    cbv
  exact ⟨_, made, ready, taken, rfl, word, room, all ▸ (turns rfl word).calls_perm,
    fun result calls ended => all ▸ ((interleaved room).2 result calls ended).calls_perm⟩

/-- No bin holds more postings than the limit, and a pair of equal samples is dropped: the limit is
two, as is the number of postings. -/
theorem search_drops_full_bin :
    let m : Stencil := { size := 3, offsets := #[0, 1, 2], widths := #[3], sorted := false }
    let t : Text := { id := "a", symbols := #[1, 2, 3] }
    let u : Text := { id := "b", symbols := #[1, 2, 3] }
    let settings : ShardSettings := { workers := 1, chunkSize := 16, maxChain := 2 }
    ∃ engine, Stencil.ofOffsets 3 #[0, 1, 2] false = .ok m ∧ create settings = .ok engine ∧
      (∃ p, p ∈ sharingPairs m [t, u]) ∧
      (∀ bin, (heldIn m [t, u] bin).length ≤ settings.maxChain) ∧
      let run := engine.search [t, u] m Visitor.keep []
      run.out = [] ∧ ∃ stats, run.result = .ok stats ∧ stats.tally.degenerateBins ≠ 0 := by
  intro m t u settings
  have made : Stencil.ofOffsets 3 #[0, 1, 2] false = .ok m := by decide
  have created : create settings = .ok { settings } := rfl
  have accepted := Stencil.accepted_of_ofOffsets made
  have patterns := Stencil.patternCount_pos made
  have taken : checkCorpus [t, u] m = .ok () := by rfl
  have word : settings.chunkSize < Position.space := by decide
  have listed : postings m [t, u] = [⟨t, ⟨0, 0⟩, 0, 0⟩, ⟨u, ⟨1, 0⟩, 3, 0⟩] := by cbv
  have shared : (⟨t, ⟨0, 0⟩, 0, 0⟩, ⟨u, ⟨1, 0⟩, 3, 0⟩) ∈ sharingPairs m [t, u] := by
    rw [mem_sharingPairs, listed]
    exact ⟨by simp, by decide, by cbv⟩
  have kept := out_search_keep (ready_of_create created) rfl word accepted patterns taken
  obtain ⟨-, result⟩ := search_of_calls (ready_of_create created) rfl word accepted patterns taken
    (Visitor.willing_keep.forM_eq _ [])
  have passedOver : (tallyOf m 2 [t, u]).degenerateBins ≠ 0 := fun none =>
    Nat.not_lt.mpr (two_le_length_heldIn shared)
      ((degenerateBins_tallyOf (Nat.le_refl 2)).mp none _ (binNumber_lt _))
  have held (bin : Nat) : (heldIn m [t, u] bin).length ≤ 2 := by
    have most := length_heldIn_le m [t, u] bin
    rwa [listed] at most
  exact ⟨_, made, created, ⟨_, shared⟩, held, kept.trans (shardedMatches_two m _), _, result,
    passedOver⟩

end SharedRuns.Interleaving
