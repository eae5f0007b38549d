import Mathlib.Data.List.Nodup
import Mathlib.Data.List.ProdSigma
import SharedRuns.Engines
import SharedRuns.Proofs.Index.Samples
import SharedRuns.Proofs.Shard.Engine

/-!
# A sharded engine and a sample index

Both engines compare the samples of all postings of a corpus, and store them in different ways. The
index takes the fingerprint of a sample that is put in order first, the engine that of one whose
symbols are mixed first, so their bins differ for a sorted model. `sharingPairs` is what they have
in common: the pairs of postings that share a sample, in both directions. The index reports them as
long as it can tell its texts apart, the engine as long as no bin is passed over
(`Engines.sharded_perm_samples`).
-/

namespace SharedRuns

open Checked

variable {m : Stencil} {texts : List Text} {maxChain : Nat}

/-- The pairs of postings that share a sample, each in both directions. -/
def sharingPairs (m : Stencil) (texts : List Text) : List (CorpusPosting × CorpusPosting) :=
  (postings m texts ×ˢ postings m texts).filter fun p => p.1.Shares m p.2

theorem mem_sharingPairs {p : CorpusPosting × CorpusPosting} :
    p ∈ sharingPairs m texts ↔
      (p.1 ∈ postings m texts ∧ p.2 ∈ postings m texts) ∧ p.1.Shares m p.2 := by
  rw [sharingPairs, List.mem_filter, decide_eq_true_eq, ← List.mem_product]

theorem nodup_sharingPairs : (sharingPairs m texts).Nodup :=
  (nodup_postings.product nodup_postings).filter _

/-- Nothing else is reported than pairs of postings that share a sample. -/
theorem mem_sharingPairs_of_reported {p : CorpusPosting × CorpusPosting}
    (member : p ∈ reportedPairs m maxChain texts) : p ∈ sharingPairs m texts := by
  obtain ⟨bin, -, inBin⟩ := List.mem_flatMap.mp member
  obtain ⟨q, found, direction⟩ := List.mem_flatMap.mp inBin
  obtain ⟨inPairs, shares⟩ := mem_pairsIn found
  obtain ⟨first, second⟩ := mem_of_mem_pairs inPairs
  have inFirst := (mem_heldIn.mp first).1
  have inSecond := (mem_heldIn.mp second).1
  cases List.mem_pair.mp direction with
  | inl same => exact same ▸ mem_sharingPairs.mpr ⟨⟨inFirst, inSecond⟩, shares⟩
  | inr turned => exact turned ▸ mem_sharingPairs.mpr ⟨⟨inSecond, inFirst⟩, shares_symm shares⟩

/-- Where no bin is passed over, all pairs of postings that share a sample are reported. -/
theorem reportedPairs_perm (few : ∀ bin < binCount, (heldIn m texts bin).length < maxChain) :
    (reportedPairs m maxChain texts).Perm (sharingPairs m texts) := by
  refine (List.perm_ext_iff_of_nodup nodup_reportedPairs nodup_sharingPairs).mpr fun p => ?_
  constructor
  · exact mem_sharingPairs_of_reported
  · intro member
    obtain ⟨⟨memberX, memberY⟩, shares⟩ := mem_sharingPairs.mp member
    exact mem_reportedPairs memberX memberY shares (few _ (binNumber_lt _))

theorem sharedSample?_postings {x y : CorpusPosting} (member : y ∈ postings m texts) :
    sharedSample? m x.text x.place.offset x.pattern y.text y.place.offset y.pattern =
      if x.Shares m y then some (CorpusPosting.matchOf m (x, y)) else none := by
  have fits := (mem_postings.mp member).2.2
  refine if_congr ?_ rfl rfl
  constructor
  · rintro ⟨named, -, same⟩
    exact shares_symm ⟨named, same⟩
  · intro shares
    obtain ⟨named, same⟩ := shares_symm shares
    exact ⟨named, fits, same⟩

/-- An index compares the samples of its query with those of all postings. -/
theorem sharedSamples_eq (m : Stencil) (texts : List Text) (query : Text) :
    sharedSamples m texts query = (List.range query.size).flatMap fun start₁ =>
      (List.range m.patternCount).flatMap fun k₁ =>
        if start₁ + m.widthOf k₁ ≤ query.size then
          (postings m texts).filterMap fun y =>
            sharedSample? m query start₁ k₁ y.text y.place.offset y.pattern
        else [] := by
  refine List.flatMap_congr fun start₁ _ => List.flatMap_congr fun k₁ _ => ?_
  refine if_congr Iff.rfl ?_ rfl
  rw [filterMap_postings (sharedSample? m query start₁ k₁)]
  refine List.flatMap_congr fun t _ => List.flatMap_congr fun start₂ _ =>
    List.filterMap_congr fun k₂ _ => ?_
  by_cases fits : start₂ + m.widthOf k₂ ≤ t.size
  · rw [if_pos fits]
  · rw [if_neg fits, sharedSample?, if_neg fun h => fits h.2.1]

theorem map_sharingPairs (f : CorpusPosting × CorpusPosting → Match) :
    (sharingPairs m texts).map f = (postings m texts).flatMap fun x =>
      (postings m texts).filterMap fun y => if x.Shares m y then some (f (x, y)) else none := by
  show (((postings m texts).flatMap fun x => (postings m texts).map (x, ·)).filter _).map f = _
  rw [List.filter_flatMap, List.map_flatMap]
  refine List.flatMap_congr fun x _ => ?_
  rw [filterMap_ite, List.filter_map, List.map_map]
  rfl

/-- All searches of an index together find the pairs of postings that share a sample. -/
theorem flatMap_sharedSamples (m : Stencil) (texts : List Text) :
    texts.flatMap (sharedSamples m texts) =
      (sharingPairs m texts).map (CorpusPosting.matchOf m) :=
  calc texts.flatMap (sharedSamples m texts)
      = (postings m texts).flatMap fun x => (postings m texts).filterMap fun y =>
          sharedSample? m x.text x.place.offset x.pattern y.text y.place.offset y.pattern := by
        rw [flatMap_postings fun query start₁ k₁ => (postings m texts).filterMap fun y =>
          sharedSample? m query start₁ k₁ y.text y.place.offset y.pattern]
        exact List.flatMap_congr fun query _ => sharedSamples_eq m texts query
    _ = (sharingPairs m texts).map (CorpusPosting.matchOf m) := by
        rw [map_sharingPairs]
        exact List.flatMap_congr fun x _ => List.filterMap_congr fun y member =>
          sharedSample?_postings member

namespace Engines

/-- The visitor that keeps records keeps those of all matches, and never stops its caller. -/
theorem forM_keepRecords (found : List Match) (kept : Array Record) :
    found.forM keepRecords kept = (.ok (), kept ++ (records found).toArray) := by
  induction found generalizing kept with
  | nil =>
      rw [records, List.map_nil, Array.append_empty]
      rfl
  | cons first rest ih =>
      have step : (first :: rest).forM keepRecords kept =
          rest.forM keepRecords (kept.push first.record) := rfl
      rw [step, ih]
      simp [records]

/-- A sample index of texts that it can tell apart finds the pairs that share a sample. -/
theorem samples_eq (accepted : m.Accepted) (holdable : Holdable texts)
    (few : texts.length ≤ binCount) :
    samples texts m = .ok (records ((sharingPairs m texts).map (CorpusPosting.matchOf m))) := by
  have added : texts.foldlM SampleIndex.add { model := m } = .ok (SampleIndex.ofTexts m texts) :=
    Holdable.foldlM_ok (fun _ _ => SampleIndex.add_ofTexts accepted) holdable
  have searched : texts.mapM (SampleIndex.ofTexts m texts).search =
      .ok (texts.map (sharedSamples m texts)) :=
    mapM_ok fun t _ => SampleIndex.search_ofTexts accepted holdable (.inl few) t
  rw [samples, added, ok_bind, searched, ok_bind, ← List.flatMap_def, flatMap_sharedSamples]
  rfl

end Engines

namespace ShardEngine

variable {f : Nat → Tally} {bins : List Nat} {start : Tally}

theorem degenerateBins_foldl_add :
    (bins.foldl (fun tally bin => tally.add (f bin)) start).degenerateBins = 0 ↔
      start.degenerateBins = 0 ∧ ∀ bin ∈ bins, (f bin).degenerateBins = 0 := by
  induction bins generalizing start with
  | nil => simp
  | cons bin rest ih =>
      rw [List.foldl_cons, ih, List.forall_mem_cons, Tally.add, Nat.add_eq_zero_iff, and_assoc]

/-- The number of bins that were passed over tells whether there were any. -/
theorem degenerateBins_tallyOf (enough : 2 ≤ maxChain) :
    (tallyOf m maxChain texts).degenerateBins = 0 ↔
      ∀ bin < binCount, (heldIn m texts bin).length < maxChain := by
  have ofBin : ∀ bin, (binReading m maxChain texts bin).tally.degenerateBins = 0 ↔
      (heldIn m texts bin).length < maxChain := by
    intro bin
    simp only [binReading]
    split
    · exact ⟨fun _ => by omega, fun _ => rfl⟩
    · split
      · exact ⟨fun one => absurd one Nat.one_ne_zero, fun _ => by omega⟩
      · exact ⟨fun _ => by omega, fun _ => rfl⟩
  rw [tallyOf, degenerateBins_foldl_add]
  simp only [ofBin, List.mem_range, true_and]

theorem holdable_of_checkCorpus (patterns : 0 < m.patternCount)
    (taken : checkCorpus texts m = .ok ()) : Holdable texts := by
  refine ⟨Nat.le_of_lt (few_of_checkCorpus taken), fun t member => ?_⟩
  calc t.size ≤ symbolCount texts := size_le_symbolCount member
    _ ≤ symbolCount texts * m.patternCount := Nat.le_mul_of_pos_right _ patterns
    _ < chainEnd.toNat := numbered_of_checkCorpus taken
    _ < Position.wordLimit := chainEnd.toNat_lt

end ShardEngine

namespace Engines

/-- A run of one worker that passes no bin over finds the pairs that share a sample. -/
theorem search_keepRecords {settings : ShardSettings} {engine : ShardEngine}
    (ready : ShardEngine.Ready settings engine) (single : settings.workers = 1)
    (word : settings.chunkSize < Position.space) (accepted : m.Accepted)
    (patterns : 0 < m.patternCount) (taken : ShardEngine.checkCorpus texts m = .ok ()) :
    let run := engine.search texts m keepRecords #[]
    ∃ stats, run.result = .ok stats ∧ (stats.tally.degenerateBins = 0 →
      run.out.toList.Perm (records ((sharingPairs m texts).map (CorpusPosting.matchOf m)))) := by
  have enough := (ShardEngine.bounds_of_check ready.accepted).2
  obtain ⟨kept, result⟩ := ShardEngine.search_eq ready single word accepted patterns taken
    (forM_keepRecords (shardedMatches m settings.maxChain texts) #[])
  refine ⟨_, result, fun none => ?_⟩
  have shorter : ∀ bin < binCount, (heldIn m texts bin).length < settings.maxChain :=
    (ShardEngine.degenerateBins_tallyOf enough).mp none
  have reported : (engine.search texts m keepRecords #[]).out.toList =
      records (shardedMatches m settings.maxChain texts) := by
    rw [kept, Array.empty_append]
  rw [reported]
  exact ((reportedPairs_perm shorter).map (CorpusPosting.matchOf m)).map Match.record

/-- A run of one worker over fewer postings than make a chain too long passes no bin over. -/
theorem degenerateBins_eq_zero {settings : ShardSettings} {engine : ShardEngine}
    (ready : ShardEngine.Ready settings engine) (single : settings.workers = 1)
    (word : settings.chunkSize < Position.space) (accepted : m.Accepted)
    (patterns : 0 < m.patternCount) (taken : ShardEngine.checkCorpus texts m = .ok ())
    (short : (postings m texts).length < settings.maxChain) {stats : ShardStats}
    (ended : (engine.search texts m keepRecords #[]).result = .ok stats) :
    stats.tally.degenerateBins = 0 := by
  have enough := (ShardEngine.bounds_of_check ready.accepted).2
  have reported := (ShardEngine.search_eq ready single word accepted patterns taken
    (forM_keepRecords (shardedMatches m settings.maxChain texts) #[])).2
  have shorter : ∀ bin < binCount, (heldIn m texts bin).length < settings.maxChain :=
    fun bin _ => Nat.lt_of_le_of_lt (length_heldIn_le m texts bin) short
  have counted := (ShardEngine.degenerateBins_tallyOf enough).mpr shorter
  rw [Except.ok.inj (ended.symm.trans reported), counted]

/-- However a sharded engine was used before, a run of one worker that passes no bin over finds the
matches that a sample index finds that was filled with all texts and then asked for each, as often.
Names may repeat among the texts. -/
theorem sharded_perm_samples {size : Nat} {offsets : Array UInt32} {sorted : Bool}
    (made : Stencil.ofOffsets size offsets sorted = .ok m) {settings : ShardSettings}
    {engine : ShardEngine} (reached : ShardEngine.Reachable settings engine)
    (single : settings.workers = 1) (word : settings.chunkSize < Position.space)
    (taken : ShardEngine.checkCorpus texts m = .ok ()) (few : texts.length ≤ 2 ^ 20) :
    let run := engine.search texts m keepRecords #[]
    ∃ stats found, run.result = .ok stats ∧ samples texts m = .ok found ∧
      (stats.tally.degenerateBins = 0 → run.out.toList.Perm found) := by
  have accepted := Stencil.accepted_of_ofOffsets made
  have patterns := Stencil.patternCount_pos made
  have holdable := ShardEngine.holdable_of_checkCorpus patterns taken
  obtain ⟨stats, ended, same⟩ :=
    search_keepRecords reached.ready single word accepted patterns taken
  exact ⟨stats, _, ended, samples_eq accepted holdable few, same⟩

/-- A sorted model with patterns of two widths, and two texts of one name that hold the same sample:
it is found twice from either side, and not between the two. -/
theorem sharded_perm_samples_of_shared_name :
    let m : Stencil := { size := 2, offsets := #[0, 1, 2, 0], widths := #[2, 3], sorted := true }
    let texts : List Text :=
      [{ id := "first", symbols := #[5, 6] }, { id := "second", symbols := #[6, 9, 5] },
        { id := "first", symbols := #[6, 5] }]
    let settings : ShardSettings := { workers := 1, chunkSize := 2, maxChain := 6 }
    let found : List Record :=
      [⟨"first", 0, 2, "second", 0, 3⟩, ⟨"second", 0, 3, "first", 0, 2⟩,
        ⟨"second", 0, 3, "first", 0, 2⟩, ⟨"first", 0, 2, "second", 0, 3⟩]
    Stencil.ofOffsets 2 #[0, 1, 2, 0] true = .ok m ∧
      ShardEngine.Reachable settings { settings } ∧ settings.workers = 1 ∧
      settings.chunkSize < Position.space ∧ ShardEngine.checkCorpus texts m = .ok () ∧
      texts.length ≤ 2 ^ 20 ∧
      ∃ stats, (ShardEngine.search { settings } texts m keepRecords #[]).result = .ok stats ∧
        stats.tally.degenerateBins = 0 ∧
        (ShardEngine.search { settings } texts m keepRecords #[]).out.toList.Perm found := by
  intro m texts settings found
  have made : Stencil.ofOffsets 2 #[0, 1, 2, 0] true = .ok m := by decide
  have created : ShardEngine.Reachable settings { settings } := .created rfl
  have word : settings.chunkSize < Position.space := by decide
  have taken : ShardEngine.checkCorpus texts m = .ok () := by rfl
  have few : texts.length ≤ 2 ^ 20 := by decide
  obtain ⟨stats, listed, ended, searched, same⟩ :=
    sharded_perm_samples made created rfl word taken few
  have accepted := Stencil.accepted_of_ofOffsets made
  have patterns := Stencil.patternCount_pos made
  have short : (postings m texts).length < settings.maxChain := by cbv
  have none : stats.tally.degenerateBins = 0 :=
    degenerateBins_eq_zero created.ready rfl word accepted patterns taken short ended
  have holdable := ShardEngine.holdable_of_checkCorpus patterns taken
  have all : listed = found := by
    rw [Except.ok.inj (searched.symm.trans (samples_eq accepted holdable few))]
    cbv
  exact ⟨made, created, rfl, word, taken, few, stats, ended, none, all ▸ same none⟩

end Engines

end SharedRuns
