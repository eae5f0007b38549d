import SharedRuns.Proofs.CommandLine.Interchange
import SharedRuns.Proofs.Shard.Reordering

/-!
# Engines on a corpus in another order

The order of a corpus decides which number a text has, where its symbols lie and from which side a
match is found first. None of this is left in what a caller makes of the records: in their
ascending order, where an engine reports both sides of each match, and in a canonical match set,
where it reports one of them (`Engines.findings_of_perm`). Names may repeat in the corpus, bins may
be passed over, and a corpus that is refused is refused in every order.
-/

namespace SharedRuns

variable {texts texts' : List Text} {length : Nat}

namespace MatchMultiset

/-- The keys of records in ascending order, both directions of a match as one key, each with the
number of records that have it. -/
def canonicalEntries (records : List Record) : List (RecordKey × Nat) :=
  (ofRecords true records).counts.toList

/-- Records with the same keys, each as often, have the same canonical match set. -/
theorem canonicalEntries_eq_of_perm {records others : List Record}
    (perm : (keys true records).Perm (keys true others)) :
    canonicalEntries records = canonicalEntries others := by
  refine Std.TreeMap.Equiv.toList_eq (.of_forall_constGet?_eq fun k => ?_)
  show (ofRecords true records).counts[k]? = (ofRecords true others).counts[k]?
  rw [getElem?_counts_ofRecords, getElem?_counts_ofRecords, perm.count_eq]
  exact if_congr perm.mem_iff rfl rfl

end MatchMultiset

open MatchMultiset (keys canonicalEntries canonicalEntries_eq_of_perm)

namespace BruteForce

theorem key_flip_of_between {t u : Text} {m : Match} (member : m ∈ between length t u) :
    m.flip.key = m.key := by
  have found : m ∈ allPairs length [t, u] := by simpa [allPairs] using member
  exact RecordKey.oriented_swap (k := .ofRecord m.record)
    (Engines.ids_of_mem_records (List.mem_map_of_mem found))

theorem keys_between_perm (t u : Text) :
    ((between length t u).map Match.key).Perm ((between length u t).map Match.key) := by
  have flipped : ((between length u t).map Match.key).Perm
      (((between length t u).map Match.flip).map Match.key) :=
    between_flip_perm.map Match.key
  rw [List.map_map] at flipped
  refine .trans (.of_eq ?_) flipped.symm
  exact List.map_congr_left fun m member => (key_flip_of_between member).symm

/-- Whatever the order of the texts, the same keys are found. -/
theorem keys_allPairs_perm (perm : texts.Perm texts') :
    ((allPairs length texts).map Match.key).Perm ((allPairs length texts').map Match.key) := by
  simp only [allPairs_eq_flatMap, List.map_flatMap]
  exact flatMap_pairs_perm keys_between_perm perm

/-- Whatever the order of the texts, the same matches are found from both sides. -/
theorem allPairs_bothWays_perm (perm : texts.Perm texts') :
    (allPairs length texts ++ (allPairs length texts).map Match.flip).Perm
      (allPairs length texts' ++ (allPairs length texts').map Match.flip) := by
  have bothWays (texts : List Text) :
      (allPairs length texts ++ (allPairs length texts).map Match.flip).Perm
        ((pairs texts).flatMap fun p => between length p.1 p.2 ++ between length p.2 p.1) := by
    have turned := flatMap_between_swap_perm length texts
    refine (turned.symm.append_left _).trans ?_
    rw [allPairs_eq_flatMap]
    exact List.flatMap_append_perm _ _ _
  refine (bothWays texts).trans (.trans ?_ (bothWays texts').symm)
  exact flatMap_pairs_perm (f := fun t u => between length t u ++ between length u t)
    (fun _ _ => List.perm_append_comm) perm

end BruteForce

namespace Tape

theorem cellCount_of_perm (perm : texts.Perm texts') : cellCount texts = cellCount texts' :=
  perm.foldr_eq' (fun _ _ _ _ _ => by omega) _

/-- Texts fit a tape in every order or in none. -/
theorem ofTexts_of_perm (perm : texts.Perm texts') :
    (ofTexts texts).map (fun _ => ()) = (ofTexts texts').map fun _ => () := by
  rw [ofTexts, ofTexts, perm.length_eq, cellCount_of_perm perm]
  split
  · rfl
  · split <;> rfl

end Tape

theorem Holdable.of_perm (holdable : Holdable texts) (perm : texts.Perm texts') :
    Holdable texts' where
  length_le := perm.length_eq ▸ holdable.length_le
  size_lt t member := holdable.size_lt t (perm.mem_iff.mpr member)

namespace Engines

open Checked

/-- What a caller makes of the records of all engines: their ascending order where an engine reports
matches from both sides, their canonical set where it does not. -/
structure Findings where
  runs : Except Fault (List Record)
  samples : Except Fault (List Record)
  sharded : Except Fault (List Record)
  radix : Except Fault (List (RecordKey × Nat))
  bruteForce : Except Fault (List (RecordKey × Nat))
  runsOnline : Except Fault (List (RecordKey × Nat))

/-- The findings in a corpus, for runs of a length and for samples under a model. -/
def findings (texts : List Text) (length : Nat) (m : Stencil) (settings : ShardSettings) :
    Findings where
  runs := (runs texts length).map Record.sort
  samples := (samples texts m).map Record.sort
  sharded := (sharded texts m settings).map Record.sort
  radix := (radix texts length).map canonicalEntries
  bruteForce := (bruteForce texts length).map canonicalEntries
  runsOnline := (runsOnline texts length).map canonicalEntries

/-- All engines have come to an end. -/
structure Findings.Complete (found : Findings) : Prop where
  runs : found.runs.isOk
  samples : found.samples.isOk
  sharded : found.sharded.isOk
  radix : found.radix.isOk
  bruteForce : found.bruteForce.isOk
  runsOnline : found.runsOnline.isOk

/-- Asked online, a run index finds the set of the reference. -/
theorem entries_runsOnline (few : texts.length ≤ binCount) (holdable : Holdable texts)
    (length : Nat) :
    (runsOnline texts length).map canonicalEntries =
      (bruteForce texts length).map canonicalEntries := by
  rcases Nat.eq_zero_or_pos length with rfl | positive
  · rfl
  · obtain ⟨found, ran, same⟩ := runsOnline_ok positive few holdable
    rw [ran, bruteForce_ok positive]
    refine congrArg Except.ok (canonicalEntries_eq_of_perm ?_)
    rw [← keys_flip fun r member => ids_of_mem_records member, ← records_flip]
    exact (same.map Match.record).map _

/-- Once the texts fit a tape, sorting finds the set of the reference. -/
theorem entries_radix (texts : List Text) (length : Nat) :
    (radix texts length).map canonicalEntries =
      (Tape.ofTexts texts).map (fun _ => ()) >>= fun _ =>
        (bruteForce texts length).map canonicalEntries := by
  cases made : Tape.ofTexts texts with
  | error fault =>
      rw [radix, SuffixEngine.searchTexts, made]
      rfl
  | ok tape =>
      rcases Nat.eq_zero_or_pos length with rfl | positive
      · rw [radix, SuffixEngine.searchTexts, made]
        rfl
      · obtain ⟨found, ran, same⟩ := radix_ok made positive
        rw [ran, bruteForce_ok positive]
        refine congrArg Except.ok (canonicalEntries_eq_of_perm ?_)
        exact (same.map Match.record).map _

theorem bruteForce_of_perm (perm : texts.Perm texts') (length : Nat) :
    (bruteForce texts length).map canonicalEntries =
      (bruteForce texts' length).map canonicalEntries := by
  rcases Nat.eq_zero_or_pos length with rfl | positive
  · rfl
  · rw [bruteForce_ok positive, bruteForce_ok positive]
    refine congrArg Except.ok (canonicalEntries_eq_of_perm ?_)
    rw [keys_records, keys_records]
    exact BruteForce.keys_allPairs_perm perm

theorem sort_records_of_perm {found others : List Match} (perm : found.Perm others) :
    Record.sort (records found) = Record.sort (records others) :=
  Record.sort_eq_of_perm (perm.map Match.record)

theorem runs_of_perm (perm : texts.Perm texts') (few : texts.length ≤ binCount)
    (holdable : Holdable texts) (length : Nat) :
    (runs texts length).map Record.sort = (runs texts' length).map Record.sort := by
  rcases Nat.eq_zero_or_pos length with rfl | positive
  · rfl
  · obtain ⟨found, ran, same⟩ := runs_ok positive few holdable
    obtain ⟨found', ran', same'⟩ :=
      runs_ok positive (perm.length_eq ▸ few) (holdable.of_perm perm)
    have reordered := (same.trans (BruteForce.allPairs_bothWays_perm perm)).trans same'.symm
    rw [ran, ran']
    exact congrArg Except.ok (sort_records_of_perm reordered)

variable {m : Stencil} {settings : ShardSettings}

theorem samples_of_perm (accepted : m.Accepted) (perm : texts.Perm texts')
    (few : texts.length ≤ binCount) (holdable : Holdable texts) :
    (samples texts m).map Record.sort = (samples texts' m).map Record.sort := by
  rw [samples_eq accepted holdable few,
    samples_eq accepted (holdable.of_perm perm) (perm.length_eq ▸ few)]
  exact congrArg Except.ok (sort_records_of_perm (sharingPairs_of_perm perm))

/-- Once the corpus is accepted, a new engine with one worker finds its matches. -/
theorem sharded_eq (checked : settings.check = .ok ()) (single : settings.workers = 1)
    (word : settings.chunkSize < Position.space) (accepted : m.Accepted)
    (patterns : 0 < m.patternCount) (texts : List Text) :
    sharded texts m settings = (ShardEngine.checkCorpus texts m).map fun _ =>
      records (shardedMatches m settings.maxChain texts) := by
  have created := ShardEngine.create_of_check checked
  cases taken : ShardEngine.checkCorpus texts m with
  | error fault =>
      rw [sharded, created]
      simp only [ShardEngine.search_refused taken]
      rfl
  | ok =>
      obtain ⟨kept, result⟩ := ShardEngine.search_eq (ShardEngine.ready_of_create created) single
        word accepted patterns taken
        (forM_keepRecords (shardedMatches m settings.maxChain texts) #[])
      rw [ShardEngine.resultOf] at result
      rw [sharded_of_create created result, kept, Array.empty_append, List.toList_toArray,
        Except.map]

theorem sharded_of_perm (checked : settings.check = .ok ()) (single : settings.workers = 1)
    (word : settings.chunkSize < Position.space) (accepted : m.Accepted)
    (patterns : 0 < m.patternCount) (perm : texts.Perm texts') :
    (sharded texts m settings).map Record.sort = (sharded texts' m settings).map Record.sort := by
  have same := sort_records_of_perm (shardedMatches_of_perm (m := m) perm settings.maxChain)
  rw [sharded_eq checked single word accepted patterns,
    sharded_eq checked single word accepted patterns, ShardEngine.checkCorpus_of_perm perm,
    map_map, map_map, same]

/-- A corpus that fits a tape and whose links can be numbered is searched by all engines. -/
theorem findings_complete (checked : settings.check = .ok ()) (single : settings.workers = 1)
    (word : settings.chunkSize < Position.space) (accepted : m.Accepted)
    (patterns : 0 < m.patternCount) (few : texts.length ≤ binCount) (positive : 0 < length)
    (fits : (Tape.ofTexts texts).isOk) (taken : ShardEngine.checkCorpus texts m = .ok ()) :
    (findings texts length m settings).Complete := by
  have holdable := ShardEngine.holdable_of_checkCorpus patterns taken
  obtain ⟨_, ranAll, -⟩ := runs_ok positive few holdable
  obtain ⟨_, ranOnline, -⟩ := runsOnline_ok positive few holdable
  obtain ⟨_, ranRadix, -⟩ : ∃ found, radix texts length = .ok (records found) ∧ _ := by
    cases made : Tape.ofTexts texts with
    | error fault =>
        rw [made] at fits
        cases fits
    | ok tape => exact radix_ok made positive
  have sampled := samples_eq accepted holdable few
  have searched := sharded_eq checked single word accepted patterns texts
  rw [taken] at searched
  constructor <;> simp only [findings, isOk_map]
  · rw [ranAll]; rfl
  · rw [sampled]; rfl
  · rw [searched]; rfl
  · rw [ranRadix]; rfl
  · rw [bruteForce_ok positive]; rfl
  · rw [ranOnline]; rfl

/-- Whatever the length, the model and the settings of one worker, the engines find the same in all
orders of a corpus: run and sample indices and sharded engines list the same records, also where
bins are passed over, and the engines that report one side of each match have the same canonical
sets. If the corpus fits a tape and its links can be numbered, all of them come to an end. -/
theorem findings_of_perm {size : Nat} {offsets : Array UInt32} {sorted : Bool}
    (made : Stencil.ofOffsets size offsets sorted = .ok m) (checked : settings.check = .ok ())
    (single : settings.workers = 1) (word : settings.chunkSize < Position.space)
    (few : texts.length ≤ 2 ^ 20) (short : ∀ t ∈ texts, t.size < 2 ^ 32)
    (perm : texts.Perm texts') (length : Nat) :
    findings texts length m settings = findings texts' length m settings ∧
      (0 < length → (Tape.ofTexts texts).isOk → ShardEngine.checkCorpus texts m = .ok () →
        (findings texts length m settings).Complete) := by
  have accepted := Stencil.accepted_of_ofOffsets made
  have patterns := Stencil.patternCount_pos made
  have holdable : Holdable texts := ⟨Nat.le_trans few (by decide), short⟩
  have few' : texts'.length ≤ binCount := perm.length_eq ▸ few
  refine ⟨?_, findings_complete checked single word accepted patterns few⟩
  simp only [findings, entries_radix, entries_runsOnline few holdable,
    entries_runsOnline few' (holdable.of_perm perm), runs_of_perm perm few holdable,
    samples_of_perm accepted perm few holdable,
    sharded_of_perm checked single word accepted patterns perm, bruteForce_of_perm perm,
    Tape.ofTexts_of_perm perm]

/-- Names repeat, and the bin of the sample that is shared is passed over. -/
theorem findings_of_perm_of_shared_name :
    let m : Stencil := { size := 2, offsets := #[0, 1], widths := #[2], sorted := true }
    let t : Text := { id := "b", symbols := #[7, 9] }
    let u : Text := { id := "a", symbols := #[9, 7, 7] }
    let v : Text := { id := "b", symbols := #[9, 7] }
    let settings : ShardSettings := { workers := 1, chunkSize := 2, maxChain := 3 }
    Stencil.ofOffsets 2 #[0, 1] true = .ok m ∧ settings.check = .ok () ∧ settings.workers = 1 ∧
      settings.chunkSize < Position.space ∧ [t, u, v].length ≤ 2 ^ 20 ∧
      (∀ text ∈ [t, u, v], text.size < 2 ^ 32) ∧ [t, u, v].Perm [v, t, u] ∧
      findings [t, u, v] 2 m settings = findings [v, t, u] 2 m settings ∧
      (findings [v, t, u] 2 m settings).bruteForce = .ok [(⟨"a", "b", 0, 0⟩, 1)] ∧
      0 < 2 ∧ (Tape.ofTexts [t, u, v]).isOk ∧ ShardEngine.checkCorpus [t, u, v] m = .ok () ∧
      (findings [t, u, v] 2 m settings).Complete := by
  intro m t u v settings
  have made : Stencil.ofOffsets 2 #[0, 1] true = .ok m := by decide
  have word : settings.chunkSize < Position.space := by decide
  have few : [t, u, v].length ≤ 2 ^ 20 := by decide
  have short : ∀ text ∈ [t, u, v], text.size < 2 ^ 32 := by
    simp only [List.forall_mem_cons]
    decide
  have perm : ([t, u] ++ [v]).Perm ([v] ++ [t, u]) := List.perm_append_comm
  have taken : ShardEngine.checkCorpus [t, u, v] m = .ok () := by rfl
  obtain ⟨same, complete⟩ := findings_of_perm made rfl rfl word few short perm 2
  have found : (findings [t, u, v] 2 m settings).bruteForce =
      .ok [(⟨"a", "b", 0, 0⟩, 1)] := by decide
  exact ⟨made, rfl, rfl, word, few, short, perm, same, same ▸ found, Nat.two_pos, rfl, taken,
    complete Nat.two_pos rfl taken⟩

end Engines

end SharedRuns
