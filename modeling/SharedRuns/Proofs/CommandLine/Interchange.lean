import SharedRuns.Proofs.CommandLine.Verification
import SharedRuns.Proofs.Engines.Samples
import SharedRuns.Proofs.Preferences
import SharedRuns.Proofs.Stencil.Width

/-!
# Engines that stand in for one another

A listing shows of its records only which there are and how often, so that two engines that find the
same ones print the same, whatever the flags say (`listed_of_perm`). Sorting the corpus and
comparing everything are such engines, for every length of matches; and so are the sample index and
a sharded engine of one worker that passes no bin over, for every gapped model
(`run_interchangeable`). Where one of such a pair refuses its arguments, the other one does, and
nothing is printed.
-/

namespace SharedRuns

variable {texts : List Text}

/-- A listing in ascending order does not depend on the order in which records were found. -/
theorem Record.sort_eq_of_perm {found others : List Record} (perm : found.Perm others) :
    sort found = sort others := by
  refine mergeSort_eq_of_perm ?_ ?_ ?_ perm
  · exact fun x y z => Std.TransOrd.isLE_trans
  · exact isLE_compare_total
  · intro x y le ge
    exact Std.LawfulEqOrd.eq_of_compare (Std.OrientedCmp.isLE_antisymm le ge)

theorem ShardEngine.create_of_check {settings : ShardSettings}
    (accepted : settings.check = .ok ()) : create settings = .ok { settings } := by
  rw [create, accepted]
  rfl

theorem Engines.sharded_of_create {m : Stencil} {settings : ShardSettings} {engine : ShardEngine}
    {stats : ShardStats} (created : ShardEngine.create settings = .ok engine)
    (ended : (engine.search texts m keepRecords #[]).result = .ok stats) :
    sharded texts m settings = .ok (engine.search texts m keepRecords #[]).out.toList := by
  rw [sharded, created]
  simp only [ended, Checked.ok_bind]
  rfl

theorem ShardEngine.checkCorpus_of_few {m : Stencil} (few : texts.length ≤ 2 ^ 20)
    (fits : ∀ symbols patterns,
      checkCorpus texts m ≠ .error (.corpusTooLarge symbols patterns)) :
    checkCorpus texts m = .ok () := by
  unfold checkCorpus at fits ⊢
  have numbered : ¬ Position.wordLimit ≤ texts.length := by
    have : 2 ^ 20 < Position.wordLimit := by decide
    omega
  rw [if_neg numbered] at fits ⊢
  split
  · rfl
  · next large => exact absurd (if_neg large) (fits _ _)

namespace CommandLine

open Checked Engines

variable {s : Surroundings} {path : String}

/-- The settings of a sharded engine for which that many workers may be asked. -/
def Surroundings.settings (s : Surroundings) (workers : Option Nat) : ShardSettings :=
  { s.preferences.settings s.processors with
    workers := workers.getD (s.preferences.settings s.processors).workers }

theorem Surroundings.chunkSize_lt (s : Surroundings) (workers : Option Nat) :
    (s.settings workers).chunkSize < Position.space := by
  show s.preferences.chunkSize < Position.space
  have default : (16 : Nat) < Position.space := by decide
  rw [preferences]
  cases s.preferencesFile with
  | none => exact default
  | some file =>
      rw [Preferences.load]
      cases read : Preferences.ofFile? file with
      | none => exact default
      | some p => exact (Preferences.words_of_ofFile? read).chunkSize

/-- The outcome is a failure that leaves nothing behind but its report. -/
def Outcome.FailsSilently (o : Outcome) : Prop := o.output = "" ∧ o.exit.code = 1

theorem Outcome.failed_silently (report : Report) : (failed report).FailsSilently := ⟨rfl, rfl⟩

/-- Engines that find the same records, as often, have the same outcome under all flags. -/
theorem listed_of_perm (s : Surroundings) (flags : Flags) {found others : List Record}
    (perm : found.Perm others) :
    listed s flags (.ok found) = listed s flags (.ok others) := by
  rw [listed, listed, listing, listing, Record.sort_eq_of_perm perm]

/-- Records in ascending order are listed as they are. -/
theorem listed_of_ascending {flags : Flags} (all : flags.count = false)
    (text : flags.json = false) {found : List Record}
    (ascending : found.Pairwise fun r s => (compare r s).isLE) :
    listed s flags (.ok found) =
      { output := Listing.lines (s.colors && !flags.noColor) found, exit := .success } := by
  have same : Record.sort found = found := List.mergeSort_of_pairwise ascending
  simp only [listed, listing, same, all, text, Bool.false_eq_true, if_false]

theorem run_radix_eq_run_slow {tape : Tape} {depth : Nat} (flags : Flags)
    (loaded : s.corpus path = .ok texts) (made : Tape.ofTexts texts = .ok tape)
    (positive : 0 < depth) :
    let slow := Invocation.run s { flags, command := .slow path (some depth) }
    Invocation.run s { flags, command := .radix path (some depth) } = slow ∧
      slow.exit = .success := by
  obtain ⟨found, ranRadix, perm⟩ := radix_ok made positive
  have reference : bruteForce texts depth = .ok _ := bruteForce_ok positive
  simp only [Invocation.run, loaded, ok_bind, Option.getD_some, ranRadix, reference]
  exact ⟨listed_of_perm s flags (perm.map Match.record), rfl⟩

theorem run_failsSilently_of_depth_zero {tape : Tape} (flags : Flags)
    (loaded : s.corpus path = .ok texts) (made : Tape.ofTexts texts = .ok tape) :
    (Invocation.run s { flags, command := .radix path (some 0) }).FailsSilently ∧
      (Invocation.run s { flags, command := .slow path (some 0) }).FailsSilently := by
  have noRadix : radix texts 0 = .error .zeroLength := by
    rw [radix, SuffixEngine.searchTexts, made]
    rfl
  have noReference : bruteForce texts 0 = .error .zeroLength := rfl
  simp only [Invocation.run, loaded, ok_bind, Option.getD_some, noRadix, noReference]
  exact ⟨Outcome.failed_silently _, Outcome.failed_silently _⟩

theorem run_failsSilently_of_no_model {size width : Nat} {sorted : Bool} {flaw : StencilFlaw}
    (flags : Flags) (loaded : s.corpus path = .ok texts)
    (refused : Stencil.gapped size width sorted = .error flaw) (workers : Option Nat) :
    (Invocation.run s { flags, command := .stencil path size width sorted }).FailsSilently ∧
      (Invocation.run s
        { flags, command := .sharded path size width sorted workers }).FailsSilently := by
  simp only [Invocation.run, loaded, ok_bind, modelOf, refused]
  exact ⟨Outcome.failed_silently _, Outcome.failed_silently _⟩

theorem modelOf_of_gapped {size width : Nat} {sorted : Bool} {m : Stencil}
    (made : Stencil.gapped size width sorted = .ok m) : modelOf size width sorted = .ok m := by
  rw [modelOf, made]
  rfl

theorem run_stencil_of_samples {size width : Nat} {sorted : Bool} {m : Stencil}
    {found : List Record} (flags : Flags) (loaded : s.corpus path = .ok texts)
    (made : Stencil.gapped size width sorted = .ok m) (sampled : samples texts m = .ok found) :
    Invocation.run s { flags, command := .stencil path size width sorted } =
      listed s flags (.ok found) := by
  simp only [Invocation.run, loaded, ok_bind, modelOf_of_gapped made, sampled]
  rfl

theorem run_sharded_of_search {size width : Nat} {sorted : Bool} {m : Stencil}
    {workers : Option Nat} {engine : ShardEngine} {stats : ShardStats} (flags : Flags)
    (loaded : s.corpus path = .ok texts) (made : Stencil.gapped size width sorted = .ok m)
    (created : ShardEngine.create (s.settings workers) = .ok engine)
    (ended : (engine.search texts m keepRecords #[]).result = .ok stats) :
    Invocation.run s { flags, command := .sharded path size width sorted workers } =
      listed s flags (.ok (engine.search texts m keepRecords #[]).out.toList) := by
  have ran : Engines.sharded texts m
      { s.preferences.settings s.processors with
        workers := workers.getD (s.preferences.settings s.processors).workers } = .ok _ :=
    sharded_of_create created ended
  simp only [Invocation.run, loaded, ok_bind, modelOf_of_gapped made, ran]
  rfl

theorem run_stencil_eq_run_sharded {size width : Nat} {sorted : Bool} {m : Stencil}
    {workers : Option Nat} (flags : Flags) (loaded : s.corpus path = .ok texts)
    (made : Stencil.gapped size width sorted = .ok m)
    (accepted : (s.settings workers).check = .ok ()) (single : (s.settings workers).workers = 1)
    (taken : ShardEngine.checkCorpus texts m = .ok ()) (few : texts.length ≤ 2 ^ 20) :
    let sharded := Invocation.run s { flags, command := .sharded path size width sorted workers }
    let engine : ShardEngine := { settings := s.settings workers }
    ∃ stats, (engine.search texts m keepRecords #[]).result = .ok stats ∧
      (stats.tally.degenerateBins = 0 →
        Invocation.run s { flags, command := .stencil path size width sorted } = sharded ∧
        sharded.exit = .success) := by
  obtain ⟨_, _, ofOffsets⟩ := Stencil.ofOffsets_of_gapped made
  have sampled := Stencil.accepted_of_ofOffsets ofOffsets
  have patterns := Stencil.patternCount_pos ofOffsets
  have created := ShardEngine.create_of_check accepted
  obtain ⟨stats, ended, perm⟩ := search_keepRecords (ShardEngine.ready_of_create created) single
    (s.chunkSize_lt workers) sampled patterns taken
  have found := samples_eq sampled (ShardEngine.holdable_of_checkCorpus patterns taken) few
  refine ⟨stats, ended, fun none => ?_⟩
  rw [run_sharded_of_search flags loaded made created ended,
    run_stencil_of_samples flags loaded made found]
  exact ⟨(listed_of_perm s flags (perm none)).symm, rfl⟩

/-- Whatever the flags say, two pairs of commands have the same outcome. Sorting the corpus and
comparing everything list the same matches of every length, if the corpus fits a tape. So do, under
every gapped model, the sample index and a sharded engine of one worker that passes no bin over, if
the texts are few and their links can be numbered. For the length 0, and where there is no model of
the size and width, both commands of the pair fail and print nothing. Names may repeat in the
corpus. -/
theorem run_interchangeable (flags : Flags) (loaded : s.corpus path = .ok texts) :
    (∀ tape depth, Tape.ofTexts texts = .ok tape →
      let radix := Invocation.run s { flags, command := .radix path (some depth) }
      let slow := Invocation.run s { flags, command := .slow path (some depth) }
      if depth = 0 then radix.FailsSilently ∧ slow.FailsSilently
      else radix = slow ∧ slow.exit = .success) ∧
    ∀ size width sorted workers, (s.settings workers).check = .ok () →
      (s.settings workers).workers = 1 → texts.length ≤ 2 ^ 20 →
      let stencil := Invocation.run s { flags, command := .stencil path size width sorted }
      let sharded := Invocation.run s { flags, command := .sharded path size width sorted workers }
      let engine : ShardEngine := { settings := s.settings workers }
      match Stencil.gapped size width sorted with
      | .error _ => stencil.FailsSilently ∧ sharded.FailsSilently
      | .ok m =>
        (∀ symbols patterns, ShardEngine.checkCorpus texts m ≠
          .error (.corpusTooLarge symbols patterns)) →
        ∃ stats, (engine.search texts m keepRecords #[]).result = .ok stats ∧
          (stats.tally.degenerateBins = 0 → stencil = sharded ∧ sharded.exit = .success) := by
  constructor
  · intro tape depth made
    split
    · next none =>
      subst none
      exact run_failsSilently_of_depth_zero flags loaded made
    · next some => exact run_radix_eq_run_slow flags loaded made (Nat.pos_of_ne_zero some)
  · intro size width sorted workers accepted single few
    dsimp only
    split
    · next refused => exact run_failsSilently_of_no_model flags loaded refused workers
    · next m made =>
      intro notTooLarge
      have taken := ShardEngine.checkCorpus_of_few few notTooLarge
      exact run_stencil_eq_run_sharded flags loaded made accepted single taken few

/-- Two texts that hold the same symbols in another order. -/
theorem run_interchangeable_of_two_texts :
    let texts : List Text :=
      [{ id := "first", symbols := #[7, 8] }, { id := "second", symbols := #[8, 7] }]
    let s := corpusOnly ("[\x7b\"id\": \"first\", \"symbols\": [7, 8]\x7d, " ++
      "\x7b\"id\": \"second\", \"symbols\": [8, 7]\x7d]")
    let flags : Flags := { json := false, count := false, noColor := true, verbose := false }
    let run (command : Command) : Outcome := Invocation.run s { flags, command }
    s.corpus "corpus.json" = .ok texts ∧ (∃ tape, Tape.ofTexts texts = .ok tape) ∧
      texts.length ≤ 2 ^ 20 ∧ (s.settings none).check = .ok () ∧ (s.settings none).workers = 1 ∧
      (∃ m, Stencil.gapped 2 2 true = .ok m ∧ ShardEngine.checkCorpus texts m = .ok ()) ∧
      (run (.radix "corpus.json" (some 0))).FailsSilently ∧
      (run (.radix "corpus.json" (some 1))).output =
        "first:0+1  second:1+1\nfirst:1+1  second:0+1\n" ∧
      run (.radix "corpus.json" (some 1)) = run (.slow "corpus.json" (some 1)) ∧
      (run (.sharded "corpus.json" 2 2 true none)).output =
        "first:0+2  second:0+2\nsecond:0+2  first:0+2\n" ∧
      run (.stencil "corpus.json" 2 2 true) = run (.sharded "corpus.json" 2 2 true none) := by
  intro texts s flags run
  have read : Corpus.entries? ("[\x7b\"id\": \"first\", \"symbols\": [7, 8]\x7d, " ++
      "\x7b\"id\": \"second\", \"symbols\": [8, 7]\x7d]") =
      some [⟨some "first", [7, 8], none, none⟩, ⟨some "second", [8, 7], none, none⟩] := by
    decide +kernel
  have loaded : s.corpus "corpus.json" = .ok texts :=
    corpus_corpusOnly [("first", [7, 8]), ("second", [8, 7])] read
  have made : Tape.ofTexts texts = .ok _ := rfl
  have few : texts.length ≤ 2 ^ 20 := by decide
  let m : Stencil := { size := 2, offsets := #[0, 1], widths := #[2], sorted := true }
  have model : Stencil.gapped 2 2 true = .ok m := by decide +kernel
  have accepted : (s.settings none).check = .ok () := rfl
  have taken : ShardEngine.checkCorpus texts m = .ok () := by rfl
  have fits (symbols patterns : Nat) : ShardEngine.checkCorpus texts m ≠
      .error (.corpusTooLarge symbols patterns) := by
    intro refused
    cases taken.symm.trans refused
  have ofOffsets : Stencil.ofOffsets 2 #[0, 1] true = .ok m := by decide
  have sampled := Stencil.accepted_of_ofOffsets ofOffsets
  have patterns := Stencil.patternCount_pos ofOffsets
  have holdable := ShardEngine.holdable_of_checkCorpus patterns taken
  obtain ⟨ofRuns, ofSamples⟩ := run_interchangeable flags loaded
  have slow : run (.slow "corpus.json" (some 1)) =
      { output := "first:0+1  second:1+1\nfirst:1+1  second:0+1\n", exit := .success } := by
    have found : bruteForce texts 1 =
        .ok [⟨"first", 0, 1, "second", 1, 1⟩, ⟨"first", 1, 1, "second", 0, 1⟩] := rfl
    simp only [run, Invocation.run, loaded, ok_bind, Option.getD_some, found]
    exact (listed_of_ascending rfl rfl (by decide +kernel)).trans (by decide +kernel)
  have stencil : run (.stencil "corpus.json" 2 2 true) =
      { output := "first:0+2  second:0+2\nsecond:0+2  first:0+2\n", exit := .success } := by
    have found : records ((sharingPairs m texts).map (CorpusPosting.matchOf m)) =
        [⟨"first", 0, 2, "second", 0, 2⟩, ⟨"second", 0, 2, "first", 0, 2⟩] := by cbv
    have sharing : samples texts m = .ok _ := found ▸ samples_eq sampled holdable few
    refine (run_stencil_of_samples flags loaded model sharing).trans ?_
    exact (listed_of_ascending rfl rfl (by decide +kernel)).trans (by decide +kernel)
  have sameRuns : run (.radix "corpus.json" (some 1)) = run (.slow "corpus.json" (some 1)) :=
    (ofRuns _ 1 made).1
  have ofModel := ofSamples 2 2 true none accepted rfl few
  rw [model] at ofModel
  obtain ⟨stats, ended, same⟩ := ofModel fits
  have short : (postings m texts).length < (s.settings none).maxChain := by decide
  have created := ShardEngine.ready_of_create (ShardEngine.create_of_check accepted)
  have complete := degenerateBins_eq_zero created rfl (s.chunkSize_lt none) sampled patterns taken
    short ended
  have sameSamples : run (.stencil "corpus.json" 2 2 true) =
      run (.sharded "corpus.json" 2 2 true none) := (same complete).1
  refine ⟨loaded, ⟨_, made⟩, few, accepted, rfl, ⟨m, model, taken⟩, (ofRuns _ 0 made).1, ?_,
    sameRuns, ?_, sameSamples⟩
  · rw [sameRuns, slow]
  · rw [← sameSamples, stencil]

end CommandLine

end SharedRuns
