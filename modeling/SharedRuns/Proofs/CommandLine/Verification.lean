import SharedRuns.CommandLine.Program
import SharedRuns.Proofs.Engines.Runs
import SharedRuns.Proofs.Match.Direction
import SharedRuns.Proofs.SuffixSort.Engine

/-!
# Comparing the engines

The engines that compare runs find the same matches, so that no key differs between an engine and
the reference. But agreement also asks that an engine finds no key twice. Names may repeat in a
corpus, and where two texts of one name share a run with a third text, the matches of both have one
key: every engine counts it twice, and engines that agree are reported to differ on no key
(`run_verify`). Without repeated names no key repeats (`nodup_keys_allPairs`).
-/

namespace SharedRuns

open MatchMultiset (keys)

variable {texts : List Text} {length : Nat}

/-- The name and the start by which a window is known in a match set. -/
def Side.tag (s : Side) : String × Nat := (s.text.id, s.offset)

/-- The key of a match between windows of the given tags, turned so that the smaller name comes
first. -/
def RecordKey.ofTags (p : (String × Nat) × (String × Nat)) : RecordKey :=
  oriented { textA := p.1.1, textB := p.2.1, offsetA := p.1.2, offsetB := p.2.2 }

theorem RecordKey.ofTags_eq {p q : (String × Nat) × (String × Nat)} (same : ofTags p = ofTags q) :
    p = q ∨ p = q.swap := by
  obtain ⟨⟨a, i⟩, ⟨b, j⟩⟩ := p
  obtain ⟨⟨c, k⟩, ⟨d, l⟩⟩ := q
  simp only [ofTags, oriented, RecordKey.swap] at same
  split at same <;> split at same <;> simp_all

theorem RecordKey.nodup_map_ofTags {tags : List (String × Nat)} (nodup : tags.Nodup) :
    ((pairs tags).map ofTags).Nodup := by
  refine List.Nodup.map_on ?_ (nodup_pairs nodup)
  intro p inP q inQ same
  rcases ofTags_eq same with same | swapped
  · exact same
  · exact absurd (swapped ▸ inP) (swap_notMem_pairs nodup inQ)

theorem pairsOf_sublist (sides : List Side) :
    (pairsOf sides).Sublist ((pairs sides).map fun p => { a := p.1, b := p.2 }) := by
  induction sides with
  | nil => exact .slnil
  | cons s rest ih =>
      rw [pairsOf, pairs, List.map_append, List.map_map]
      exact (List.filter_sublist.map _).append ih

/-- A window is known by the name of its text and its start, if no name repeats. -/
theorem nodup_tags_windows (distinct : (texts.map Text.id).Nodup) :
    ((windows texts length).map Side.tag).Nodup := by
  rw [windows, List.map_flatMap, List.nodup_flatMap]
  constructor
  · intro t _
    rw [Text.windows, List.map_map]
    exact List.nodup_range.map fun i j same => (Prod.mk.inj same).2
  · refine (List.pairwise_map.mp distinct).imp fun {t u} different tag inT inU => different ?_
    obtain ⟨s, ofT, rfl⟩ := List.mem_map.mp inT
    obtain ⟨s', ofU, same⟩ := List.mem_map.mp inU
    rw [← text_of_mem_windows ofT, ← text_of_mem_windows ofU]
    exact (Prod.mk.inj same).1.symm

/-- The key under which a match is counted. -/
def Match.key (m : Match) : RecordKey := .ofTags (m.a.tag, m.b.tag)

theorem keys_records (found : List Match) :
    keys true (Engines.records found) = found.map Match.key := by
  rw [keys, Engines.records, List.map_map]
  rfl

/-- No key repeats in a corpus in which no name does. -/
theorem nodup_keys_allPairs (distinct : (texts.map Text.id).Nodup) :
    (keys true (Engines.records (BruteForce.allPairs length texts))).Nodup := by
  have found : (BruteForce.allPairs length texts).Perm
      ((pairsOf (windows texts length)).filter fun m => m.Agrees) :=
    (pairsByContent_perm_allPairs texts length).symm.trans (pairsByContent_perm texts length)
  have tags : ((windows texts length).map Side.tag).Nodup := nodup_tags_windows distinct
  have tagged := RecordKey.nodup_map_ofTags tags
  rw [pairs_map, List.map_map] at tagged
  have ofPairs : ((pairsOf (windows texts length)).map Match.key).Nodup := by
    refine List.Nodup.sublist ((pairsOf_sublist _).map Match.key) ?_
    rw [List.map_map]
    exact tagged
  rw [keys_records, (found.map Match.key).nodup_iff]
  exact ofPairs.sublist (List.filter_sublist.map Match.key)

namespace Tape

theorem LaidOut.holdable {tape : Tape} (laid : tape.LaidOut texts) (few : texts.length ≤ binCount) :
    Holdable texts := by
  refine ⟨Nat.le_trans few (by decide), fun t member => ?_⟩
  obtain ⟨number, inList, rfl⟩ := List.mem_iff_getElem.mp member
  have present := List.getElem?_eq_getElem inList
  have inside := blockStart_lt present inList (Nat.le_refl texts.length)
  have small := laid.size_lt
  rw [laid.size_eq] at small
  omega

end Tape

namespace Engines

open Checked

theorem radix_ok {tape : Tape} (made : Tape.ofTexts texts = .ok tape) (positive : 0 < length) :
    ∃ found, radix texts length = .ok (records found) ∧
      found.Perm (BruteForce.allPairs length texts) := by
  obtain ⟨engine, created, rfl, serves⟩ :=
    SuffixEngine.create_serves (Tape.laidOut_of_ofTexts made) positive
  obtain ⟨next, searched, -, -⟩ := SuffixEngine.search_ok serves
  refine ⟨_, ?_, pairsByContent_perm_allPairs texts engine.plan.depth⟩
  rw [radix, SuffixEngine.searchTexts, made, ok_bind, created, ok_bind, searched]
  rfl

/-- Every match of the reference is between texts of different names. -/
theorem ids_of_mem_records {r : Record}
    (member : r ∈ records (BruteForce.allPairs length texts)) : r.textA ≠ r.textB := by
  obtain ⟨m, found, rfl⟩ := List.mem_map.mp member
  rw [BruteForce.allPairs_eq_flatMap] at found
  obtain ⟨⟨t, u⟩, -, ofPair⟩ := List.mem_flatMap.mp found
  rw [between_eq] at ofPair
  obtain ⟨s, ofT, inFilter⟩ := List.mem_flatMap.mp ofPair
  obtain ⟨other, inU, rfl⟩ := List.mem_map.mp (List.mem_filter.mp inFilter).1
  exact of_decide_eq_true (List.mem_filter.mp inU).2

theorem keys_flip {found : List Record} (apart : ∀ r ∈ found, r.textA ≠ r.textB) :
    keys true (found.map Record.flip) = keys true found := by
  apply MatchMultiset.keys_eq_of_turned apart
  rw [List.forall₂_map_right_iff, List.forall₂_same]
  exact fun r _ => .inr rfl

/-- The verdict on an engine that finds the keys of the reference. -/
theorem judge_of_perm {found reference : List Record}
    (perm : (keys true found).Perm (keys true reference)) :
    judge (.ofRecords true reference) found =
      { matchCount := reference.length
        differences := []
        repeats := decide (¬ (keys true reference).Nodup) } := by
  have count := perm.length_eq
  rw [keys, keys, List.length_map, List.length_map] at count
  rw [judge, MatchMultiset.total_ofRecords, count,
    MatchMultiset.difference_ofRecords_eq_nil_iff.mpr perm, MatchMultiset.hasRepeats_ofRecords]
  simp only [perm.nodup_iff]

/-- The engines find the keys of the reference, each as often. -/
theorem compare_ok {tape : Tape} (made : Tape.ofTexts texts = .ok tape)
    (few : texts.length ≤ binCount) (positive : 0 < length) :
    ∃ online sorted, runsOnline texts length = .ok online ∧ radix texts length = .ok sorted ∧
      let reference := records (BruteForce.allPairs length texts)
      (keys true online).Perm (keys true reference) ∧
      (keys true sorted).Perm (keys true reference) ∧
      Engines.compare texts length = .ok
        { online := judge (.ofRecords true reference) online
          radix := judge (.ofRecords true reference) sorted
          referenceCount := reference.length } := by
  have holdable := (Tape.laidOut_of_ofTexts made).holdable few
  obtain ⟨online, ranOnline, permOnline⟩ := runsOnline_ok positive few holdable
  obtain ⟨sorted, ranSorted, permSorted⟩ := radix_ok made positive
  refine ⟨_, _, ranOnline, ranSorted, ?_, (permSorted.map Match.record).map _, ?_⟩
  · rw [← keys_flip fun r member => ids_of_mem_records member, ← records_flip]
    exact (permOnline.map Match.record).map _
  · rw [Engines.compare, ranOnline, ok_bind, ranSorted, ok_bind, bruteForce_ok positive, ok_bind]
    simp only [MatchMultiset.total_ofRecords, pure_eq_ok]

end Engines

/-- Entries with names and without spans are the texts of their symbols. -/
theorem Corpus.textsFrom_named (index : Nat) (named : List (String × List Symbol)) :
    textsFrom index (named.map fun (id, symbols) =>
      { id := some id, symbols, offsets := none, lengths := none }) =
      .ok (named.map fun (id, symbols) => { id, symbols := symbols.toArray }) := by
  induction named generalizing index with
  | nil => rfl
  | cons entry rest ih =>
      obtain ⟨id, symbols⟩ := entry
      have first : (Entry.mk (some id) symbols none none).toText index =
          .ok { id, symbols := symbols.toArray } := by
        simp [Entry.toText, Text.ofSpans, Span.check, Span.findOverlap]
        rfl
      rw [List.map_cons, textsFrom, first, Checked.ok_bind, ih, Checked.ok_bind]
      rfl

namespace CommandLine

open Engines

/-- The outcome that reports agreement on `count` matches. -/
def agreement (count : Nat) : Outcome where
  output :=
    "exact  agrees: " ++ toString count ++ " matches\n" ++
      (("radix  agrees: " ++ toString count ++ " matches\n") ++
        ("slow   reference: " ++ toString count ++ " matches\n"))
  exit := .success

/-- The outcome that reports a disagreement of engines that differ on no key. -/
def falseAlarm (path : String) (count : Nat) : Outcome where
  output :=
    "exact  DISAGREES: 0 differing keys\n" ++
      ("radix  DISAGREES: 0 differing keys\n" ++
        ("slow   reference: " ++ toString count ++ " matches\n"))
  exit := .failure { summary := "engines disagree on " ++ path }

theorem verdictText_repeats (name : String) (count : Nat) :
    verdictText name { matchCount := count, differences := [], repeats := true } =
      column name ++ " DISAGREES: 0 differing keys\n" := by
  have none : toString 0 = "0" := rfl
  show column name ++ " DISAGREES: " ++ toString 0 ++ " differing keys\n" ++ String.join [] = _
  rw [none, String.join_nil, String.append_empty]
  simp only [String.append_assoc]
  rfl

/-- The text of a comparison ends with the line of the reference. -/
theorem output_verified (path : String) (c : Comparison) :
    (verified path c).output =
      verdictText "exact" c.online ++ verdictText "radix" c.radix ++
        ("slow   reference: " ++ toString c.referenceCount ++ " matches\n") := by
  have slow (rest : String) :
      column "slow" ++ (" reference: " ++ rest) = "slow   reference: " ++ rest := by
    rw [← String.append_assoc]
    rfl
  show verdictText "exact" c.online ++ verdictText "radix" c.radix ++ column "slow" ++
    " reference: " ++ toString c.referenceCount ++ " matches\n" = _
  simp only [String.append_assoc, slow]

theorem verified_agreement (path : String) (count : Nat) :
    let v : Verdict := { matchCount := count, differences := [], repeats := false }
    verified path { online := v, radix := v, referenceCount := count } = agreement count := by
  intro v
  refine congrArg (Outcome.mk · .success none) ((output_verified path _).trans ?_)
  rw [String.append_assoc]
  rfl

theorem verified_falseAlarm (path : String) (count : Nat) :
    let v : Verdict := { matchCount := count, differences := [], repeats := true }
    verified path { online := v, radix := v, referenceCount := count } = falseAlarm path count := by
  intro v
  refine congrArg (Outcome.mk · (falseAlarm path count).exit none)
    ((output_verified path _).trans ?_)
  rw [verdictText_repeats, verdictText_repeats, String.append_assoc]
  rfl

variable {s : Surroundings} {path : String} {given : Option Nat} {tape : Tape}

/-- What is reported if the engines find the keys of the reference, each as often: agreement if no
key repeats, and otherwise a disagreement on no key. -/
theorem run_verify_of_compare {online sorted reference : List Record}
    (flags : Flags) (loaded : s.corpus path = .ok texts)
    (chosen : given.getD s.preferences.matchLength = length)
    (onlineKeys : (keys true online).Perm (keys true reference))
    (sortedKeys : (keys true sorted).Perm (keys true reference))
    (compared : Engines.compare texts length = .ok
      { online := judge (.ofRecords true reference) online
        radix := judge (.ofRecords true reference) sorted
        referenceCount := reference.length }) :
    Invocation.run s { flags, command := .verify path given } =
      if (keys true reference).Nodup then agreement reference.length
      else falseAlarm path reference.length := by
  rw [judge_of_perm onlineKeys, judge_of_perm sortedKeys] at compared
  have ran : Invocation.run s { flags, command := .verify path given } =
      verified path
        { online := ⟨reference.length, [], decide (¬ (keys true reference).Nodup)⟩
          radix := ⟨reference.length, [], decide (¬ (keys true reference).Nodup)⟩
          referenceCount := reference.length } := by
    simp only [Invocation.run, loaded, chosen, compared]
  by_cases nodup : (keys true reference).Nodup
  · rw [ran, if_pos nodup, decide_eq_false (not_not_intro nodup), verified_agreement]
  · rw [ran, if_neg nodup, decide_eq_true nodup, verified_falseAlarm]

/-- The engines always find the matches of the reference, as match sets of both directions, and
agreement on their number is reported exactly if no key repeats. No key does if no two texts have
the same name; where one does, a disagreement is reported on which no key differs. -/
theorem run_verify (flags : Flags) (loaded : s.corpus path = .ok texts)
    (few : texts.length ≤ 2 ^ 20) (made : Tape.ofTexts texts = .ok tape)
    (chosen : given.getD s.preferences.matchLength = length) (positive : 0 < length) :
    ∃ online sorted reference, runsOnline texts length = .ok online ∧
      radix texts length = .ok sorted ∧ bruteForce texts length = .ok reference ∧
      (keys true online).Perm (keys true reference) ∧
      (keys true sorted).Perm (keys true reference) ∧
      ((texts.map Text.id).Nodup → (keys true reference).Nodup) ∧
      Invocation.run s { flags, command := .verify path given } =
        if (keys true reference).Nodup then agreement reference.length
        else falseAlarm path reference.length := by
  obtain ⟨online, sorted, ranOnline, ranSorted, onlineKeys, sortedKeys, compared⟩ :=
    compare_ok made few positive
  exact ⟨online, sorted, _, ranOnline, ranSorted, bruteForce_ok positive, onlineKeys, sortedKeys,
    nodup_keys_allPairs, run_verify_of_compare flags loaded chosen onlineKeys sortedKeys compared⟩

/-- What a program finds whose only file is a corpus. -/
def corpusOnly (file : String) : Surroundings where
  fileAt _ := some file
  preferencesFile := none
  preferencesPath := ""
  processors := 1
  colors := false

theorem corpus_corpusOnly (named : List (String × List Symbol)) {file path : String}
    (read : Corpus.entries? file = some (named.map fun (id, symbols) =>
      { id := some id, symbols, offsets := none, lengths := none })) :
    (corpusOnly file).corpus path =
      .ok (named.map fun (id, symbols) => { id, symbols := symbols.toArray }) := by
  simp only [Surroundings.corpus, corpusOnly, Corpus.ofFile, read, Corpus.textsFrom_named]

/-- Two texts that share two symbols have two matches, on which the engines agree. -/
theorem run_verify_of_two_matches :
    let texts : List Text :=
      [{ id := "first", symbols := #[7, 8] }, { id := "second", symbols := #[8, 7] }]
    let s := corpusOnly ("[\x7b\"id\": \"first\", \"symbols\": [7, 8]\x7d, " ++
      "\x7b\"id\": \"second\", \"symbols\": [8, 7]\x7d]")
    let flags : Flags := { json := false, count := false, noColor := true, verbose := false }
    ∃ tape, s.corpus "corpus.json" = .ok texts ∧ texts.length ≤ 2 ^ 20 ∧
      Tape.ofTexts texts = .ok tape ∧ (some 1).getD s.preferences.matchLength = 1 ∧ 0 < 1 ∧
      Invocation.run s { flags, command := .verify "corpus.json" (some 1) } = agreement 2 := by
  intro texts s flags
  have read : Corpus.entries? ("[\x7b\"id\": \"first\", \"symbols\": [7, 8]\x7d, " ++
      "\x7b\"id\": \"second\", \"symbols\": [8, 7]\x7d]") =
      some [⟨some "first", [7, 8], none, none⟩, ⟨some "second", [8, 7], none, none⟩] := by
    decide +kernel
  have loaded : s.corpus "corpus.json" = .ok texts :=
    corpus_corpusOnly [("first", [7, 8]), ("second", [8, 7])] read
  have few : texts.length ≤ 2 ^ 20 := by decide
  have made : Tape.ofTexts texts = .ok _ := rfl
  have chosen : (some 1).getD s.preferences.matchLength = 1 := rfl
  have compared : bruteForce texts 1 =
      .ok [⟨"first", 0, 1, "second", 1, 1⟩, ⟨"first", 1, 1, "second", 0, 1⟩] := rfl
  obtain ⟨-, -, reference, -, -, same, -, -, distinct, ran⟩ :=
    run_verify flags loaded few made chosen Nat.one_pos
  obtain rfl := Except.ok.inj (compared.symm.trans same)
  exact ⟨_, loaded, few, made, chosen, Nat.one_pos, ran.trans (if_pos (distinct (by decide)))⟩

/-- Two texts of one name share a symbol with a third one. Each engine counts the one key twice, as
the reference does, and is reported to disagree. -/
theorem run_verify_of_shared_name :
    let texts : List Text :=
      [{ id := "a", symbols := #[7] }, { id := "a", symbols := #[7] },
        { id := "b", symbols := #[7] }]
    let s := corpusOnly ("[\x7b\"id\": \"a\", \"symbols\": [7]\x7d, " ++
      "\x7b\"id\": \"a\", \"symbols\": [7]\x7d, \x7b\"id\": \"b\", \"symbols\": [7]\x7d]")
    let flags : Flags := { json := false, count := false, noColor := true, verbose := false }
    ∃ tape, s.corpus "corpus.json" = .ok texts ∧ texts.length ≤ 2 ^ 20 ∧
      Tape.ofTexts texts = .ok tape ∧
      Invocation.run s { flags, command := .verify "corpus.json" (some 1) } =
        falseAlarm "corpus.json" 2 := by
  intro texts s flags
  have read : Corpus.entries? ("[\x7b\"id\": \"a\", \"symbols\": [7]\x7d, " ++
      "\x7b\"id\": \"a\", \"symbols\": [7]\x7d, \x7b\"id\": \"b\", \"symbols\": [7]\x7d]") =
      some [⟨some "a", [7], none, none⟩, ⟨some "a", [7], none, none⟩,
        ⟨some "b", [7], none, none⟩] := by
    decide +kernel
  have loaded : s.corpus "corpus.json" = .ok texts :=
    corpus_corpusOnly [("a", [7]), ("a", [7]), ("b", [7])] read
  have few : texts.length ≤ 2 ^ 20 := by decide
  have made : Tape.ofTexts texts = .ok _ := rfl
  have chosen : (some 1).getD s.preferences.matchLength = 1 := rfl
  obtain ⟨online, sorted, -, -, onlineKeys, sortedKeys, compared⟩ :=
    compare_ok made few Nat.one_pos
  have ran := run_verify_of_compare flags loaded chosen onlineKeys sortedKeys compared
  exact ⟨_, loaded, few, made, ran.trans (if_neg (by decide))⟩

end CommandLine

end SharedRuns
