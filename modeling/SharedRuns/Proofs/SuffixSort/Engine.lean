import Mathlib.Data.List.Permutation
import Mathlib.Data.List.Sort
import SharedRuns.Proofs.BruteForce
import SharedRuns.Proofs.SuffixSort.Order
import SharedRuns.SuffixSort

/-!
# What a suffix engine reports

An engine reports the pairs of windows with one content, by the content in lexicographic order and
then in the order of the tape. A search leaves rows in which the next one can be made: all that it
needs of them is their sizes, and it starts from the suffixes in their order. So every search of an
engine reports the same.
-/

namespace SharedRuns

namespace SortPlan

theorem ready_of_embeds {p : SortPlan} {texts : List Text} (laid : p.tape.LaidOut texts)
    {rank : Symbol → UInt32} (embeds : p.keyTable.Embeds p.tape.symbols rank) : p.Ready where
  size_keys := by rw [embeds.keys, Array.size_map, Tape.symbols, Array.size_map, Tape.size]
  key_lt key member := by
    rw [embeds.keys] at member
    obtain ⟨x, inTape, rfl⟩ := Array.mem_map.mp member
    exact embeds.lt_alphabet x inTape
  size_lt := laid.size_lt

end SortPlan

namespace SuffixEngine

open Checked

/-- The engine was made for the texts, and its rows have entries for their suffixes, those that were
used for counting for their keys. -/
structure Serves (engine : SuffixEngine) (texts : List Text) : Prop where
  laid : engine.plan.tape.LaidOut texts
  embeds : ∃ rank, engine.plan.keyTable.Embeds engine.plan.tape.symbols rank
  positive : 0 < engine.plan.depth
  buffer : engine.rows.buffer.size = engine.plan.suffixCount
  keyRow : engine.rows.keyRow.size = engine.plan.suffixCount
  counts : engine.plan.CountRows engine.rows.counts

theorem plan_of_create {tape : Tape} {depth : Nat} {engine : SuffixEngine}
    (created : create tape depth = .ok engine) :
    engine.plan = { tape, depth, keyTable := .ofTape tape } := by
  rw [create] at created
  split at created
  · cases created
  · cases created
    rfl

theorem counts_of_create {tape : Tape} {depth : Nat} {engine : SuffixEngine}
    (created : create tape depth = .ok engine) : engine.rows.counts = #[] := by
  rw [create] at created
  split at created
  · cases created
  · cases created
    rfl

theorem serves_of_create {tape : Tape} {texts : List Text} (laid : tape.LaidOut texts)
    {depth : Nat} {engine : SuffixEngine} (created : create tape depth = .ok engine) :
    engine.Serves texts := by
  rw [create] at created
  split at created
  · cases created
  · next positive =>
      cases created
      exact ⟨laid, TapeKeys.exists_embeds laid.size_lt (TapeKeys.ofTape_mem tape),
        Nat.pos_of_ne_zero positive, Array.size_replicate, Array.size_replicate,
        SortPlan.countRows_empty⟩

theorem create_serves {tape : Tape} {texts : List Text} (laid : tape.LaidOut texts) {depth : Nat}
    (positive : 0 < depth) :
    ∃ engine, create tape depth = .ok engine ∧ engine.plan.depth = depth ∧ engine.Serves texts := by
  have created : ∃ engine, create tape depth = .ok engine := ⟨_, if_neg (Nat.ne_of_gt positive)⟩
  obtain ⟨engine, created⟩ := created
  exact ⟨engine, created, by rw [plan_of_create created], serves_of_create laid created⟩

/-- A search reports all pairs, and leaves an engine for further ones. -/
theorem search_ok {engine : SuffixEngine} {texts : List Text} (serves : engine.Serves texts) :
    ∃ next, engine.search = .ok (pairsByContent texts engine.plan.depth, next) ∧
      next.plan = engine.plan ∧ next.Serves texts := by
  obtain ⟨plan, ⟨suffixes, buffer, keyRow, counts, found⟩⟩ := engine
  obtain ⟨laid, ⟨rank, embeds⟩, positive, bufferSize, keyRowSize, countRows⟩ := serves
  have ready := SortPlan.ready_of_embeds laid embeds
  let range := (List.range plan.suffixCount).map Nat.toUInt32
  have candidates : ∀ s ∈ range, plan.Candidate s := by
    intro s member
    obtain ⟨pos, inRange, rfl⟩ := List.mem_map.mp member
    have inside : pos < plan.tape.size - plan.depth := List.mem_range.mp inRange
    have few : plan.tape.size < Position.wordLimit := laid.size_lt
    rw [SortPlan.Candidate, Position.toNat_toUInt32 (by omega)]
    omega
  have start : (Array.range plan.suffixCount).map Nat.toUInt32 = ([] ++ range ++ []).toArray := by
    simp [range, ← List.toArray_range]
  have length : range.length = plan.suffixCount := by simp [range]
  obtain ⟨sorted, next, ran, perm, layout, progress⟩ := SortPlan.sortColumns_sorts laid ready
    plan.depth 0 (Nat.zero_add _) [] range []
    { suffixes := (Array.range plan.suffixCount).map Nat.toUInt32, buffer, keyRow, counts
      found := #[] } candidates ⟨by simp, bufferSize, keyRowSize, countRows⟩ start
  rw [List.length_nil, Nat.zero_add, length] at ran
  refine ⟨{ plan, rows := next }, ?_, rfl, laid, ⟨rank, embeds⟩, positive, ?_, ?_, ?_⟩
  · have found := progress.found
    rw [SortPlan.reported_eq_pairsByContent laid embeds positive] at found
    rw [search, ran, ok_bind, found]
    simp
  · exact progress.buffer.trans bufferSize
  · exact progress.keyRow.trans keyRowSize
  · exact progress.countRows countRows

/-- The results of searches of an engine one after another. -/
def searchTimes : Nat → SuffixEngine → Except Fault (List (List Match))
  | 0, _ => .ok []
  | n + 1, engine => do
    let (found, engine) ← engine.search
    return found :: (← searchTimes n engine)

theorem searchTimes_ok {engine : SuffixEngine} {texts : List Text} (serves : engine.Serves texts)
    (n : Nat) :
    engine.searchTimes n = .ok (List.replicate n (pairsByContent texts engine.plan.depth)) := by
  induction n generalizing engine with
  | zero => rfl
  | succ n ih =>
      obtain ⟨next, ran, plan, servesNext⟩ := search_ok serves
      have later := ih servesNext
      rw [plan] at later
      rw [searchTimes, ran, ok_bind, List.replicate_succ]
      simp only [later, ok_bind, pure_eq_ok]

/-- However often an engine is searched, each search reports the pairs of windows of the texts by
their contents in lexicographic order, and for one content in the order of the tape. -/
theorem create_searchTimes {texts : List Text} {tape : Tape} (made : Tape.ofTexts texts = .ok tape)
    {depth : Nat} (positive : 0 < depth) (n : Nat) :
    (do (← create tape depth).searchTimes n) =
      .ok (List.replicate n (pairsByContent texts depth)) := by
  obtain ⟨engine, created, rfl, serves⟩ := create_serves (Tape.laidOut_of_ofTexts made) positive
  rw [created, ok_bind, searchTimes_ok serves]

/-- The smaller symbol comes first wherever it stands, and the second search finds the same. -/
theorem create_searchTimes_twice :
    let t : Text := { id := "first", symbols := #[7, 3, 7] }
    let u : Text := { id := "second", symbols := #[3, 7] }
    let tape : Tape :=
      { texts := #[t, u]
        cells := #[⟨7, some ⟨0, 0⟩⟩, ⟨3, some ⟨0, 1⟩⟩, ⟨7, some ⟨0, 2⟩⟩, Tape.boundary Tape.barrier,
          ⟨3, some ⟨1, 0⟩⟩, ⟨7, some ⟨1, 1⟩⟩, Tape.boundary Tape.barrier,
          Tape.boundary Tape.sentinel] }
    let found : List Match :=
      [{ a := ⟨t, 1, 1⟩, b := ⟨u, 0, 1⟩ }, { a := ⟨t, 0, 1⟩, b := ⟨u, 1, 1⟩ },
        { a := ⟨t, 2, 1⟩, b := ⟨u, 1, 1⟩ }]
    Tape.ofTexts [t, u] = .ok tape ∧ 0 < 1 ∧
      (do (← create tape 1).searchTimes 2) = .ok [found, found] := by
  intro t u tape found
  have made : Tape.ofTexts [t, u] = .ok tape := by rfl
  have searched := create_searchTimes made Nat.one_pos 2
  have contents : windowContents [t, u] 1 = [[3], [7]] :=
    windowContents_eq (by decide) (by decide) (by decide)
  rw [pairsByContent, contents] at searched
  exact ⟨made, Nat.one_pos, searched⟩

/-- The engine finds the matches that a comparison of everything finds, each as often and in the
same direction, whatever symbols the texts hold and whether or not the windows fit into one. -/
theorem searchTexts_perm_bruteForce {texts : List Text} {tape : Tape}
    (made : Tape.ofTexts texts = .ok tape) {depth : Nat} (positive : 0 < depth) :
    ∃ found reference, searchTexts texts depth = .ok found ∧
      BruteForce.search texts depth = .ok reference ∧ found.Perm reference := by
  obtain ⟨engine, created, rfl, serves⟩ := create_serves (Tape.laidOut_of_ofTexts made) positive
  obtain ⟨next, searched, -, -⟩ := search_ok serves
  refine ⟨_, _, ?_, if_neg (Nat.ne_of_gt positive),
    pairsByContent_perm_allPairs texts engine.plan.depth⟩
  rw [searchTexts, made, ok_bind, created, ok_bind, searched]
  rfl

/-- Texts may hold the symbols of barriers and sentinels, and texts of one name are not compared. -/
theorem searchTexts_perm_of_boundaries :
    let t : Text := { id := "first", symbols := #[1, 0] }
    let u : Text := { id := "second", symbols := #[0, 1, 0] }
    let v : Text := { id := "first", symbols := #[1] }
    let tape : Tape :=
      { texts := #[t, u, v]
        cells := #[⟨1, some ⟨0, 0⟩⟩, ⟨0, some ⟨0, 1⟩⟩, Tape.boundary Tape.barrier,
          ⟨0, some ⟨1, 0⟩⟩, ⟨1, some ⟨1, 1⟩⟩, ⟨0, some ⟨1, 2⟩⟩, Tape.boundary Tape.barrier,
          ⟨1, some ⟨2, 0⟩⟩, Tape.boundary Tape.barrier, Tape.boundary Tape.sentinel] }
    Tape.ofTexts [t, u, v] = .ok tape ∧ 0 < 1 ∧
      ∃ found, searchTexts [t, u, v] 1 = .ok found ∧ found.Perm
        [{ a := ⟨t, 0, 1⟩, b := ⟨u, 1, 1⟩ }, { a := ⟨t, 1, 1⟩, b := ⟨u, 0, 1⟩ },
          { a := ⟨t, 1, 1⟩, b := ⟨u, 2, 1⟩ }, { a := ⟨u, 1, 1⟩, b := ⟨v, 0, 1⟩ }] := by
  intro t u v tape
  have made : Tape.ofTexts [t, u, v] = .ok tape := by rfl
  obtain ⟨found, reference, searched, compared, perm⟩ :=
    searchTexts_perm_bruteForce made Nat.one_pos
  obtain rfl := Except.ok.inj compared
  exact ⟨made, Nat.one_pos, found, searched, perm⟩

end SuffixEngine

end SharedRuns
