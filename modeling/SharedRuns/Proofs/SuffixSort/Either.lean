import SharedRuns.Proofs.SuffixSort.Engine
import SharedRuns.Proofs.SuffixSort.Runs

/-!
# Either encoding and either sort serve

A tape keeps its symbols as keys, or replaces them by ranks if they are large and sparse. Both are
order embeddings: they put the positions of the tape in the order of their symbols
(`TapeKeys.OrdersLike`). A search compares keys and nothing else, so that an engine with the other
keys reports the same matches in the same order (`SuffixEngine.either_encoding`).

A range of suffixes is sorted by insertion if it is short and by counting if it is long. Both are
the stable sort of the range by its keys in the column, and after both the sort goes on to the runs
of equal keys, by ascending keys (`SortPlan.SortsStably`). So it does not matter what counts as
short: with any limit an engine reports the same matches in the same order
(`SuffixEngine.either_sort`).
-/

namespace SharedRuns

namespace TapeKeys

/-- Each position has a key below the size of the alphabet, and the keys are ordered like the
symbols. -/
structure OrdersLike (t : TapeKeys) (symbols : Array Symbol) : Prop where
  size : t.keys.size = symbols.size
  lt_alphabet : ∀ (i : Nat) (h : i < t.keys.size), t.keys[i].toNat < t.alphabet
  lt_iff : ∀ (i j : Nat) (hi : i < symbols.size) (hj : j < symbols.size) (ki : i < t.keys.size)
    (kj : j < t.keys.size), t.keys[i] < t.keys[j] ↔ symbols[i] < symbols[j]

theorem Embeds.ordersLike {t : TapeKeys} {symbols : Array Symbol} {rank : Symbol → UInt32}
    (embeds : t.Embeds symbols rank) : t.OrdersLike symbols where
  size := by rw [embeds.keys, Array.size_map]
  lt_alphabet i h := by
    simp only [embeds.keys, Array.getElem_map]
    exact embeds.lt_alphabet _ (Array.getElem_mem _)
  lt_iff i j hi hj ki kj := by
    simp only [embeds.keys, Array.getElem_map]
    exact embeds.lt_iff _ (Array.getElem_mem hi) _ (Array.getElem_mem hj)

end TapeKeys

namespace SuffixEngine

/-- The engine with other keys. -/
def withKeys (engine : SuffixEngine) (t : TapeKeys) : SuffixEngine :=
  { engine with plan := { engine.plan with keyTable := t } }

/-- As long as nothing was counted, other keys serve as well. -/
theorem Serves.withKeys {engine : SuffixEngine} {texts : List Text} (serves : engine.Serves texts)
    (unused : engine.rows.counts = #[]) {t : TapeKeys} {rank : Symbol → UInt32}
    (embeds : t.Embeds engine.plan.tape.symbols rank) : (engine.withKeys t).Serves texts :=
  { serves with
    embeds := ⟨rank, embeds⟩
    counts := by
      rw [SuffixEngine.withKeys, unused]
      exact SortPlan.countRows_empty }

/-- The keys of a tape are its symbols or their ranks. Both are ordered like the symbols, and with
either of them all searches of an engine of the tape report the same list of matches. -/
theorem either_encoding {texts : List Text} {tape : Tape} (made : Tape.ofTexts texts = .ok tape) :
    TapeKeys.ofTape tape ∈ TapeKeys.encodings tape ∧
      (∀ t ∈ TapeKeys.encodings tape, t.OrdersLike tape.symbols) ∧
      ∀ depth, 0 < depth → ∃ engine, create tape depth = .ok engine ∧
        engine.plan.keyTable = .ofTape tape ∧
        ∀ t ∈ TapeKeys.encodings tape, ∀ n, (engine.withKeys t).searchTimes n =
          .ok (List.replicate n (pairsByContent texts depth)) := by
  have laid := Tape.laidOut_of_ofTexts made
  refine ⟨TapeKeys.ofTape_mem tape, fun t member => ?_, fun depth positive => ?_⟩
  · obtain ⟨rank, embeds⟩ := TapeKeys.exists_embeds laid.size_lt member
    exact embeds.ordersLike
  · obtain ⟨engine, created, sameDepth, serves⟩ := create_serves laid positive
    have plan := plan_of_create created
    refine ⟨engine, created, by rw [plan], fun t member n => ?_⟩
    obtain ⟨rank, embeds⟩ := TapeKeys.exists_embeds laid.size_lt member
    have sameTape : engine.plan.tape = tape := by rw [plan]
    rw [← sameTape] at embeds
    rw [← sameDepth]
    exact searchTimes_ok (serves.withKeys (counts_of_create created) embeds) n

/-- The two largest symbols and a small one are ranked: with the ranks 3 and 4 the same two matches
are found as with the symbols. -/
theorem either_encoding_of_largest_symbols :
    let t : Text := { id := "first", symbols := #[4294967295, 7, 4294967294] }
    let u : Text := { id := "second", symbols := #[4294967294, 4294967295] }
    let tape : Tape :=
      { texts := #[t, u]
        cells := #[⟨4294967295, some ⟨0, 0⟩⟩, ⟨7, some ⟨0, 1⟩⟩, ⟨4294967294, some ⟨0, 2⟩⟩,
          Tape.boundary Tape.barrier, ⟨4294967294, some ⟨1, 0⟩⟩, ⟨4294967295, some ⟨1, 1⟩⟩,
          Tape.boundary Tape.barrier, Tape.boundary Tape.sentinel] }
    let found : List Match :=
      [{ a := ⟨t, 2, 1⟩, b := ⟨u, 0, 1⟩ }, { a := ⟨t, 0, 1⟩, b := ⟨u, 1, 1⟩ }]
    Tape.ofTexts [t, u] = .ok tape ∧
      TapeKeys.ofTape tape = { keys := #[4, 2, 3, 1, 3, 4, 1, 0], alphabet := 5 } ∧
      ∃ engine, create tape 1 = .ok engine ∧
        (engine.withKeys (.direct tape)).searchTimes 1 = .ok [found] ∧
        (engine.withKeys (.ranked tape)).searchTimes 1 = .ok [found] := by
  intro t u tape found
  have made : Tape.ofTexts [t, u] = .ok tape := by rfl
  obtain ⟨-, -, searches⟩ := either_encoding made
  obtain ⟨engine, created, -, alike⟩ := searches 1 Nat.one_pos
  have contents : windowContents [t, u] 1 = [[7], [4294967294], [4294967295]] :=
    windowContents_eq (by decide) (by decide) (by decide)
  have reported : pairsByContent [t, u] 1 = found := by
    rw [pairsByContent, contents]
    rfl
  refine ⟨made, by cbv, engine, created, ?_, ?_⟩
  · rw [alike _ (by simp [TapeKeys.encodings]) 1, reported]
    rfl
  · rw [alike _ (by simp [TapeKeys.encodings]) 1, reported]
    rfl

end SuffixEngine

namespace SortPlan

open Checked

/-- The sort of a range by a column, with `left` columns behind it. Insertion and counting leave the
range in its stable order and nothing else changed in the row. The sort uses insertion up to the
limit and counting beyond it, goes on to the runs of equal keys, and comes to an end when it has
found `more`. -/
structure SortsStably (p : SortPlan) (left column : Nat) (before range after : List UInt32)
    (rows : SortRows) (more : List Match) : Prop where
  insertion :
    p.insertionSort column before.length (before.length + range.length) rows.suffixes =
      .ok (before ++ stableSort (p.keyNat column) range ++ after).toArray
  counting : ∃ next,
    p.countingSort column before.length (before.length + range.length) rows = .ok next ∧
      next.suffixes = (before ++ stableSort (p.keyNat column) range ++ after).toArray ∧
      next.found = rows.found
  recursion : 2 ≤ range.length → ∃ ranges,
    AreRuns before.length ((stableSort (p.keyNat column) range).map (p.keyOf column)) ranges ∧
      (range.length ≤ p.insertionLimit →
        p.sortColumns (left + 1) column before.length (before.length + range.length) rows =
          (p.insertionSort column before.length (before.length + range.length) rows.suffixes >>=
            fun suffixes => p.sortRanges left (column + 1) ranges { rows with suffixes })) ∧
      (p.insertionLimit < range.length →
        p.sortColumns (left + 1) column before.length (before.length + range.length) rows =
          (p.countingSort column before.length (before.length + range.length) rows >>=
            p.sortRanges left (column + 1) ranges))
  ends : ∃ next,
    p.sortColumns (left + 1) column before.length (before.length + range.length) rows = .ok next ∧
      next.found = rows.found ++ more.toArray

variable {p : SortPlan} {left column : Nat} {before range after : List UInt32} {rows : SortRows}

theorem sortedRow_eq_stableSort (ready : p.Ready) (inside : column < p.depth)
    (candidates : ∀ s ∈ range, p.Candidate s) :
    p.sortedRow column before range after =
      (before ++ stableSort (p.keyNat column) range ++ after).toArray := by
  rw [sortedRow, bucketSort_eq_stableSort fun s member => keyNat_lt ready inside
    (candidates s member)]

/-- After a sort by a column, its buckets are the runs of equal keys. -/
theorem areRuns_bucketRanges (ready : p.Ready) (inside : column < p.depth)
    (candidates : ∀ s ∈ range, p.Candidate s) (start : Nat) :
    AreRuns start ((stableSort (p.keyNat column) range).map (p.keyOf column))
      (p.bucketRanges column start range) := by
  have ascending : ((stableSort (p.keyNat column) range).map (p.keyOf column)).Pairwise
      (· ≤ ·) := by
    have sorted : (stableSort (p.keyNat column) range).Pairwise fun s t =>
      p.keyNat column s ≤ p.keyNat column t := stableSort_ascending range
    rw [List.pairwise_map]
    exact sorted.imp keyOf_le_iff.mpr
  rw [bucketRanges, ← runs_bucketSort, bucketSort_eq_stableSort fun s member => keyNat_lt ready
    inside (candidates s member)]
  exact runs_areRuns ascending

theorem sortsStably {texts : List Text} (laid : p.tape.LaidOut texts) (ready : p.Ready)
    (columns : column + (left + 1) = p.depth) (candidates : ∀ s ∈ range, p.Candidate s)
    (fits : p.Fits rows) (layout : rows.suffixes = (before ++ range ++ after).toArray) :
    p.SortsStably left column before range after rows (p.reported (left + 1) column range) := by
  have inside : column < p.depth := by omega
  have sorts : p.Sorts left (column + 1) := sortColumns_sorts laid ready left _ (by omega)
  have stable : p.sortedRow column before range after = _ :=
    sortedRow_eq_stableSort ready inside candidates
  have inserted : p.insertionSort column before.length (before.length + range.length)
      rows.suffixes = .ok (p.sortedRow column before range after) := by
    rw [layout]
    exact insertionSort_append ready inside before range after candidates
  refine ⟨stable ▸ inserted, ?_, fun two => ?_, ?_⟩
  · obtain ⟨next, ran, sorted, -, progress⟩ :=
      countingSort_ok ready inside candidates fits layout
    exact ⟨next, ran, sorted.trans stable, by simpa using progress.found⟩
  · refine ⟨_, areRuns_bucketRanges ready inside candidates before.length, fun few => ?_,
      fun many => ?_⟩
    · rw [inserted, ok_bind]
      exact sortColumns_by_insertion ready inside candidates layout (by omega) few
    · exact sortColumns_by_counting ready inside sorts candidates fits layout (by omega) (by omega)
  · obtain ⟨-, next, ran, -, -, progress⟩ := sortColumns_sorts laid ready (left + 1) column columns
      before range after rows candidates fits layout
    exact ⟨next, ran, progress.found⟩

end SortPlan

namespace SuffixEngine

/-- The engine with another limit for ranges that are sorted by insertion. -/
def withLimit (engine : SuffixEngine) (insertionLimit : Nat) : SuffixEngine :=
  { engine with plan := { engine.plan with insertionLimit } }

variable {engine : SuffixEngine} {texts : List Text}

theorem Serves.withLimit (serves : engine.Serves texts) (limit : Nat) :
    (engine.withLimit limit).Serves texts :=
  { serves with }

/-- What is reported of a range depends on its keys alone. -/
theorem reported_withLimit (limit left column : Nat) (range : List UInt32) :
    (engine.withLimit limit).plan.reported left column range =
      engine.plan.reported left column range := by
  induction left generalizing column range with
  | zero => rfl
  | succ left ih => exact List.flatMap_congr fun k _ => ih (column + 1) _

/-- For every range of candidates and every column, insertion and counting are the same stable sort,
followed by the same ranges. So a limit for insertion, whatever it is, changes nothing that a sort
finds in a range or that searches report. -/
theorem either_sort {tape : Tape} (made : Tape.ofTexts texts = .ok tape) {depth : Nat}
    (created : create tape depth = .ok engine) :
    (∀ left column before range after rows, column + (left + 1) = depth →
      (∀ s ∈ range, engine.plan.Candidate s) → engine.plan.Fits rows →
      rows.suffixes = (before ++ range ++ after).toArray →
      ∃ more, ∀ limit,
        (engine.withLimit limit).plan.SortsStably left column before range after rows more) ∧
      ∀ n, ∃ calls, engine.searchTimes n = .ok calls ∧
        ∀ limit, (engine.withLimit limit).searchTimes n = .ok calls := by
  have laid := Tape.laidOut_of_ofTexts made
  have serves := serves_of_create laid created
  have plan := plan_of_create created
  obtain rfl : engine.plan.depth = depth := by rw [plan]
  constructor
  · intro left column before range after rows columns candidates fits layout
    refine ⟨engine.plan.reported (left + 1) column range, fun limit => ?_⟩
    have limited := serves.withLimit limit
    obtain ⟨rank, embeds⟩ := limited.embeds
    rw [← reported_withLimit limit]
    exact SortPlan.sortsStably limited.laid (SortPlan.ready_of_embeds limited.laid embeds) columns
      candidates ⟨fits.suffixes, fits.buffer, fits.keyRow, fits.counts⟩ layout
  · intro n
    exact ⟨_, searchTimes_ok serves n, fun limit => searchTimes_ok (serves.withLimit limit) n⟩

/-- Of the suffixes 4, 3, 2 and 1 the first and the last have the same key and keep their order; the
range of these two is the one that remains to be sorted, also if nothing is sorted by insertion. -/
theorem either_sort_of_equal_keys :
    let t : Text := { id := "first", symbols := #[7, 3, 7] }
    let u : Text := { id := "second", symbols := #[3, 7] }
    let tape : Tape :=
      { texts := #[t, u]
        cells := #[⟨7, some ⟨0, 0⟩⟩, ⟨3, some ⟨0, 1⟩⟩, ⟨7, some ⟨0, 2⟩⟩, Tape.boundary Tape.barrier,
          ⟨3, some ⟨1, 0⟩⟩, ⟨7, some ⟨1, 1⟩⟩, Tape.boundary Tape.barrier,
          Tape.boundary Tape.sentinel] }
    let rows : SortRows :=
      { suffixes := #[6, 5, 4, 3, 2, 1, 0]
        buffer := Array.replicate 7 0
        keyRow := Array.replicate 7 0
        counts := #[]
        found := #[] }
    Tape.ofTexts [t, u] = .ok tape ∧ ∃ engine, create tape 1 = .ok engine ∧
      engine.plan.insertionSort 0 2 6 rows.suffixes = .ok #[6, 5, 3, 4, 1, 2, 0] ∧
      (∃ next, engine.plan.countingSort 0 2 6 rows = .ok next ∧
        next.suffixes = #[6, 5, 3, 4, 1, 2, 0]) ∧
      ∃ ranges, SortPlan.AreRuns 2 [1, 3, 3, 7] ranges ∧ (3, 5) ∈ ranges ∧
        let p := (engine.withLimit 0).plan
        p.sortColumns 1 0 2 6 rows = (p.countingSort 0 2 6 rows >>= p.sortRanges 0 1 ranges) := by
  intro t u tape rows
  have made : Tape.ofTexts [t, u] = .ok tape := by rfl
  obtain ⟨engine, created⟩ : ∃ engine, create tape 1 = .ok engine := ⟨_, rfl⟩
  have plan := plan_of_create created
  have sorted : stableSort (engine.plan.keyNat 0) [4, 3, 2, 1] = [3, 4, 1, 2] := by
    rw [plan]
    cbv
  have keys : [3, 4, 1, 2].map (engine.plan.keyOf 0) = [1, 3, 3, 7] := by
    rw [plan]
    cbv
  have fits : engine.plan.Fits rows := by
    rw [plan]
    exact ⟨rfl, rfl, rfl, SortPlan.countRows_empty⟩
  obtain ⟨alike, -⟩ := either_sort made created
  obtain ⟨more, stably⟩ := alike 0 0 [6, 5] [4, 3, 2, 1] [0] rows rfl
    (by simp [plan, SortPlan.Candidate, tape, Tape.size]) fits rfl
  have inserted := (stably 0).insertion
  obtain ⟨next, counted, suffixes, -⟩ := (stably 0).counting
  obtain ⟨ranges, areRuns, -, long⟩ := (stably 0).recursion (by decide)
  have same : stableSort ((engine.withLimit 0).plan.keyNat 0) [4, 3, 2, 1] = [3, 4, 1, 2] := sorted
  rw [same] at inserted suffixes areRuns
  have areRuns : SortPlan.AreRuns 2 [1, 3, 3, 7] ranges := keys ▸ areRuns
  refine ⟨made, engine, created, inserted, ⟨next, counted, suffixes⟩, ranges, areRuns, ?_,
    long (Nat.succ_pos 3)⟩
  exact (areRuns.mem_iff _).mpr ⟨3, [1], 2, [7], rfl, by decide, by decide, by decide, rfl⟩

end SuffixEngine

end SharedRuns
