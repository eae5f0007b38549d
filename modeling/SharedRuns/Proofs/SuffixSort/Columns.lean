import SharedRuns.Proofs.SuffixSort.Counting
import SharedRuns.Proofs.SuffixSort.Insertion
import SharedRuns.Proofs.SuffixSort.Keys
import SharedRuns.Proofs.Tape

/-!
# What a sort finds in a range

The suffixes of a range that start a window inside a text are reported in pairs, each one with all
later ones of another name. Whatever the range holds, nothing is lost that was found before.

What is found in a range depends on the range alone, not on the way it is sorted: it is what is
found in its buckets, one after another, and after the last column the pairs of what is left
(`reported`). A sort also rearranges its range, uses the buffer and the key row, and counts columns.
The contract `Sorts` says what it leaves alone, which is what a loop over buckets needs of the sort
of each of them: everything outside the range, and the counts of the columns before its own.
-/

namespace SharedRuns

namespace SortPlan

open Checked

section Reporting

variable {p : SortPlan} {texts : List Text}

/-- The window that a suffix starts with, if it lies in one text. -/
def side? (p : SortPlan) (suffix : UInt32) : Option Side := p.tape.side? p.depth suffix.toNat

theorem reportPair_ok (laid : p.tape.LaidOut texts) {suffix : UInt32}
    (candidate : p.Candidate suffix) {n offset : Nat} {t : Text} (number : texts[n]? = some t)
    (found : Array Match) :
    p.reportPair ⟨n, offset⟩ t found suffix =
      .ok (found ++ ((Side.mk t offset p.depth).matchesWith (p.side? suffix).toList).toArray) := by
  rw [reportPair, Tape.lodging_of_lt candidate laid.size_lt, ok_bind, side?]
  cases lodged : p.tape.lodging? suffix.toNat p.depth with
  | none => simp [Tape.side?, lodged, Side.matchesWith]
  | some place =>
      obtain ⟨u, numberU, starts⟩ := laid.side?_of_lodging lodged
      rw [starts]
      simp only [laid.fetch_text numberU, ok_bind, pure_eq_ok, Option.toList_some]
      split
      · next same =>
          obtain rfl : t = u := by
            rw [same, number] at numberU
            exact Option.some.inj numberU
          simp [Side.matchesWith, Text.SameId]
      · by_cases sameId : t.SameId u <;> simp [Side.matchesWith, sameId]

theorem foldlM_reportPair (laid : p.tape.LaidOut texts) {rest : List UInt32}
    (candidates : ∀ s ∈ rest, p.Candidate s) {n offset : Nat} {t : Text}
    (number : texts[n]? = some t) (found : Array Match) :
    rest.foldlM (p.reportPair ⟨n, offset⟩ t) found =
      .ok (found ++ ((Side.mk t offset p.depth).matchesWith (rest.filterMap p.side?)).toArray) := by
  induction rest generalizing found with
  | nil => simp [Side.matchesWith]
  | cons suffix rest ih =>
      rw [List.forall_mem_cons] at candidates
      have split : (suffix :: rest).filterMap p.side? =
          (p.side? suffix).toList ++ rest.filterMap p.side? := by
        rw [List.filterMap_cons]
        cases p.side? suffix <;> rfl
      rw [List.foldlM_cons, reportPair_ok laid candidates.1 number, ok_bind, ih candidates.2, split,
        Side.matchesWith_append]
      simp

theorem reportPairs_ok (laid : p.tape.LaidOut texts) {range : List UInt32}
    (candidates : ∀ s ∈ range, p.Candidate s) (found : Array Match) :
    p.reportPairs range found = .ok (found ++ (pairsOf (range.filterMap p.side?)).toArray) := by
  induction range generalizing found with
  | nil => simp [reportPairs, pairsOf]
  | cons suffix rest ih =>
      rw [List.forall_mem_cons] at candidates
      rw [reportPairs, Tape.lodging_of_lt candidates.1 laid.size_lt, ok_bind]
      cases lodged : p.tape.lodging? suffix.toNat p.depth with
      | none =>
          have no : p.side? suffix = none := by simp [side?, Tape.side?, lodged]
          rw [List.filterMap_cons_none no]
          exact ih candidates.2 found
      | some place =>
          obtain ⟨t, number, starts⟩ := laid.side?_of_lodging lodged
          have yes : p.side? suffix = _ := starts
          rw [List.filterMap_cons_some yes, pairsOf]
          simp only [laid.fetch_text number, ok_bind]
          rw [foldlM_reportPair laid candidates.2 number, ok_bind, ih candidates.2]
          simp

end Reporting

/-- What sorting leaves of the rows: their sizes, the counts of the columns before `column`, and the
matches found before, to which `more` are added. -/
structure Progress (p : SortPlan) (column : Nat) (more : List Match) (rows next : SortRows) :
    Prop where
  suffixes : next.suffixes.size = rows.suffixes.size
  buffer : next.buffer.size = rows.buffer.size
  keyRow : next.keyRow.size = rows.keyRow.size
  countRows : p.CountRows rows.counts → p.CountRows next.counts
  counts : ∀ c < column, ∀ row, rows.counts[c]? = some row → next.counts[c]? = some row
  found : next.found = rows.found ++ more.toArray

namespace Progress

variable {p : SortPlan} {column : Nat} {more others : List Match} {rows middle next : SortRows}

theorem refl (p : SortPlan) (column : Nat) (rows : SortRows) : p.Progress column [] rows rows :=
  ⟨rfl, rfl, rfl, id, fun _ _ _ same => same, by simp⟩

theorem trans (first : p.Progress column more rows middle)
    (second : p.Progress column others middle next) :
    p.Progress column (more ++ others) rows next where
  suffixes := second.suffixes.trans first.suffixes
  buffer := second.buffer.trans first.buffer
  keyRow := second.keyRow.trans first.keyRow
  countRows before := second.countRows (first.countRows before)
  counts c before row same := second.counts c before row (first.counts c before row same)
  found := by
    rw [second.found, first.found]
    simp

theorem mono {earlier : Nat} (before : earlier ≤ column)
    (progress : p.Progress column more rows next) : p.Progress earlier more rows next :=
  { progress with
    counts := fun c less => progress.counts c (Nat.lt_of_lt_of_le less before) }

end Progress

/-- The rows have an entry for each suffix, and those that were used for counting one for each
key. -/
structure Fits (p : SortPlan) (rows : SortRows) : Prop where
  suffixes : rows.suffixes.size = p.suffixCount
  buffer : rows.buffer.size = p.suffixCount
  keyRow : rows.keyRow.size = p.suffixCount
  counts : p.CountRows rows.counts

/-- The matches in a range whose suffixes are told apart by the `left` columns from `column` on. -/
def reported (p : SortPlan) : (left column : Nat) → List UInt32 → List Match
  | 0, _, range => pairsOf (range.filterMap p.side?)
  | left + 1, column, range =>
    (List.range p.keyTable.alphabet).flatMap fun k =>
      p.reported left (column + 1) (bucket (p.keyNat column) range k)

/-- The sort of a range comes to an end: it rearranges the range, leaves everything around it and
what `Progress` says, and adds what is to be reported. -/
def SortsRange (p : SortPlan) (left column : Nat) (before range after : List UInt32)
    (rows : SortRows) : Prop :=
  ∃ sorted next,
    p.sortColumns left column before.length (before.length + range.length) rows = .ok next ∧
      sorted.Perm range ∧ next.suffixes = (before ++ sorted ++ after).toArray ∧
      p.Progress column (p.reported left column range) rows next

/-- Every range of every row that fits is sorted. -/
def Sorts (p : SortPlan) (left column : Nat) : Prop :=
  ∀ (before range after : List UInt32) (rows : SortRows), (∀ s ∈ range, p.Candidate s) →
    p.Fits rows → rows.suffixes = (before ++ range ++ after).toArray →
    p.SortsRange left column before range after rows

variable {p : SortPlan} {left column : Nat}

theorem Fits.of_progress {rows next : SortRows} {more : List Match} (fits : p.Fits rows)
    (progress : p.Progress column more rows next) : p.Fits next where
  suffixes := progress.suffixes.trans fits.suffixes
  buffer := progress.buffer.trans fits.buffer
  keyRow := progress.keyRow.trans fits.keyRow
  counts := progress.countRows fits.counts

theorem Fits.length_lt {before range after : List UInt32} {rows : SortRows} (fits : p.Fits rows)
    (ready : p.Ready) (layout : rows.suffixes = (before ++ range ++ after).toArray) :
    range.length < Position.wordLimit := by
  have size := fits.suffixes
  have words := ready.size_lt
  rw [layout, List.size_toArray, List.length_append, List.length_append, suffixCount] at size
  omega

theorem pairsOf_of_short {sides : List Side} (short : sides.length < 2) : pairsOf sides = [] := by
  match sides, short with
  | [], _ => rfl
  | [s], _ => simp [pairsOf, Side.matchesWith]

theorem reported_of_short {range : List UInt32} (short : range.length < 2) :
    p.reported left column range = [] := by
  induction left generalizing column range with
  | zero => exact pairsOf_of_short (Nat.lt_of_le_of_lt (List.length_filterMap_le _ _) short)
  | succ left ih =>
      rw [reported, List.flatMap_eq_nil_iff]
      intro k _
      exact ih (Nat.lt_of_le_of_lt (List.length_filter_le _ _) short)

theorem sortColumns_of_short {min max : Nat} (short : max - min < 2) (rows : SortRows) :
    p.sortColumns left column min max rows = .ok rows := by
  cases left <;> rw [sortColumns, if_pos short] <;> rfl

/-- Sorts one range after another. -/
def sortRanges (p : SortPlan) (left column : Nat) (ranges : List (Nat × Nat)) (rows : SortRows) :
    Except Fault SortRows :=
  ranges.foldlM (fun rows (start, stop) => p.sortColumns left column start stop rows) rows

/-- When the first of some groups has been sorted, if it needs to be, the others are left. -/
theorem sortRanges_cons {start size : Nat} {rows middle : SortRows} (sizes : List Nat)
    (ran : p.sortColumns left column start (start + size) rows = .ok middle) :
    p.sortRanges left column (groupRanges start (size :: sizes)) rows =
      p.sortRanges left column (groupRanges (start + size) sizes) middle := by
  rw [groupRanges]
  split
  · simp only [sortRanges, List.foldlM_cons, ran, ok_bind]
  · next short =>
      rw [sortColumns_of_short (by omega), Except.ok.injEq] at ran
      rw [ran]

/-- If single ranges can be sorted, so can groups of suffixes that stand one after another. -/
theorem sortGroups_ok (sorts : p.Sorts left column) (groups : List (List UInt32))
    (before after : List UInt32) (rows : SortRows)
    (candidates : ∀ s ∈ groups.flatten, p.Candidate s) (fits : p.Fits rows)
    (layout : rows.suffixes = (before ++ groups.flatten ++ after).toArray) :
    ∃ sorted next,
      p.sortRanges left column (groupRanges before.length (groups.map List.length)) rows =
        .ok next ∧
      sorted.Perm groups.flatten ∧ next.suffixes = (before ++ sorted ++ after).toArray ∧
      p.Progress column (groups.flatMap (p.reported left column)) rows next := by
  induction groups generalizing before rows with
  | nil => exact ⟨[], rows, rfl, .refl _, layout, .refl p column rows⟩
  | cons group rest ih =>
      have inGroup : ∀ s ∈ group, p.Candidate s := fun s member => candidates s (by simp [member])
      have inRest : ∀ s ∈ rest.flatten, p.Candidate s := fun s member =>
        candidates s (by rw [List.flatten_cons]; exact List.mem_append_right _ member)
      obtain ⟨sorted, middle, ran, perm, middleLayout, progress⟩ :=
        sorts before group (rest.flatten ++ after) rows inGroup fits (by simpa using layout)
      obtain ⟨others, next, ranRest, permRest, nextLayout, progressRest⟩ :=
        ih (before ++ sorted) middle inRest (fits.of_progress progress)
          (by simpa using middleLayout)
      refine ⟨sorted ++ others, next, ?_, ?_, by simpa using nextLayout, ?_⟩
      · rw [List.length_append, perm.length_eq] at ranRest
        rw [List.map_cons, sortRanges_cons _ ran, ranRest]
      · rw [List.flatten_cons]
        exact perm.append permRest
      · rw [List.flatMap_cons]
        exact progress.trans progressRest

/-- What the loop over the keys does with the bucket of one of them. -/
def sortBucket (p : SortPlan) (left column : Nat) :
    SortRows × Nat → Nat → Except Fault (SortRows × Nat)
  | (rows, start), key => do
    let count := (← fetch (← fetch rows.counts column) key).toNat
    if 1 < count then
      return (← p.sortColumns left (column + 1) start (start + count) rows, start + count)
    else return (rows, start + count)

theorem sortBucket_ok {range : List UInt32} (few : range.length < Position.wordLimit) {k : Nat}
    (inside : k < p.keyTable.alphabet) {rows middle : SortRows} {start : Nat}
    (counted : rows.counts[column]? = some (p.tally column range))
    (ran : p.sortColumns left (column + 1) start
      (start + (bucket (p.keyNat column) range k).length) rows = .ok middle) :
    p.sortBucket left column (rows, start) k =
      .ok (middle, start + (bucket (p.keyNat column) range k).length) := by
  have row : fetch rows.counts column = .ok (p.tally column range) := by
    rw [fetch, counted]
    rfl
  have count : (bucket (p.keyNat column) range k).length.toUInt32.toNat =
      (bucket (p.keyNat column) range k).length :=
    Position.toNat_toUInt32 (Nat.lt_of_le_of_lt (List.length_filter_le _ _) few)
  rw [sortBucket, row, ok_bind, tally, fetch_tabulate inside, ok_bind, count]
  dsimp only
  split
  · rw [ran, ok_bind, pure_eq_ok]
  · next short =>
      rw [sortColumns_of_short (by omega), Except.ok.injEq] at ran
      rw [ran, pure_eq_ok]

/-- The loop over the keys sorts the buckets one after another: the sort of one bucket keeps the
counts of the column, from which the next bucket is found. -/
theorem foldlM_sortBucket (sorts : p.Sorts left (column + 1)) {range : List UInt32}
    (few : range.length < Position.wordLimit) (candidates : ∀ s ∈ range, p.Candidate s)
    (keys : List Nat) (inside : ∀ k ∈ keys, k < p.keyTable.alphabet) (before after : List UInt32)
    (rows : SortRows) (counted : rows.counts[column]? = some (p.tally column range))
    (fits : p.Fits rows)
    (layout : rows.suffixes =
      (before ++ keys.flatMap (bucket (p.keyNat column) range) ++ after).toArray) :
    (do
      let (rows, _) ← keys.foldlM (p.sortBucket left column) (rows, before.length)
      return rows) =
      p.sortRanges left (column + 1)
        (groupRanges before.length (keys.map fun k => (bucket (p.keyNat column) range k).length))
        rows := by
  induction keys generalizing before rows with
  | nil => rfl
  | cons k rest ih =>
      rw [List.forall_mem_cons] at inside
      have inBucket : ∀ s ∈ bucket (p.keyNat column) range k, p.Candidate s :=
        fun s member => candidates s (mem_bucket.mp member).1
      obtain ⟨sorted, middle, ran, perm, middleLayout, progress⟩ :=
        sorts before (bucket (p.keyNat column) range k)
          (rest.flatMap (bucket (p.keyNat column) range) ++ after) rows inBucket fits
          (by simpa using layout)
      have stillCounted := progress.counts column (Nat.lt_succ_self column) _ counted
      have later := ih inside.2 (before ++ sorted) middle stillCounted (fits.of_progress progress)
        (by simpa using middleLayout)
      rw [List.length_append, perm.length_eq] at later
      rw [List.foldlM_cons, sortBucket_ok few inside.1 counted ran, ok_bind, later, List.map_cons,
        sortRanges_cons _ ran]

theorem reportRange_append {texts : List Text} (laid : p.tape.LaidOut texts)
    (before range after : List UInt32) (candidates : ∀ s ∈ range, p.Candidate s)
    (buffer keyRow : Array UInt32) (counts : Array (Array UInt32)) (found : Array Match) :
    p.reportRange before.length (before.length + range.length)
        { suffixes := (before ++ range ++ after).toArray, buffer, keyRow, counts, found } =
      .ok
        { suffixes := (before ++ range ++ after).toArray, buffer, keyRow, counts
          found := found ++ (pairsOf (range.filterMap p.side?)).toArray } := by
  have cut : slice? (before ++ range ++ after).toArray before.length
      (before.length + range.length) = some range.toArray := by
    rw [slice?_eq_some (by simp)]
    simp [List.extract_eq_take_drop]
  rw [reportRange, cut, Fault.within_some, ok_bind, reportPairs_ok laid candidates, ok_bind]
  rfl

/-- A row whose range is sorted by a column. -/
def sortedRow (p : SortPlan) (column : Nat) (before range after : List UInt32) : Array UInt32 :=
  (before ++ bucketSort (p.keyNat column) p.keyTable.alphabet range ++ after).toArray

/-- The ranges of the buckets of a column that remain to be sorted. -/
def bucketRanges (p : SortPlan) (column start : Nat) (range : List UInt32) : List (Nat × Nat) :=
  groupRanges start (bucketSizes (p.keyNat column) p.keyTable.alphabet range)

theorem size_sortedRow (ready : p.Ready) (inside : column < p.depth)
    {before range after : List UInt32} {row : Array UInt32}
    (candidates : ∀ s ∈ range, p.Candidate s) (layout : row = (before ++ range ++ after).toArray) :
    (p.sortedRow column before range after).size = row.size := by
  have length := length_bucketSort fun s member => keyNat_lt ready inside (candidates s member)
  simp [layout, sortedRow, length]

/-- The two loops in which a sort goes on by the next column. -/
theorem sortColumns_succ {min max : Nat} {rows : SortRows} (two : ¬ max - min < 2) :
    p.sortColumns (left + 1) column min max rows =
      if max - min ≤ p.insertionLimit then do
        let (split, ranges) ← p.splitShort column min max rows
        p.sortRanges left (column + 1) ranges split
      else do
        let counted ← p.countingSort column min max rows
        let (next, _) ←
          (List.range p.keyTable.alphabet).foldlM (p.sortBucket left column) (counted, min)
        return next := by
  rw [sortColumns, if_neg two]
  rfl

/-- A short range is sorted by insertion. -/
theorem sortColumns_by_insertion (ready : p.Ready) (inside : column < p.depth)
    {before range after : List UInt32} {rows : SortRows} (candidates : ∀ s ∈ range, p.Candidate s)
    (layout : rows.suffixes = (before ++ range ++ after).toArray) (two : ¬ range.length < 2)
    (few : range.length ≤ p.insertionLimit) :
    p.sortColumns (left + 1) column before.length (before.length + range.length) rows =
      p.sortRanges left (column + 1) (p.bucketRanges column before.length range)
        { rows with suffixes := p.sortedRow column before range after } := by
  obtain ⟨suffixes, buffer, keyRow, counts, found⟩ := rows
  obtain rfl : suffixes = _ := layout
  rw [sortColumns_succ (by omega), if_pos (by omega),
    splitShort_append ready inside before range after candidates buffer keyRow counts found]
  rfl

/-- Counting sorts every range. -/
theorem countingSort_ok (ready : p.Ready) (inside : column < p.depth)
    {before range after : List UInt32} {rows : SortRows} (candidates : ∀ s ∈ range, p.Candidate s)
    (fits : p.Fits rows) (layout : rows.suffixes = (before ++ range ++ after).toArray) :
    ∃ counted,
      p.countingSort column before.length (before.length + range.length) rows = .ok counted ∧
      counted.suffixes = p.sortedRow column before range after ∧
      counted.counts[column]? = some (p.tally column range) ∧
      p.Progress column [] rows counted := by
  obtain ⟨suffixes, buffer, keyRow, counts, found⟩ := rows
  obtain rfl : suffixes = _ := layout
  have size : before.length + range.length + after.length = p.suffixCount := by
    simpa [Nat.add_assoc] using fits.suffixes
  have bufferSize : buffer.size = p.suffixCount := fits.buffer
  have keyRowSize : keyRow.size = p.suffixCount := fits.keyRow
  have roomInBuffer : range.length ≤ buffer.size := by omega
  have roomInKeys : before.length + range.length ≤ keyRow.size := by omega
  obtain ⟨nextBuffer, nextKeys, nextCounts, counted, nextBufferSize, nextKeysSize, nextRows, here,
    others⟩ := countingSort_append ready inside before range after candidates
      (fits.length_lt ready rfl) roomInBuffer roomInKeys fits.counts found
  refine ⟨_, counted, rfl, here, ?_⟩
  exact ⟨size_sortedRow ready inside candidates rfl, nextBufferSize, nextKeysSize,
    fun _ => nextRows, fun c less row same => others c (Nat.ne_of_lt less) row same, by simp⟩

/-- A long range is sorted by counting. -/
theorem sortColumns_by_counting (ready : p.Ready) (inside : column < p.depth)
    (sorts : p.Sorts left (column + 1)) {before range after : List UInt32} {rows : SortRows}
    (candidates : ∀ s ∈ range, p.Candidate s) (fits : p.Fits rows)
    (layout : rows.suffixes = (before ++ range ++ after).toArray) (two : ¬ range.length < 2)
    (many : ¬ range.length ≤ p.insertionLimit) :
    p.sortColumns (left + 1) column before.length (before.length + range.length) rows =
      (p.countingSort column before.length (before.length + range.length) rows >>=
        p.sortRanges left (column + 1) (p.bucketRanges column before.length range)) := by
  obtain ⟨counted, ran, sorted, here, progress⟩ :=
    countingSort_ok ready inside candidates fits layout
  have looped := foldlM_sortBucket sorts (fits.length_lt ready layout) candidates
    (List.range p.keyTable.alphabet) (fun k member => List.mem_range.mp member) before after counted
    here (fits.of_progress progress) sorted
  rw [sortColumns_succ (by omega), if_neg (by omega), ran, ok_bind, ok_bind]
  exact looped

theorem sortsRange_of_short {before range after : List UInt32} {rows : SortRows}
    (short : range.length < 2) (layout : rows.suffixes = (before ++ range ++ after).toArray) :
    p.SortsRange left column before range after rows := by
  refine ⟨range, rows, sortColumns_of_short (by omega) rows, .refl range, layout, ?_⟩
  rw [reported_of_short short]
  exact .refl p column rows

/-- It does not matter how a range was sorted by the column before its buckets are. -/
theorem sortsRange_of_arranged (ready : p.Ready) (inside : column < p.depth)
    (sorts : p.Sorts left (column + 1)) {before range after : List UInt32}
    {rows arranged : SortRows} (candidates : ∀ s ∈ range, p.Candidate s) (fits : p.Fits rows)
    (sorted : arranged.suffixes = p.sortedRow column before range after)
    (progress : p.Progress column [] rows arranged)
    (ran : p.sortColumns (left + 1) column before.length (before.length + range.length) rows =
      p.sortRanges left (column + 1) (p.bucketRanges column before.length range) arranged) :
    p.SortsRange (left + 1) column before range after rows := by
  have perm := bucketSort_perm fun s member => keyNat_lt ready inside (candidates s member)
  let groups := (List.range p.keyTable.alphabet).map (bucket (p.keyNat column) range)
  have joined : groups.flatten = bucketSort (p.keyNat column) p.keyTable.alphabet range :=
    List.flatMap_def.symm
  have sizes : groups.map List.length =
      bucketSizes (p.keyNat column) p.keyTable.alphabet range := List.map_map
  rw [← joined] at perm
  rw [sortedRow, ← joined] at sorted
  obtain ⟨final, next, ranGroups, permGroups, nextLayout, progressGroups⟩ := sortGroups_ok sorts
    groups before after arranged (fun s member => candidates s (perm.subset member))
    (fits.of_progress progress) sorted
  refine ⟨final, next, ?_, permGroups.trans perm, nextLayout, ?_⟩
  · rw [ran, bucketRanges, ← sizes, ranGroups]
  · have whole := progress.trans (progressGroups.mono (Nat.le_succ column))
    rw [List.flatMap_map] at whole
    exact whole

/-- Whichever way a range is sorted, the sort does what it should. -/
theorem sortColumns_sorts {texts : List Text} (laid : p.tape.LaidOut texts) (ready : p.Ready)
    (left column : Nat) (columns : column + left = p.depth) : p.Sorts left column := by
  induction left generalizing column with
  | zero =>
      intro before range after rows candidates fits layout
      by_cases short : range.length < 2
      · exact sortsRange_of_short short layout
      · obtain ⟨suffixes, buffer, keyRow, counts, found⟩ := rows
        obtain rfl : suffixes = _ := layout
        have reports := reportRange_append laid before range after candidates buffer keyRow counts
          found
        refine ⟨range,
          { suffixes := (before ++ range ++ after).toArray, buffer, keyRow, counts
            found := found ++ (pairsOf (range.filterMap p.side?)).toArray },
          ?_, .refl range, rfl, ?_⟩
        · rw [sortColumns, if_neg (by omega)]
          exact reports
        · exact ⟨rfl, rfl, rfl, id, fun _ _ _ same => same, rfl⟩
  | succ left ih =>
      intro before range after rows candidates fits layout
      have inside : column < p.depth := by omega
      have sorts := ih (column + 1) (by omega)
      by_cases short : range.length < 2
      · exact sortsRange_of_short short layout
      · by_cases few : range.length ≤ p.insertionLimit
        · refine sortsRange_of_arranged ready inside sorts candidates fits rfl ?_
            (sortColumns_by_insertion ready inside candidates layout short few)
          exact ⟨size_sortedRow ready inside candidates layout, rfl, rfl, id,
            fun _ _ _ same => same, by simp⟩
        · have ran := sortColumns_by_counting ready inside sorts candidates fits layout short few
          obtain ⟨counted, sort, sorted, -, progress⟩ :=
            countingSort_ok ready inside candidates fits layout
          rw [sort, ok_bind] at ran
          exact sortsRange_of_arranged ready inside sorts candidates fits sorted progress ran

end SortPlan

end SharedRuns
