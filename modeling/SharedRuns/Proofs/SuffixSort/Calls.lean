import Mathlib.Logic.Relation
import SharedRuns.Proofs.SuffixSort.Columns

/-!
# The calls of a sort

The sort of a range goes on to parts of the range by the next column. `SortPlan.Makes` relates a
call of the sort to the calls that it makes, each with the rows as the calls before it have left
them. What a call relies on (`SortPlan.InBounds`) is what it leaves to the calls that it makes: the
columns that are left lead up to the depth, the range lies in the rows, and the suffixes are the
positions with room for all columns, each once (`SortPlan.Arranged`).
-/

namespace SharedRuns

/-- The arguments of a sort of a range: the columns from `column` on, of which there are `left`. -/
structure SortCall where
  left : Nat
  column : Nat
  min : Nat
  max : Nat
  rows : SortRows

namespace SortPlan

open Checked

/-- A call makes another one. Behind insertion there is a call for each run of equal keys, behind
counting there is one for each key that occurs at least twice. In both cases the calls `done` were
made before and have left the rows as they are now. -/
inductive Makes (p : SortPlan) : SortCall → SortCall → Prop
  | insertion {left column min max start stop : Nat} {rows split now : SortRows}
      {done rest : List (Nat × Nat)} (two : ¬ max - min < 2) (few : max - min ≤ p.insertionLimit)
      (ran : p.splitShort column min max rows = .ok (split, done ++ (start, stop) :: rest))
      (earlier : p.sortRanges left (column + 1) done split = .ok now) :
      p.Makes ⟨left + 1, column, min, max, rows⟩ ⟨left, column + 1, start, stop, now⟩
  | counting {left column min max start key : Nat} {rows counted now : SortRows}
      {done rest : List Nat} {counts : Array UInt32} {count : UInt32} (two : ¬ max - min < 2)
      (many : ¬ max - min ≤ p.insertionLimit)
      (ran : p.countingSort column min max rows = .ok counted)
      (keys : List.range p.keyTable.alphabet = done ++ key :: rest)
      (earlier : done.foldlM (p.sortBucket left column) (counted, min) = .ok (now, start))
      (row : fetch now.counts column = .ok counts) (found : fetch counts key = .ok count)
      (several : 1 < count.toNat) :
      p.Makes ⟨left + 1, column, min, max, rows⟩ ⟨left, column + 1, start, start + count.toNat, now⟩

variable {p : SortPlan} {left column min max start stop : Nat} {rows next : SortRows}

/-- The call comes to an end. -/
def Ends (p : SortPlan) (call : SortCall) : Prop :=
  ∃ next, p.sortColumns call.left call.column call.min call.max call.rows = .ok next

/-- If a call comes to an end, so do the calls that it makes. -/
theorem Ends.of_makes {call made : SortCall} (ends : p.Ends call) (makes : p.Makes call made) :
    p.Ends made := by
  obtain ⟨next, ran⟩ := ends
  cases makes with
  | insertion two few split earlier =>
      rw [sortColumns_succ two, if_pos few, split, ok_bind] at ran
      simp only [sortRanges, List.foldlM_append] at ran
      obtain ⟨before, first, ran⟩ := exists_of_bind_ok ran
      obtain rfl := Except.ok.inj (earlier.symm.trans first)
      rw [List.foldlM_cons] at ran
      obtain ⟨after, made, -⟩ := exists_of_bind_ok ran
      exact ⟨after, made⟩
  | counting two many counted keys earlier row found several =>
      rw [sortColumns_succ two, if_neg many, counted, ok_bind, keys, List.foldlM_append, earlier,
        ok_bind, List.foldlM_cons, sortBucket, row, ok_bind, found, ok_bind, if_pos several] at ran
      obtain ⟨all, ran, -⟩ := exists_of_bind_ok ran
      obtain ⟨bucket, ran, -⟩ := exists_of_bind_ok ran
      obtain ⟨after, made, -⟩ := exists_of_bind_ok ran
      exact ⟨after, made⟩

/-- If a call comes to an end, so do all calls that follow from it. -/
theorem Ends.of_reaches {call later : SortCall} (ends : p.Ends call)
    (reaches : Relation.ReflTransGen p.Makes call later) : p.Ends later := by
  induction reaches with
  | refl => exact ends
  | tail _ makes ih => exact ih.of_makes makes

/-- A row of the positions with room for all columns, each of them once. -/
def Arranged (p : SortPlan) (row : Array UInt32) : Prop :=
  (row.toList.map UInt32.toNat).Perm (List.range p.suffixCount)

namespace Arranged

variable {row : Array UInt32}

theorem size_eq (arranged : p.Arranged row) : row.size = p.suffixCount := by
  have length := List.Perm.length_eq arranged
  rwa [List.length_map, List.length_range, Array.length_toList] at length

theorem candidate (arranged : p.Arranged row) {s : UInt32} (member : s ∈ row) : p.Candidate s := by
  have inRange := List.mem_range.mp
    ((List.Perm.subset arranged) (List.mem_map_of_mem (Array.mem_toList_iff.mpr member)))
  rw [suffixCount] at inRange
  rw [Candidate]
  omega

theorem of_perm (arranged : p.Arranged row) {other : Array UInt32}
    (perm : other.toList.Perm row.toList) : p.Arranged other :=
  (perm.map UInt32.toNat).trans arranged

theorem candidate_of_layout {before range after : List UInt32} (arranged : p.Arranged row)
    (layout : row = (before ++ range ++ after).toArray) {s : UInt32} (member : s ∈ range) :
    p.Candidate s :=
  arranged.candidate (by simp [layout, member])

/-- To rearrange a part of a row is to rearrange the row. -/
theorem replace {before range sorted after : List UInt32} (arranged : p.Arranged row)
    (layout : row = (before ++ range ++ after).toArray) (perm : sorted.Perm range) :
    p.Arranged (before ++ sorted ++ after).toArray :=
  arranged.of_perm (by rw [layout]; exact (perm.append_left before).append_right after)

end Arranged

/-- The positions in their order, with which a search starts. -/
theorem arranged_range (few : p.tape.size < Position.wordLimit) :
    p.Arranged ((Array.range p.suffixCount).map Nat.toUInt32) := by
  have words : ∀ pos ∈ List.range p.suffixCount, (UInt32.toNat ∘ Nat.toUInt32) pos = id pos := by
    intro pos member
    have inside := List.mem_range.mp member
    rw [suffixCount] at inside
    exact Position.toNat_toUInt32 (by omega)
  rw [Arranged, Array.toList_map, Array.toList_range, List.map_map, List.map_congr_left words,
    List.map_id]

/-- The columns of a call lead up to the depth, its range lies in the rows, and the rows have an
entry for each suffix, or for each key if they were used for counting. -/
structure InBounds (p : SortPlan) (call : SortCall) : Prop where
  columns : call.column + call.left = p.depth
  ordered : call.min ≤ call.max
  inside : call.max ≤ p.suffixCount
  arranged : p.Arranged call.rows.suffixes
  buffer : call.rows.buffer.size = p.suffixCount
  keyRow : call.rows.keyRow.size = p.suffixCount
  counts : p.CountRows call.rows.counts

theorem InBounds.fits {call : SortCall} (bounds : p.InBounds call) : p.Fits call.rows :=
  ⟨bounds.arranged.size_eq, bounds.buffer, bounds.keyRow, bounds.counts⟩

/-- The row of a call, split at its range. -/
theorem InBounds.exists_range {call : SortCall} (bounds : p.InBounds call) :
    ∃ before range after : List UInt32,
      call.rows.suffixes = (before ++ range ++ after).toArray ∧ before.length = call.min ∧
        before.length + range.length = call.max := by
  have ordered := bounds.ordered
  have inside := bounds.inside
  have size := bounds.arranged.size_eq
  have room : call.min + (call.max - call.min) ≤ call.rows.suffixes.size := by omega
  obtain ⟨before, range, after, layout, first, second⟩ := exists_parts call.rows.suffixes room
  exact ⟨before, range, after, layout, first, by omega⟩

/-- One of the ranges of groups is that of a group, and those before it are the ranges of the groups
before it. -/
theorem groupRanges_eq_append {α : Type} {start : Nat} {run : Nat × Nat}
    {done rest : List (Nat × Nat)} {groups : List (List α)}
    (ranges : groupRanges start (groups.map List.length) = done ++ run :: rest) :
    ∃ before group after, groups = before ++ group :: after ∧
      done = groupRanges start (before.map List.length) ∧
      run = (start + before.flatten.length, start + before.flatten.length + group.length) := by
  induction groups generalizing start done with
  | nil => exact absurd ranges.symm (List.append_ne_nil_of_right_ne_nil _ (List.cons_ne_nil _ _))
  | cons first others ih =>
      rw [List.map_cons, groupRanges] at ranges
      split at ranges
      · next several =>
          cases done with
          | nil =>
              obtain ⟨rfl, -⟩ := List.cons.inj ranges
              exact ⟨[], first, others, rfl, rfl, rfl⟩
          | cons head done =>
              obtain ⟨rfl, later⟩ := List.cons.inj ranges
              obtain ⟨before, group, after, rfl, rfl, rfl⟩ := ih later
              refine ⟨first :: before, group, after, rfl, ?_, ?_⟩
              · rw [List.map_cons, groupRanges, if_pos several]
              · rw [List.flatten_cons, List.length_append, Nat.add_assoc start]
      · next single =>
          obtain ⟨before, group, after, rfl, rfl, rfl⟩ := ih ranges
          refine ⟨first :: before, group, after, rfl, ?_, ?_⟩
          · rw [List.map_cons, groupRanges, if_neg single]
          · rw [List.flatten_cons, List.length_append, Nat.add_assoc start]

/-- The groups in which a sort by a column leaves a range. -/
theorem flatten_buckets (p : SortPlan) (column : Nat) (range : List UInt32) :
    ((List.range p.keyTable.alphabet).map (bucket (p.keyNat column) range)).flatten =
      bucketSort (p.keyNat column) p.keyTable.alphabet range :=
  List.flatMap_def.symm

/-- After a sort by a column the row is still arranged. -/
theorem arranged_sortedRow (ready : p.Ready) (inside : column < p.depth) {row : Array UInt32}
    {before range after : List UInt32} (arranged : p.Arranged row)
    (layout : row = (before ++ range ++ after).toArray) :
    p.Arranged (p.sortedRow column before range after) :=
  arranged.replace layout <| bucketSort_perm fun _ member =>
    keyNat_lt ready inside (arranged.candidate_of_layout layout member)

/-- What was sorted before is followed by the range that is sorted next. -/
theorem inBounds_of_layout {before done sorted group after : List UInt32} {middle : SortRows}
    {more : List Match} (columns : column + left = p.depth) (fits : p.Fits rows)
    (arranged : p.Arranged rows.suffixes) (progress : p.Progress column more rows middle)
    (layout : rows.suffixes = (before ++ done ++ (group ++ after)).toArray)
    (perm : sorted.Perm done)
    (middleLayout : middle.suffixes = (before ++ sorted ++ (group ++ after)).toArray) :
    p.InBounds ⟨left, column, before.length + done.length,
      before.length + done.length + group.length, middle⟩ where
  columns := columns
  ordered := Nat.le_add_right _ _
  inside := by
    rw [← arranged.size_eq, layout]
    simp only [List.size_toArray, List.length_append]
    omega
  arranged := by
    rw [middleLayout]
    exact arranged.replace layout perm
  buffer := progress.buffer.trans fits.buffer
  keyRow := progress.keyRow.trans fits.keyRow
  counts := progress.countRows fits.counts

theorem inBounds_of_insertion {texts : List Text} (laid : p.tape.LaidOut texts) (ready : p.Ready)
    {split now : SortRows} {done rest : List (Nat × Nat)}
    (bounds : p.InBounds ⟨left + 1, column, min, max, rows⟩)
    (ran : p.splitShort column min max rows = .ok (split, done ++ (start, stop) :: rest))
    (earlier : p.sortRanges left (column + 1) done split = .ok now) :
    p.InBounds ⟨left, column + 1, start, stop, now⟩ := by
  have columns : column + (left + 1) = p.depth := bounds.columns
  have inside : column < p.depth := by omega
  have sorts : p.Sorts left (column + 1) := sortColumns_sorts laid ready left _ (by omega)
  have fits := bounds.fits
  have arranged := bounds.arranged
  obtain ⟨before, range, after, layout, rfl, rfl⟩ := bounds.exists_range
  obtain ⟨suffixes, buffer, keyRow, counts, found⟩ := rows
  obtain rfl : suffixes = _ := layout
  have whole := arranged_sortedRow ready inside arranged rfl
  rw [splitShort_append ready inside before range after
    (fun s member => arranged.candidate_of_layout rfl member)] at ran
  obtain ⟨rfl, ranges⟩ := Prod.mk.inj (Except.ok.inj ran)
  -- The ranges are those of the buckets; the call is for one of them.
  have sizes : ((List.range p.keyTable.alphabet).map (bucket (p.keyNat column) range)).map
      List.length = bucketSizes (p.keyNat column) p.keyTable.alphabet range := List.map_map
  rw [← sizes] at ranges
  obtain ⟨groups, group, others, split, rfl, run⟩ := groupRanges_eq_append ranges
  obtain ⟨rfl, rfl⟩ := Prod.mk.inj run
  have parts : before ++ bucketSort (p.keyNat column) p.keyTable.alphabet range ++ after =
      before ++ groups.flatten ++ (group ++ (others.flatten ++ after)) := by
    rw [← flatten_buckets, split]
    simp
  rw [sortedRow] at whole
  rw [parts] at whole earlier
  have splitFits : p.Fits
      { suffixes := (before ++ groups.flatten ++ (group ++ (others.flatten ++ after))).toArray
        buffer, keyRow, counts, found } :=
    ⟨whole.size_eq, fits.buffer, fits.keyRow, fits.counts⟩
  obtain ⟨sorted, next, ranGroups, perm, nextLayout, progress⟩ := sortGroups_ok sorts groups before
    _ _ (fun s member => whole.candidate_of_layout rfl member) splitFits rfl
  obtain rfl := Except.ok.inj (ranGroups.symm.trans earlier)
  exact inBounds_of_layout (by omega) splitFits whole progress rfl perm nextLayout

/-- The loop over the keys sorts the buckets of some keys one after another, and has added up their
sizes. -/
theorem sortBuckets_ok (sorts : p.Sorts left (column + 1)) {range : List UInt32}
    (few : range.length < Position.wordLimit) (candidates : ∀ s ∈ range, p.Candidate s)
    (keys : List Nat) (inside : ∀ k ∈ keys, k < p.keyTable.alphabet) (before after : List UInt32)
    (rows : SortRows) (counted : rows.counts[column]? = some (p.tally column range))
    (fits : p.Fits rows)
    (layout : rows.suffixes =
      (before ++ keys.flatMap (bucket (p.keyNat column) range) ++ after).toArray) :
    ∃ sorted next more,
      keys.foldlM (p.sortBucket left column) (rows, before.length) =
        .ok (next, before.length + (keys.flatMap (bucket (p.keyNat column) range)).length) ∧
      sorted.Perm (keys.flatMap (bucket (p.keyNat column) range)) ∧
      next.suffixes = (before ++ sorted ++ after).toArray ∧
      p.Progress (column + 1) more rows next := by
  induction keys generalizing before rows with
  | nil => exact ⟨[], rows, [], rfl, .refl _, layout, .refl p _ rows⟩
  | cons k rest ih =>
      rw [List.forall_mem_cons] at inside
      have inBucket : ∀ s ∈ bucket (p.keyNat column) range k, p.Candidate s :=
        fun s member => candidates s (mem_bucket.mp member).1
      obtain ⟨sorted, middle, ran, perm, middleLayout, progress⟩ :=
        sorts before (bucket (p.keyNat column) range k)
          (rest.flatMap (bucket (p.keyNat column) range) ++ after) rows inBucket fits
          (by simpa using layout)
      have stillCounted := progress.counts column (Nat.lt_succ_self column) _ counted
      obtain ⟨others, next, more, ranRest, permRest, nextLayout, progressRest⟩ :=
        ih inside.2 (before ++ sorted) middle stillCounted (fits.of_progress progress)
          (by simpa using middleLayout)
      refine ⟨sorted ++ others, next, _, ?_, ?_, by simpa using nextLayout,
        progress.trans progressRest⟩
      · rw [List.length_append, perm.length_eq] at ranRest
        rw [List.foldlM_cons, sortBucket_ok few inside.1 counted ran, ok_bind, ranRest,
          List.flatMap_cons, List.length_append, Nat.add_assoc before.length]
      · rw [List.flatMap_cons]
        exact perm.append permRest

theorem inBounds_of_counting {texts : List Text} (laid : p.tape.LaidOut texts) (ready : p.Ready)
    {counted now : SortRows} {done rest : List Nat} {key : Nat} {counts : Array UInt32}
    {count : UInt32} (bounds : p.InBounds ⟨left + 1, column, min, max, rows⟩)
    (ran : p.countingSort column min max rows = .ok counted)
    (keys : List.range p.keyTable.alphabet = done ++ key :: rest)
    (earlier : done.foldlM (p.sortBucket left column) (counted, min) = .ok (now, start))
    (row : fetch now.counts column = .ok counts) (found : fetch counts key = .ok count) :
    p.InBounds ⟨left, column + 1, start, start + count.toNat, now⟩ := by
  have columns : column + (left + 1) = p.depth := bounds.columns
  have inside : column < p.depth := by omega
  have sorts : p.Sorts left (column + 1) := sortColumns_sorts laid ready left _ (by omega)
  have fits := bounds.fits
  have arranged := bounds.arranged
  obtain ⟨before, range, after, layout, rfl, rfl⟩ := bounds.exists_range
  have candidates : ∀ s ∈ range, p.Candidate s := fun s member =>
    arranged.candidate_of_layout layout member
  have few := fits.length_lt ready layout
  have whole := arranged_sortedRow ready inside arranged layout
  obtain ⟨next, counting, sorted, here, progress⟩ :=
    countingSort_ok ready inside candidates fits layout
  obtain rfl := Except.ok.inj (counting.symm.trans ran)
  have keysInside : ∀ k ∈ done ++ key :: rest, k < p.keyTable.alphabet := fun k member =>
    List.mem_range.mp (keys ▸ member)
  have parts : before ++ bucketSort (p.keyNat column) p.keyTable.alphabet range ++ after =
      before ++ done.flatMap (bucket (p.keyNat column) range) ++
        (bucket (p.keyNat column) range key ++
          (rest.flatMap (bucket (p.keyNat column) range) ++ after)) := by
    rw [bucketSort, keys]
    simp
  rw [sortedRow, parts] at sorted whole
  have countedFits := fits.of_progress progress
  obtain ⟨others, middle, more, ranKeys, perm, middleLayout, further⟩ := sortBuckets_ok sorts few
    candidates done (fun k member => keysInside k (List.mem_append_left _ member)) before _ _ here
    countedFits sorted
  obtain ⟨rfl, rfl⟩ := Prod.mk.inj (Except.ok.inj (ranKeys.symm.trans earlier))
  -- The counts of the column are still those of the range, so the count is the size of the bucket.
  have stillHere := further.counts column (Nat.lt_succ_self column) _ here
  obtain rfl : _ = counts := Option.some.inj (stillHere.symm.trans (within_eq_ok.mp row))
  rw [tally, fetch_tabulate (keysInside key (by simp))] at found
  obtain rfl := Except.ok.inj found
  have size : (bucket (p.keyNat column) range key).length.toUInt32.toNat =
      (bucket (p.keyNat column) range key).length :=
    Position.toNat_toUInt32 (Nat.lt_of_le_of_lt (List.length_filter_le _ _) few)
  rw [size]
  exact inBounds_of_layout (by omega) countedFits (sorted ▸ whole) further sorted perm middleLayout

/-- The calls that a call makes have what they rely on. -/
theorem InBounds.of_makes {texts : List Text} (laid : p.tape.LaidOut texts) (ready : p.Ready)
    {call made : SortCall} (bounds : p.InBounds call) (makes : p.Makes call made) :
    p.InBounds made := by
  cases makes with
  | insertion _ _ ran earlier => exact inBounds_of_insertion laid ready bounds ran earlier
  | counting _ _ ran keys earlier row found _ =>
      exact inBounds_of_counting laid ready bounds ran keys earlier row found

/-- So have all calls that follow from it. -/
theorem InBounds.of_reaches {texts : List Text} (laid : p.tape.LaidOut texts) (ready : p.Ready)
    {call later : SortCall} (bounds : p.InBounds call)
    (reaches : Relation.ReflTransGen p.Makes call later) : p.InBounds later := by
  induction reaches with
  | refl => exact bounds
  | tail _ makes ih => exact ih.of_makes laid ready makes

end SortPlan

end SharedRuns
