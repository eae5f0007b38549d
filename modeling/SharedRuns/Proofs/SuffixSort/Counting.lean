import SharedRuns.Proofs.Checked
import SharedRuns.Proofs.SuffixSort.Buckets
import SharedRuns.Proofs.SuffixSort.Keys

/-!
# Sorting a long range

Counting the keys of a range gives the sizes of its buckets, their sums give the places where the
buckets start, and scattering fills the buckets in the order of the range. While suffixes are
scattered, each bucket consists of those that came and of vacant places for those that are still to
come (`Scattered`). The range ends up as insertion would have left it, and the counts of the column
are kept for the loop that goes on to the buckets.

The row of counts of a column is made when the column is counted for the first time, and cleared and
filled again whenever it is counted later. A row that was made has a place for each key
(`CountRows`), so that it does not matter which of the two was done.
-/

namespace SharedRuns.SortPlan

open Checked

variable {p : SortPlan} {column : Nat}

/-- Each row of counts is empty or has a place for each key. -/
def CountRows (p : SortPlan) (all : Array (Array UInt32)) : Prop :=
  ∀ row ∈ all, row.size = 0 ∨ row.size = p.keyTable.alphabet

theorem countRows_empty : p.CountRows #[] := fun _ member => absurd member (Array.not_mem_empty _)

/-- The sizes of the buckets of a column, as words. -/
def tally (p : SortPlan) (column : Nat) (range : List UInt32) : Array UInt32 :=
  tabulate p.keyTable.alphabet fun k => (bucket (p.keyNat column) range k).length.toUInt32

theorem size_tally (column : Nat) (range : List UInt32) :
    (p.tally column range).size = p.keyTable.alphabet :=
  size_tabulate

theorem readKeys_append (ready : p.Ready) (inside : column < p.depth)
    (before range after : List UInt32) (candidates : ∀ s ∈ range, p.Candidate s)
    {keyRow : Array UInt32} (room : before.length + range.length ≤ keyRow.size) :
    ∃ keysBefore keysAfter : List UInt32, keysBefore.length = before.length ∧
      (keysBefore ++ range.map (p.keyOf column) ++ keysAfter).length = keyRow.size ∧
      p.readKeys column before.length (before.length + range.length)
          (before ++ range ++ after).toArray keyRow =
        .ok (keysBefore ++ range.map (p.keyOf column) ++ keysAfter).toArray := by
  obtain ⟨keysBefore, old, keysAfter, rfl, length, oldLength⟩ := exists_parts keyRow room
  refine ⟨keysBefore, keysAfter, length, by simp [oldLength], ?_⟩
  have keysLength : (range.map (p.keyOf column)).length = range.length := List.length_map _
  rw [readKeys, ← keysLength]
  apply foldlM_span_store (oldLength.trans keysLength.symm)
  intro row i h
  rw [List.length_map] at h
  have candidate := candidates _ (List.getElem_mem h)
  rw [fetch_middle rfl h, ok_bind, keyAt_of_candidate ready inside candidate, ok_bind, length,
    List.getElem_map]

/-- Clearing a row gives a zero for each key, whether the row was counted in before or not. -/
theorem clearRow_eq {row : Array UInt32} (size : row.size = 0 ∨ row.size = p.keyTable.alphabet) :
    p.clearRow row = Array.replicate p.keyTable.alphabet 0 := by
  rw [clearRow]
  split
  · rfl
  · next used =>
      have full : row.size = p.keyTable.alphabet :=
        size.resolve_left fun empty => used (Array.isEmpty_iff_size_eq_zero.mpr empty)
      rw [Array.map_const', full]

/-- After a column was counted, the rows of all columns are as they should be, and those that there
were of other columns are unchanged. -/
theorem store_withColumn {all : Array (Array UInt32)} (rows : p.CountRows all) (column : Nat)
    {counts : Array UInt32} (size : counts.size = p.keyTable.alphabet) :
    ∃ row next, fetch (withColumn column all) column = .ok row ∧
      (row.size = 0 ∨ row.size = p.keyTable.alphabet) ∧
      store (withColumn column all) column counts = .ok next ∧ p.CountRows next ∧
      next[column]? = some counts ∧
      ∀ c, c ≠ column → ∀ other, all[c]? = some other → next[c]? = some other := by
  have inside : column < (withColumn column all).size := by
    rw [withColumn, Array.size_append, Array.size_replicate]
    omega
  have extended : p.CountRows (withColumn column all) := by
    intro row member
    rcases Array.mem_append.mp member with old | new
    · exact rows row old
    · rw [(Array.mem_replicate.mp new).2]
      exact .inl rfl
  refine ⟨_, _, fetch_of_lt inside, extended _ (Array.getElem_mem inside), store_of_lt inside, ?_,
    by simp, ?_⟩
  · intro row member
    rcases Array.mem_or_eq_of_mem_set member with old | rfl
    · exact extended row old
    · exact .inr size
  · intro c different other found
    obtain ⟨existing, -⟩ := Array.getElem?_eq_some_iff.mp found
    rw [Array.getElem?_set_ne _ (Ne.symm different), withColumn,
      Array.getElem?_append_left existing, found]

theorem count_key {s : UInt32} (inside : p.keyNat column s < p.keyTable.alphabet)
    (done : List UInt32) :
    (do store (p.tally column done) (p.keyOf column s).toNat
          ((← fetch (p.tally column done) (p.keyOf column s).toNat) + 1)) =
      .ok (p.tally column (done ++ [s])) := by
  rw [toNat_keyOf, tally, fetch_tabulate inside, ok_bind, store_tabulate inside, tally]
  congr 2
  funext k
  by_cases same : k = p.keyNat column s
  · subst same
    rw [Function.update_self, bucket_concat_self, List.length_append, List.length_singleton]
    exact (UInt32.ofNat_add _ 1).symm
  · rw [Function.update_of_ne same, bucket_concat_of_ne same]

theorem countKeys_append (ready : p.Ready) (inside : column < p.depth)
    (before after : List UInt32) {range : List UInt32} (candidates : ∀ s ∈ range, p.Candidate s) :
    countKeys before.length (before.length + range.length)
        (before ++ range.map (p.keyOf column) ++ after).toArray
        (Array.replicate p.keyTable.alphabet 0) = .ok (p.tally column range) := by
  -- Before anything is counted, the counts are those of no suffixes.
  suffices counted : ∀ done, range.foldlM (fun counts s => do
        store counts (p.keyOf column s).toNat ((← fetch counts (p.keyOf column s).toNat) + 1))
        (p.tally column done) = .ok (p.tally column (done ++ range)) by
    have zero : Array.replicate p.keyTable.alphabet 0 = p.tally column [] := by
      apply Array.ext <;> simp [tally, tabulate, bucket]
    rw [countKeys, zero, ← List.nil_append range, ← counted []]
    apply foldlM_span _
    intro counts i h
    rw [fetch_middle rfl (by simpa using h), ok_bind, List.getElem_map]
  intro done
  induction range generalizing done with
  | nil => rw [List.append_nil]; rfl
  | cons s rest ih =>
      rw [List.forall_mem_cons] at candidates
      have next := ih candidates.2 (done ++ [s])
      rw [List.append_assoc, List.singleton_append] at next
      rw [List.foldlM_cons, count_key (keyNat_lt ready inside candidates.1), ok_bind, next]

/-- The slots are the places where the buckets start. -/
theorem slots_tally {range : List UInt32} :
    slots (p.tally column range) =
      tabulate p.keyTable.alphabet fun k => (bucketStart (p.keyNat column) range k).toUInt32 := by
  -- After some counts the sum is the place where the next bucket starts.
  suffices all : ∀ count,
      (tabulate count fun k => (bucket (p.keyNat column) range k).length.toUInt32).foldl
          (fun taken size => (taken.1.push taken.2, taken.2 + size)) (#[], (0 : UInt32)) =
        (tabulate count fun k => (bucketStart (p.keyNat column) range k).toUInt32,
          (bucketStart (p.keyNat column) range count).toUInt32) by
    exact congrArg Prod.fst (all p.keyTable.alphabet)
  intro count
  induction count with
  | zero => rfl
  | succ count ih =>
      rw [tabulate_succ, Array.foldl_push, ih, tabulate_succ, bucketStart_succ]
      exact congrArg _ (UInt32.ofNat_add _ _).symm

/-- The buffer when the suffixes of `done` were scattered and those of `rest` are still to come:
each bucket holds what came and vacant places for the rest, and `behind` follows the buckets. -/
def Scattered (p : SortPlan) (column : Nat) (done rest behind : List UInt32)
    (buffer : Array UInt32) : Prop :=
  ∃ vacant : Nat → List UInt32,
    (∀ k < p.keyTable.alphabet, (vacant k).length = (bucket (p.keyNat column) rest k).length) ∧
      buffer = ((List.range p.keyTable.alphabet).flatMap
        (fun k => bucket (p.keyNat column) done k ++ vacant k) ++ behind).toArray

theorem exists_scattered {range : List UInt32}
    (below : ∀ s ∈ range, p.keyNat column s < p.keyTable.alphabet) (buffer : Array UInt32)
    (room : range.length ≤ buffer.size) : ∃ behind, p.Scattered column [] range behind buffer := by
  refine ⟨buffer.toList.drop (bucketStart (p.keyNat column) range p.keyTable.alphabet),
    fun k => (buffer.toList.drop (bucketStart (p.keyNat column) range k)).take
      (bucket (p.keyNat column) range k).length, ?_, ?_⟩
  · intro k inside
    have fits := bucketStart_add_le below inside
    simp only [List.length_take, List.length_drop, Array.length_toList]
    omega
  · have segments := flatMap_segments (p.keyNat column) range buffer.toList p.keyTable.alphabet
    simp only [bucket, List.filter_nil, List.nil_append] at segments ⊢
    rw [segments, List.take_append_drop, Array.toArray_toList]

/-- A bucket with vacant places starts where it will start in the end. -/
theorem length_scattered (done : List UInt32) {rest : List UInt32} {vacant : Nat → List UInt32}
    {k : Nat} (lengths : ∀ j < k, (vacant j).length = (bucket (p.keyNat column) rest j).length) :
    ((List.range k).flatMap fun j => bucket (p.keyNat column) done j ++ vacant j).length =
      bucketStart (p.keyNat column) (done ++ rest) k := by
  rw [bucketStart, List.length_flatMap, List.length_flatMap]
  congr 1
  apply List.map_congr_left
  intro j member
  rw [bucket_append, List.length_append, List.length_append, lengths j (List.mem_range.mp member)]

/-- A suffix takes the first vacant place of its bucket. -/
theorem scatter_step {done rest behind : List UInt32} {s : UInt32} {buffer : Array UInt32}
    (inside : p.keyNat column s < p.keyTable.alphabet)
    (scattered : p.Scattered column done (s :: rest) behind buffer) :
    ∃ next, store buffer (bucketStart (p.keyNat column) (done ++ s :: rest) (p.keyNat column s) +
        (bucket (p.keyNat column) done (p.keyNat column s)).length) s = .ok next ∧
      p.Scattered column (done ++ [s]) rest behind next := by
  obtain ⟨vacant, lengths, rfl⟩ := scattered
  have here := lengths _ inside
  rw [bucket_cons_self, List.length_cons] at here
  obtain ⟨place, more, spare⟩ := List.exists_cons_of_length_eq_add_one here
  rw [spare, List.length_cons, Nat.add_right_cancel_iff] at here
  have others : ∀ k, k ≠ p.keyNat column s → bucket (p.keyNat column) (done ++ [s]) k ++
      Function.update vacant (p.keyNat column s) more k =
        bucket (p.keyNat column) done k ++ vacant k := by
    intro k other
    rw [Function.update_of_ne other, bucket_concat_of_ne other]
  have start := length_scattered done fun k less => lengths k (Nat.lt_trans less inside)
  refine ⟨_, ?_, Function.update vacant (p.keyNat column s) more, ?_, rfl⟩
  · rw [flatMap_range_split _ inside, flatMap_range_replace inside others, spare,
      bucket_concat_self, Function.update_self, ← start]
    generalize (List.range _).flatMap _ = earlier
    generalize bucket (p.keyNat column) done _ = came
    generalize (List.range' _ _).flatMap _ = later
    have stored := @store_append _ (earlier ++ came) (more ++ later ++ behind) place s _ rfl
    simpa using stored
  · intro k below
    by_cases same : k = p.keyNat column s
    · subst same
      rw [Function.update_self, here]
    · rw [Function.update_of_ne same, lengths k below, bucket_cons_of_ne same]

theorem scattered_size {done rest behind : List UInt32} {buffer : Array UInt32}
    (scattered : p.Scattered column done rest behind buffer) :
    buffer.size = bucketStart (p.keyNat column) (done ++ rest) p.keyTable.alphabet +
      behind.length := by
  obtain ⟨vacant, lengths, rfl⟩ := scattered
  rw [List.size_toArray, List.length_append, length_scattered done lengths]

theorem scattered_end {range behind : List UInt32} {buffer : Array UInt32}
    (scattered : p.Scattered column range [] behind buffer) :
    buffer = (bucketSort (p.keyNat column) p.keyTable.alphabet range ++ behind).toArray := by
  obtain ⟨vacant, lengths, rfl⟩ := scattered
  have filled : ∀ k ∈ List.range p.keyTable.alphabet,
      bucket (p.keyNat column) range k ++ vacant k = bucket (p.keyNat column) range k := by
    intro k member
    rw [List.length_eq_zero_iff.mp (lengths k (List.mem_range.mp member)), List.append_nil]
  rw [List.flatMap_congr filled, bucketSort]

/-- The slots when the suffixes of `done` were scattered: the first vacant place of each bucket. -/
def slotsAfter (p : SortPlan) (column : Nat) (range done : List UInt32) : Array UInt32 :=
  tabulate p.keyTable.alphabet fun k =>
    (bucketStart (p.keyNat column) range k + (bucket (p.keyNat column) done k).length).toUInt32

theorem slots_tally_eq (range : List UInt32) :
    slots (p.tally column range) = p.slotsAfter column range [] := by
  simp [slots_tally, slotsAfter, bucket]

theorem fetch_slotsAfter {range done rest : List UInt32} {s : UInt32}
    (whole : range = done ++ s :: rest) (few : range.length < Position.wordLimit)
    (below : ∀ t ∈ range, p.keyNat column t < p.keyTable.alphabet) :
    ∃ slot, fetch (p.slotsAfter column range done) (p.keyNat column s) = .ok slot ∧
      slot.toNat = bucketStart (p.keyNat column) range (p.keyNat column s) +
        (bucket (p.keyNat column) done (p.keyNat column s)).length ∧
      store (p.slotsAfter column range done) (p.keyNat column s) (slot + 1) =
        .ok (p.slotsAfter column range (done ++ [s])) := by
  have inside : p.keyNat column s < p.keyTable.alphabet := below s (by simp [whole])
  have fits := bucketStart_add_le below inside
  have came : (bucket (p.keyNat column) done (p.keyNat column s)).length ≤
      (bucket (p.keyNat column) range (p.keyNat column s)).length := by
    rw [whole, bucket_append, List.length_append]
    exact Nat.le_add_right _ _
  refine ⟨_, fetch_tabulate inside, Position.toNat_toUInt32 (by omega), ?_⟩
  rw [slotsAfter, store_tabulate inside, slotsAfter]
  congr 2
  funext k
  by_cases same : k = p.keyNat column s
  · subst same
    rw [Function.update_self, bucket_concat_self, List.length_append, List.length_singleton,
      ← Nat.add_assoc]
    exact (UInt32.ofNat_add _ 1).symm
  · rw [Function.update_of_ne same, bucket_concat_of_ne same]

/-- What scattering does with one suffix. -/
def scatterOne (p : SortPlan) (column : Nat) :
    Array UInt32 × Array UInt32 → UInt32 → Except Fault (Array UInt32 × Array UInt32)
  | (slots, buffer), s => do
    let slot ← fetch slots (p.keyNat column s)
    let buffer ← store buffer slot.toNat s
    return (← store slots (p.keyNat column s) (slot + 1), buffer)

/-- When more suffixes were scattered, the slots have moved on behind them. -/
theorem scatter_more {range done more rest behind : List UInt32} {buffer : Array UInt32}
    (whole : range = done ++ (more ++ rest)) (few : range.length < Position.wordLimit)
    (below : ∀ s ∈ range, p.keyNat column s < p.keyTable.alphabet)
    (scattered : p.Scattered column done (more ++ rest) behind buffer) :
    ∃ next, more.foldlM (p.scatterOne column) (p.slotsAfter column range done, buffer) =
        .ok (p.slotsAfter column range (done ++ more), next) ∧
      p.Scattered column (done ++ more) rest behind next := by
  induction more generalizing done buffer with
  | nil =>
      rw [List.append_nil]
      exact ⟨buffer, rfl, scattered⟩
  | cons s more ih =>
      rw [List.cons_append] at whole scattered
      obtain ⟨slot, fetched, place, advanced⟩ := fetch_slotsAfter whole few below
      obtain ⟨middle, stored, scatteredNext⟩ := scatter_step (below s (by simp [whole])) scattered
      rw [← whole, ← place] at stored
      obtain ⟨next, result, scatteredAll⟩ := ih (by simp [whole]) scatteredNext
      rw [List.append_assoc, List.singleton_append] at result scatteredAll
      refine ⟨next, ?_, scatteredAll⟩
      rw [List.foldlM_cons, scatterOne, fetched, ok_bind, stored, ok_bind, advanced, ok_bind,
        pure_eq_ok, ok_bind, result]

/-- What scattering does at one index of the range. -/
def scatterStep (row keyRow : Array UInt32) :
    Array UInt32 × Array UInt32 → Nat → Except Fault (Array UInt32 × Array UInt32)
  | (slots, buffer), i => do
    let key := (← fetch keyRow i).toNat
    let slot ← fetch slots key
    let buffer ← store buffer slot.toNat (← fetch row i)
    return (← store slots key (slot + 1), buffer)

theorem scatter_eq {min max : Nat} {row keyRow slots buffer : Array UInt32} :
    scatter min max row keyRow slots buffer = do
      let (_, buffer) ← (span min max).foldlM (scatterStep row keyRow) (slots, buffer)
      return buffer := rfl

/-- Scattering the first suffixes of a range leaves the slots behind them. -/
theorem foldlM_scatterStep (after keysAfter : List UInt32)
    {before keysBefore done rest : List UInt32} {buffer : Array UInt32}
    (aligned : keysBefore.length = before.length)
    (few : (done ++ rest).length < Position.wordLimit)
    (below : ∀ s ∈ done ++ rest, p.keyNat column s < p.keyTable.alphabet)
    (room : (done ++ rest).length ≤ buffer.size) :
    ∃ behind next, (span before.length (before.length + done.length)).foldlM
        (scatterStep (before ++ (done ++ rest) ++ after).toArray
          (keysBefore ++ (done ++ rest).map (p.keyOf column) ++ keysAfter).toArray)
        (slots (p.tally column (done ++ rest)), buffer) =
          .ok (p.slotsAfter column (done ++ rest) done, next) ∧
      next.size = buffer.size ∧ p.Scattered column done rest behind next := by
  obtain ⟨behind, scattered⟩ := exists_scattered below buffer room
  obtain ⟨next, result, later⟩ := scatter_more (List.nil_append _).symm few below scattered
  rw [List.nil_append] at result later
  refine ⟨behind, next, ?_, (scattered_size later).trans (scattered_size scattered).symm, later⟩
  rw [slots_tally_eq, foldlM_span, result]
  rintro ⟨slots, buffer⟩ i h
  have inRange : i < (done ++ rest).length := by
    rw [List.length_append]
    omega
  have key : fetch (keysBefore ++ (done ++ rest).map (p.keyOf column) ++ keysAfter).toArray
      (before.length + i) = .ok (p.keyOf column done[i]) := by
    rw [fetch_middle aligned.symm (by simpa using inRange), List.getElem_map,
      List.getElem_append_left h]
  have suffix : fetch (before ++ (done ++ rest) ++ after).toArray (before.length + i) =
      .ok done[i] := by
    rw [fetch_middle rfl inRange, List.getElem_append_left h]
  simp only [scatterStep, key, suffix, ok_bind, toNat_keyOf, scatterOne]

/-- Scattering leaves the buckets in the front of the buffer. -/
theorem scatter_append (after keysAfter : List UInt32) {before keysBefore range : List UInt32}
    (aligned : keysBefore.length = before.length) (few : range.length < Position.wordLimit)
    (below : ∀ s ∈ range, p.keyNat column s < p.keyTable.alphabet) {buffer : Array UInt32}
    (room : range.length ≤ buffer.size) :
    ∃ behind, (bucketSort (p.keyNat column) p.keyTable.alphabet range ++ behind).length =
        buffer.size ∧
      scatter before.length (before.length + range.length) (before ++ range ++ after).toArray
          (keysBefore ++ range.map (p.keyOf column) ++ keysAfter).toArray
          (slots (p.tally column range)) buffer =
        .ok (bucketSort (p.keyNat column) p.keyTable.alphabet range ++ behind).toArray := by
  have all := List.append_nil range
  rw [← all] at few below room
  obtain ⟨behind, final, result, size, scattered⟩ :=
    foldlM_scatterStep after keysAfter aligned few below room
  obtain rfl := scattered_end scattered
  rw [all] at result
  refine ⟨behind, size, ?_⟩
  rw [scatter_eq, result]
  rfl

theorem copyBack_append {before range after sorted behind : List UInt32}
    (same : range.length = sorted.length) :
    copyBack before.length (before.length + range.length) (sorted ++ behind).toArray
        (before ++ range ++ after).toArray = .ok (before ++ sorted ++ after).toArray := by
  have indices : span 0 (before.length + range.length - before.length) =
      span 0 (0 + sorted.length) := by
    rw [Nat.add_sub_cancel_left, same, Nat.zero_add]
  rw [copyBack, indices]
  apply foldlM_span_store same
  intro row i h
  have entry : fetch (sorted ++ behind).toArray (0 + i) = .ok sorted[i] :=
    @fetch_middle _ [] sorted behind 0 i rfl h
  rw [entry, ok_bind, Nat.zero_add]

/-- Counting sorts a range into the buckets of the column, and keeps their sizes. -/
theorem countingSort_append (ready : p.Ready) (inside : column < p.depth)
    (before range after : List UInt32) (candidates : ∀ s ∈ range, p.Candidate s)
    (few : range.length < Position.wordLimit) {buffer keyRow : Array UInt32}
    (roomInBuffer : range.length ≤ buffer.size)
    (roomInKeys : before.length + range.length ≤ keyRow.size)
    {counts : Array (Array UInt32)} (rows : p.CountRows counts) (found : Array Match) :
    ∃ nextBuffer nextKeys nextCounts,
      p.countingSort column before.length (before.length + range.length)
          { suffixes := (before ++ range ++ after).toArray, buffer, keyRow, counts, found } =
        .ok
          { suffixes := (before ++ bucketSort (p.keyNat column) p.keyTable.alphabet range ++
              after).toArray
            buffer := nextBuffer
            keyRow := nextKeys
            counts := nextCounts
            found } ∧
      nextBuffer.size = buffer.size ∧ nextKeys.size = keyRow.size ∧ p.CountRows nextCounts ∧
      nextCounts[column]? = some (p.tally column range) ∧
      ∀ c, c ≠ column → ∀ other, counts[c]? = some other → nextCounts[c]? = some other := by
  have below : ∀ s ∈ range, p.keyNat column s < p.keyTable.alphabet :=
    fun s member => keyNat_lt ready inside (candidates s member)
  obtain ⟨keysBefore, keysAfter, aligned, keysSize, keysRead⟩ :=
    readKeys_append ready inside before range after candidates roomInKeys
  obtain ⟨behind, bufferSize, scattered⟩ :=
    scatter_append after keysAfter aligned few below roomInBuffer
  obtain ⟨row, kept, fetched, size, stored, keptRows, here, others⟩ :=
    store_withColumn rows column (size_tally column range)
  have counted := countKeys_append ready inside keysBefore keysAfter candidates
  rw [aligned, ← clearRow_eq size] at counted
  refine ⟨_, _, kept, ?_, bufferSize, keysSize, keptRows, here, others⟩
  simp only [countingSort]
  rw [keysRead, ok_bind, fetched, ok_bind, counted, ok_bind, scattered, ok_bind,
    copyBack_append (length_bucketSort below).symm, ok_bind, stored, ok_bind, pure_eq_ok]

end SharedRuns.SortPlan
