import SharedRuns.Proofs.Checked
import SharedRuns.Proofs.SuffixSort.Buckets
import SharedRuns.Proofs.SuffixSort.Keys

/-!
# Sorting a short range

Insertion leaves a range of candidates sorted into the buckets of a column and changes nothing
outside the range. The runs of equal keys that are looked for afterwards are these buckets: the
ranges that remain to be sorted are those of the buckets with at least two entries.
-/

namespace SharedRuns.SortPlan

open Checked

variable {p : SortPlan} {column : Nat}

theorem sink_self (key : UInt32) (min : Nat) (row : Array UInt32) :
    p.sink column key min min row = .ok row := by
  cases min with
  | zero => rfl
  | succ min => simp [sink]

theorem sink_step (ready : p.Ready) (inside : column < p.depth) {m : Nat} (key s x : UInt32)
    (above after : List UInt32) (candidate : p.Candidate s) (room : m ≤ above.length) :
    p.sink column key m (above.length + 1) (above ++ s :: x :: after).toArray =
      if key < p.keyOf column s then
        p.sink column key m above.length (above ++ x :: s :: after).toArray
      else .ok (above ++ s :: x :: after).toArray := by
  rw [sink, if_neg (by omega), fetch_append rfl, ok_bind, keyAt_of_candidate ready inside candidate,
    ok_bind, exchange_append rfl, ok_bind, pure_eq_ok]

/-- A suffix sinks through the suffixes with larger keys and stops behind the others. -/
theorem sink_append (ready : p.Ready) (inside : column < p.depth) (key : UInt32)
    (before lower upper after : List UInt32) (x : UInt32)
    (candidates : ∀ s ∈ lower ++ upper, p.Candidate s)
    (small : ∀ s ∈ lower, p.keyOf column s ≤ key) (large : ∀ s ∈ upper, key < p.keyOf column s) :
    p.sink column key before.length (before.length + lower.length + upper.length)
        (before ++ lower ++ upper ++ x :: after).toArray =
      .ok (before ++ lower ++ x :: upper ++ after).toArray := by
  induction upper using List.reverseRecOn generalizing after with
  | nil =>
      cases lower using List.reverseRecOn with
      | nil => simpa using sink_self key before.length _
      | append_singleton lower s =>
          have stop : ¬ key < p.keyOf column s := UInt32.not_lt.mpr (small s (by simp))
          have step := sink_step ready inside (m := before.length) key s x (before ++ lower) after
            (candidates s (by simp)) (by simp)
          rw [if_neg stop] at step
          simpa [← Nat.add_assoc] using step
  | append_singleton upper s ih =>
      have pass : key < p.keyOf column s := large s (by simp)
      have step := sink_step ready inside (m := before.length) key s x (before ++ lower ++ upper)
        after (candidates s (by simp)) (by simp only [List.length_append]; omega)
      have further := ih (s :: after)
        (fun t member => candidates t (List.append_assoc .. ▸ List.mem_append_left [s] member))
        (fun t member => large t (List.mem_append_left _ member))
      rw [if_pos pass] at step
      simp only [List.append_assoc, List.length_append, List.length_singleton, List.cons_append,
        List.nil_append, ← Nat.add_assoc] at step further ⊢
      exact step.trans further

/-- Inserting the entries of a range one after another sorts them into their buckets. -/
theorem insert_rest (ready : p.Ready) (inside : column < p.depth)
    (before done rest after : List UInt32) (candidates : ∀ s ∈ done ++ rest, p.Candidate s) :
    (List.range' (before.length + done.length) rest.length).foldlM (fun row i => do
        let key ← p.keyAt (← fetch row i) column
        p.sink column key before.length i row)
        (before ++ bucketSort (p.keyNat column) p.keyTable.alphabet done ++ rest ++ after).toArray =
      .ok (before ++ bucketSort (p.keyNat column) p.keyTable.alphabet (done ++ rest) ++
        after).toArray := by
  induction rest generalizing done with
  | nil => simp
  | cons x rest ih =>
      have candidate : p.Candidate x := candidates x (by simp)
      have keyInside := keyNat_lt ready inside candidate
      have earlier : ∀ s ∈ done, p.Candidate s := fun s member =>
        candidates s (List.mem_append_left _ member)
      have sorted := bucketSort_perm fun s member => keyNat_lt ready inside (earlier s member)
      have next := ih (done ++ [x]) (by simpa using candidates)
      rw [bucketSort_concat keyInside] at next
      rw [bucketSort_eq_append keyInside] at sorted ⊢
      have sunk := sink_append ready inside (p.keyOf column x) before
        (bucketsUpTo (p.keyNat column) x done)
        (bucketsBeyond (p.keyNat column) p.keyTable.alphabet x done) (rest ++ after) x
        (fun s member => earlier s (sorted.subset member))
        (fun s member => keyOf_le_iff.mpr (key_le_of_mem_bucketsUpTo member))
        (fun s member => keyOf_lt_iff.mpr (lt_key_of_mem_bucketsBeyond member))
      have length := sorted.length_eq
      rw [List.length_append] at length
      rw [Nat.add_assoc, length] at sunk
      rw [List.length_cons, List.range'_succ, List.foldlM_cons, List.append_assoc _ (x :: rest),
        List.cons_append, fetch_append (by simp [length]), ok_bind,
        keyAt_of_candidate ready inside candidate, ok_bind, ← List.append_assoc before, sunk,
        ok_bind]
      simpa [Nat.add_assoc] using next

/-- Insertion sorts a range into the buckets of the column. -/
theorem insertionSort_append (ready : p.Ready) (inside : column < p.depth)
    (before range after : List UInt32) (candidates : ∀ s ∈ range, p.Candidate s) :
    p.insertionSort column before.length (before.length + range.length)
        (before ++ range ++ after).toArray =
      .ok (before ++ bucketSort (p.keyNat column) p.keyTable.alphabet range ++ after).toArray := by
  cases range with
  | nil => simp [insertionSort, span, bucketSort, bucket]
  | cons x rest =>
      have alone : bucketSort (p.keyNat column) p.keyTable.alphabet [x] = [x] :=
        List.perm_singleton.mp (bucketSort_perm fun s member => keyNat_lt ready inside
          (candidates s (by simp_all)))
      have inserted := insert_rest ready inside before [x] rest after candidates
      rw [alone] at inserted
      have indices : span (before.length + 1) (before.length + (x :: rest).length) =
          List.range' (before.length + 1) rest.length := by
        rw [List.length_cons, Nat.add_comm rest.length, ← Nat.add_assoc, span_eq_range']
      rw [insertionSort, indices]
      simpa using inserted

theorem rangeKeys_append (ready : p.Ready) (inside : column < p.depth)
    (before range after : List UInt32) (candidates : ∀ s ∈ range, p.Candidate s) :
    p.rangeKeys column before.length (before.length + range.length)
        (before ++ range ++ after).toArray = .ok (range.map (p.keyOf column)) := by
  apply mapM_span
  intro i h
  rw [fetch_middle rfl h, ok_bind]
  exact keyAt_of_candidate ready inside (candidates _ (List.getElem_mem h))

theorem runsFrom_append {start count : Nat} {key : UInt32} {more rest : List UInt32}
    (same : ∀ next ∈ more, next = key) :
    runsFrom start count key (more ++ rest) = runsFrom start (count + more.length) key rest := by
  induction more generalizing count with
  | nil => rfl
  | cons next more ih =>
      obtain ⟨rfl, same⟩ := List.forall_mem_cons.mp same
      rw [List.cons_append, runsFrom, if_pos rfl, ih same, List.length_cons, Nat.add_right_comm,
        Nat.add_assoc]

theorem runsFrom_of_ne {start count : Nat} {key : UInt32} {rest : List UInt32}
    (other : ∀ next ∈ rest, next ≠ key) :
    runsFrom start count key rest =
      if 1 < count then (start, start + count) :: runs (start + count) rest
      else runs (start + count) rest := by
  cases rest with
  | nil => rfl
  | cons next rest => rw [runsFrom, if_neg (other next List.mem_cons_self), runs]

/-- If the entries of each group are its number, the runs are the groups. -/
theorem runs_flatMap {group : Nat → List UInt32} (keyed : ∀ k, ∀ x ∈ group k, x.toNat = k)
    (start first count : Nat) :
    runs start ((List.range' first count).flatMap group) =
      groupRanges start ((List.range' first count).map fun k => (group k).length) := by
  induction count generalizing start first with
  | zero => rfl
  | succ count ih =>
      rw [List.range'_succ, List.flatMap_cons, List.map_cons, groupRanges]
      cases content : group first with
      | nil => simpa using ih start (first + 1)
      | cons key more =>
          have keyOf : key.toNat = first := keyed first key (by simp [content])
          have same : ∀ next ∈ more, next = key := by
            intro next member
            apply UInt32.toNat_inj.mp
            rw [keyOf, keyed first next (by simp [content, member])]
          have other : ∀ next ∈ (List.range' (first + 1) count).flatMap group, next ≠ key := by
            rintro next member rfl
            obtain ⟨k, range, inGroup⟩ := List.mem_flatMap.mp member
            have later := (List.mem_range'_1.mp range).1
            rw [← keyed k next inGroup, keyOf] at later
            exact Nat.not_succ_le_self first later
          rw [List.cons_append, runs, runsFrom_append same, runsFrom_of_ne other, ih,
            List.length_cons, Nat.add_comm 1]

/-- The runs of a sorted range are its buckets. -/
theorem runs_bucketSort (start : Nat) (range : List UInt32) :
    runs start ((bucketSort (p.keyNat column) p.keyTable.alphabet range).map (p.keyOf column)) =
      groupRanges start (bucketSizes (p.keyNat column) p.keyTable.alphabet range) := by
  have keyed : ∀ k, ∀ x ∈ (bucket (p.keyNat column) range k).map (p.keyOf column), x.toNat = k := by
    intro k x member
    obtain ⟨s, inBucket, rfl⟩ := List.mem_map.mp member
    exact (mem_bucket.mp inBucket).2
  have groups := runs_flatMap keyed start 0 p.keyTable.alphabet
  rw [← List.range_eq_range'] at groups
  simp only [List.length_map] at groups
  rw [bucketSort, List.map_flatMap, groups, bucketSizes]

/-- A short range is split into the buckets of the column. -/
theorem splitShort_append (ready : p.Ready) (inside : column < p.depth)
    (before range after : List UInt32) (candidates : ∀ s ∈ range, p.Candidate s)
    (buffer keyRow : Array UInt32) (counts : Array (Array UInt32)) (found : Array Match) :
    p.splitShort column before.length (before.length + range.length)
        { suffixes := (before ++ range ++ after).toArray, buffer, keyRow, counts, found } =
      .ok
        ({ suffixes := (before ++ bucketSort (p.keyNat column) p.keyTable.alphabet range ++
            after).toArray
           buffer, keyRow, counts, found },
          groupRanges before.length (bucketSizes (p.keyNat column) p.keyTable.alphabet range)) := by
  have sorted := bucketSort_perm fun s member => keyNat_lt ready inside (candidates s member)
  have keys := rangeKeys_append ready inside before
    (bucketSort (p.keyNat column) p.keyTable.alphabet range) after
    fun s member => candidates s (sorted.subset member)
  rw [sorted.length_eq] at keys
  rw [splitShort, insertionSort_append ready inside before range after candidates, ok_bind, keys,
    ok_bind, runs_bucketSort]
  rfl

end SharedRuns.SortPlan
