import Mathlib.Data.List.Sort
import SharedRuns.Proofs.Match.Multiset

/-!
# Where two match sets differ

The differences of two sets are collected in two passes: first the keys of the one set under which
the other counts another number or none, then the keys that only the other set has. No key is met
twice, so the differences are in strictly ascending order of their keys, in whatever order the
passes meet the entries of the sets (`difference_eq_of_perm`). They are the keys that were inserted
in different numbers, each with its two numbers, and exchanging the sets exchanges the numbers
(`difference_counts`).
-/

namespace SharedRuns

/-- Of two entries in an order, one comes first or they are level. -/
theorem isLE_compare_total [Ord α] [Std.OrientedOrd α] (x y : α) :
    ((compare x y).isLE || (compare y x).isLE) = true := by
  rw [Std.OrientedOrd.eq_swap (a := y) (b := x)]
  cases compare x y <;> rfl

namespace MatchMultiset

/-- The same difference seen from the other set. -/
def Difference.flip (d : Difference) : Difference :=
  { key := d.key, mine := d.theirs, theirs := d.mine }

/-- What the first pass makes of an entry, if `t` does not count the same number. -/
def changedEntry (t : MatchMultiset) : RecordKey × Nat → Option Difference := fun (key, mine) =>
  let theirs := t.counts.getD key 0
  if theirs = mine then none else some { key, mine, theirs }

/-- What the second pass makes of an entry, if `s` does not have its key. -/
def missingEntry (s : MatchMultiset) : RecordKey × Nat → Option Difference := fun (key, theirs) =>
  if s.counts.contains key then none else some { key, mine := 0, theirs }

/-- The keys of `s` under which `t` does not count the same number. -/
def changed (s t : MatchMultiset) : List Difference := s.counts.toList.filterMap t.changedEntry

/-- The keys of `t` that `s` does not have. -/
def missing (s t : MatchMultiset) : List Difference := t.counts.toList.filterMap s.missingEntry

theorem difference_eq (s t : MatchMultiset) :
    s.difference t =
      (changed s t ++ missing s t).mergeSort fun d e => (compare d.key e.key).isLE := rfl

variable {s t : MatchMultiset} {d : Difference}

theorem mem_changed :
    d ∈ changed s t ↔ (d.key, d.mine) ∈ s.counts.toList ∧
      d.theirs = t.counts.getD d.key 0 ∧ d.mine ≠ d.theirs := by
  obtain ⟨key, mine, theirs⟩ := d
  simp only [changed, changedEntry, List.mem_filterMap, Prod.exists, Option.ite_none_left_eq_some,
    Option.some.injEq, Difference.mk.injEq]
  constructor
  · rintro ⟨_, _, stored, different, rfl, rfl, rfl⟩
    exact ⟨stored, rfl, fun same => different same.symm⟩
  · rintro ⟨stored, rfl, different⟩
    exact ⟨key, mine, stored, fun same => different same.symm, rfl, rfl, rfl⟩

theorem mem_missing :
    d ∈ missing s t ↔
      (d.key, d.theirs) ∈ t.counts.toList ∧ d.key ∉ s.counts ∧ d.mine = 0 := by
  obtain ⟨key, mine, theirs⟩ := d
  simp only [missing, missingEntry, List.mem_filterMap, Prod.exists, Option.ite_none_left_eq_some,
    Option.some.injEq, Difference.mk.injEq, ← Std.TreeMap.mem_iff_contains]
  constructor
  · rintro ⟨_, _, stored, absent, rfl, rfl, rfl⟩
    exact ⟨stored, absent, rfl⟩
  · rintro ⟨stored, absent, rfl⟩
    exact ⟨key, theirs, stored, absent, rfl, rfl, rfl⟩

theorem mem_difference : d ∈ s.difference t ↔ d ∈ changed s t ∨ d ∈ missing s t := by
  rw [difference_eq, List.mem_mergeSort, List.mem_append]

/-- A pass that keeps the key of an entry meets each key of a set at most once. -/
theorem keys_apart_of_pass (u : MatchMultiset) {pass : RecordKey × Nat → Option Difference}
    (kept : ∀ entry d, pass entry = some d → d.key = entry.1) :
    (u.counts.toList.filterMap pass).Pairwise fun d e => d.key ≠ e.key := by
  rw [List.pairwise_filterMap]
  refine Std.TreeMap.distinct_keys_toList.imp fun different d first e second same => different ?_
  rw [Std.LawfulEqOrd.compare_eq_iff_eq, ← kept _ d first, ← kept _ e second]
  exact same

theorem key_of_kept {drop : Prop} [Decidable drop] {made : Difference}
    (found : (if drop then none else some made) = some d) : d.key = made.key := by
  obtain ⟨-, same⟩ := Option.ite_none_left_eq_some.mp found
  rw [← Option.some.inj same]

/-- The two passes together meet each key at most once. -/
theorem keys_apart (s t : MatchMultiset) :
    (changed s t ++ missing s t).Pairwise fun d e => d.key ≠ e.key := by
  rw [List.pairwise_append]
  refine ⟨keys_apart_of_pass s fun _ _ found => key_of_kept found,
    keys_apart_of_pass t fun _ _ found => key_of_kept found, ?_⟩
  intro d inChanged e inMissing same
  have stored := Std.TreeMap.mem_toList_iff_getElem?_eq_some.mp (mem_changed.mp inChanged).1
  have absent := (mem_missing.mp inMissing).2.1
  rw [← same, Std.TreeMap.mem_iff_isSome_getElem?, stored] at absent
  exact absent rfl

/-- Sorted differences of different keys are in strictly ascending order of these. -/
theorem ascending_mergeSort {ds : List Difference} (apart : ds.Pairwise fun d e => d.key ≠ e.key) :
    (ds.mergeSort fun d e => (compare d.key e.key).isLE).Pairwise
      fun d e => compare d.key e.key = .lt := by
  have sorted : (ds.mergeSort fun d e => (compare d.key e.key).isLE).Pairwise
      fun d e => (compare d.key e.key).isLE := by
    apply List.pairwise_mergeSort
    · exact fun _ _ _ => Std.TransOrd.isLE_trans
    · exact fun _ _ => isLE_compare_total _ _
  replace apart := apart.perm (List.mergeSort_perm ds fun d e => (compare d.key e.key).isLE).symm
    fun different => different.symm
  refine (sorted.and apart).imp fun {d e} ⟨le, different⟩ => ?_
  rcases Ordering.isLE_iff_eq_lt_or_eq_eq.mp le with less | same
  · exact less
  · exact absurd (Std.LawfulEqOrd.eq_of_compare same) different

/-- The differences of two sets are in strictly ascending order of their keys. -/
theorem difference_ascending (s t : MatchMultiset) :
    (s.difference t).Pairwise fun d e => compare d.key e.key = .lt :=
  ascending_mergeSort (keys_apart s t)

/-- Lists in strictly ascending order of their keys are equal if they have the same elements. -/
theorem eq_of_ascending {ds es : List Difference}
    (first : ds.Pairwise fun d e => compare d.key e.key = .lt)
    (second : es.Pairwise fun d e => compare d.key e.key = .lt) (same : ∀ d, d ∈ ds ↔ d ∈ es) :
    ds = es := by
  have : Std.Irrefl fun d e : Difference => compare d.key e.key = .lt :=
    ⟨fun d less => by simp [Std.ReflOrd.compare_self] at less⟩
  have : Std.Antisymm fun d e : Difference => compare d.key e.key = .lt :=
    ⟨fun d e less greater => absurd greater (Std.OrientedCmp.not_lt_of_lt less)⟩
  exact first.eq_of_mem_iff second same

/-- In whatever order the two passes meet the entries of the sets, the differences are the same. -/
theorem difference_eq_of_perm {met others : List (RecordKey × Nat)}
    (first : met.Perm s.counts.toList) (second : others.Perm t.counts.toList) :
    ((met.filterMap t.changedEntry ++ others.filterMap s.missingEntry).mergeSort
      fun d e => (compare d.key e.key).isLE) = s.difference t := by
  have passed : (met.filterMap t.changedEntry ++ others.filterMap s.missingEntry).Perm
      (changed s t ++ missing s t) := (first.filterMap _).append (second.filterMap _)
  have apart := (keys_apart s t).perm passed.symm fun different => different.symm
  refine eq_of_ascending (ascending_mergeSort apart) (difference_ascending s t) fun d => ?_
  rw [List.mem_mergeSort, passed.mem_iff, difference_eq, List.mem_mergeSort]

variable {canonical : Bool} {records others : List Record}

/-- A record is counted under its two names and its two offsets. A canonical set exchanges the sides
if the second name is the smaller one. -/
theorem keys_eq_map (canonical : Bool) (records : List Record) :
    keys canonical records = records.map fun r =>
      if canonical ∧ r.textB < r.textA then ⟨r.textB, r.textA, r.offsetB, r.offsetA⟩
      else ⟨r.textA, r.textB, r.offsetA, r.offsetB⟩ := by
  refine List.map_congr_left fun r _ => ?_
  cases canonical with
  | false => rw [if_neg fun turned => Bool.noConfusion turned.1]; rfl
  | true =>
      show (RecordKey.ofRecord r).oriented = _
      simp only [true_and]
      rfl

theorem mem_counts_ofRecords {k : RecordKey} :
    k ∈ (ofRecords canonical records).counts ↔ k ∈ keys canonical records := by
  rw [Std.TreeMap.mem_iff_isSome_getElem?, getElem?_counts_ofRecords]
  split <;> simp_all

/-- The differences of the sets of two lists are the keys that the lists do not have equally often,
with the numbers of the one and of the other. -/
theorem mem_difference_ofRecords :
    d ∈ (ofRecords canonical records).difference (ofRecords canonical others) ↔
      d.mine = (keys canonical records).count d.key ∧
        d.theirs = (keys canonical others).count d.key ∧ d.mine ≠ d.theirs := by
  rw [mem_difference, mem_changed, mem_missing, getD_counts_ofRecords, mem_toList_counts_ofRecords,
    mem_toList_counts_ofRecords, mem_counts_ofRecords]
  constructor
  · rintro (⟨⟨-, mine⟩, theirs, different⟩ | ⟨⟨inOthers, theirs⟩, absent, zero⟩)
    · exact ⟨mine, theirs, different⟩
    · have never := List.count_eq_zero_of_not_mem absent
      have positive := List.count_pos_iff.mpr inOthers
      exact ⟨by omega, theirs, by omega⟩
  · rintro ⟨mine, theirs, different⟩
    by_cases inRecords : d.key ∈ keys canonical records
    · exact .inl ⟨⟨inRecords, mine⟩, theirs, different⟩
    · have zero := mine.trans (List.count_eq_zero_of_not_mem inRecords)
      have inOthers : d.key ∈ keys canonical others := List.count_pos_iff.mp (by omega)
      exact .inr ⟨⟨inOthers, theirs⟩, inRecords, zero⟩

/-- The sets of two lists do not differ if the lists have the same keys, each as often. -/
theorem difference_ofRecords_eq_nil_iff :
    (ofRecords canonical records).difference (ofRecords canonical others) = [] ↔
      (keys canonical records).Perm (keys canonical others) := by
  rw [List.perm_iff_count, List.eq_nil_iff_forall_not_mem]
  constructor
  · intro none k
    by_contra different
    exact none ⟨k, _, _⟩ (mem_difference_ofRecords.mpr ⟨rfl, rfl, different⟩)
  · intro same d found
    obtain ⟨mine, theirs, different⟩ := mem_difference_ofRecords.mp found
    exact different (mine.trans ((same d.key).trans theirs.symm))

/-- Exchanging the sets exchanges the numbers. -/
theorem difference_ofRecords_flip :
    (ofRecords canonical others).difference (ofRecords canonical records) =
      ((ofRecords canonical records).difference (ofRecords canonical others)).map
        Difference.flip := by
  refine eq_of_ascending (difference_ascending _ _)
    (List.pairwise_map.mpr (difference_ascending _ _)) fun d => ?_
  constructor
  · intro found
    obtain ⟨mine, theirs, different⟩ := mem_difference_ofRecords.mp found
    exact List.mem_map.mpr
      ⟨d.flip, mem_difference_ofRecords.mpr ⟨theirs, mine, different.symm⟩, rfl⟩
  · intro found
    obtain ⟨e, inDifference, rfl⟩ := List.mem_map.mp found
    obtain ⟨mine, theirs, different⟩ := mem_difference_ofRecords.mp inDifference
    exact mem_difference_ofRecords.mpr ⟨theirs, mine, different.symm⟩

theorem distinct_ofRecords :
    (ofRecords canonical records).distinct = (keys canonical records).dedup.length := by
  rw [distinct, ← Std.TreeMap.length_toList, toList_counts_ofRecords_perm.length_eq,
    List.length_map]

/-- Keys repeat in a set if it has fewer keys than insertions. -/
theorem hasRepeats_iff_distinct_lt_total :
    (ofRecords canonical records).hasRepeats = true ↔
      (ofRecords canonical records).distinct < (ofRecords canonical records).total := by
  have shorter : (keys canonical records).dedup.Sublist (keys canonical records) :=
    List.dedup_sublist _
  have length : (keys canonical records).length = records.length := List.length_map _
  rw [hasRepeats_ofRecords, decide_eq_true_eq, distinct_ofRecords, total_ofRecords, ← length,
    ← List.dedup_eq_self]
  constructor
  · intro different
    apply Nat.lt_of_le_of_ne shorter.length_le
    exact fun same => different (shorter.eq_of_length same)
  · intro less same
    rw [same] at less
    exact Nat.lt_irrefl _ less

/-- The differences of the sets of two lists, canonical or not: in strictly ascending order of their
keys, the keys that the lists do not have equally often, each with its two numbers. There are none
exactly if the lists have the same keys, each as often, and exchanging the sets exchanges the
numbers. A set counts all records, and keys repeat in it if it has fewer keys than that. -/
theorem difference_counts (canonical : Bool) (records others : List Record) :
    let key := fun r : Record =>
      if canonical ∧ r.textB < r.textA then
        ({ textA := r.textB, textB := r.textA, offsetA := r.offsetB, offsetB := r.offsetA } :
          RecordKey)
      else { textA := r.textA, textB := r.textB, offsetA := r.offsetA, offsetB := r.offsetB }
    let mine := ofRecords canonical records
    let theirs := ofRecords canonical others
    ((mine.difference theirs).Pairwise fun d e => compare d.key e.key = .lt) ∧
    (∀ d, d ∈ mine.difference theirs ↔
      d.mine = (records.map key).count d.key ∧
        d.theirs = (others.map key).count d.key ∧ d.mine ≠ d.theirs) ∧
    (mine.difference theirs = [] ↔ (records.map key).Perm (others.map key)) ∧
    (theirs.difference mine = (mine.difference theirs).map fun d =>
      { key := d.key, mine := d.theirs, theirs := d.mine }) ∧
    mine.total = records.length ∧
    (mine.hasRepeats = true ↔ mine.distinct < mine.total) := by
  intro key mine theirs
  rw [← keys_eq_map, ← keys_eq_map]
  exact ⟨difference_ascending _ _, fun _ => mem_difference_ofRecords,
    difference_ofRecords_eq_nil_iff, difference_ofRecords_flip, total_ofRecords,
    hasRepeats_iff_distinct_lt_total⟩

end MatchMultiset

end SharedRuns
