import Mathlib.Algebra.BigOperators.Group.List.Lemmas
import Mathlib.Data.List.Dedup
import Mathlib.Data.List.Induction
import Mathlib.Data.String.Basic
import Mathlib.Order.Defs.LinearOrder
import SharedRuns.Match.Multiset

/-!
# What a match set counts

A match set of records is described by the list of their keys: under each key stands how often the
list has it. The number of insertions and the repeats of a set are those of the list
(`total_ofRecords`, `hasRepeats_ofRecords`).
-/

namespace SharedRuns

namespace RecordKey

/-- Both directions of a match between texts of different names are turned the same way. -/
theorem oriented_swap {k : RecordKey} (apart : k.textA ≠ k.textB) :
    k.swap.oriented = k.oriented := by
  rcases lt_trichotomy k.textA k.textB with less | same | greater
  · simp [oriented, swap, less, less.not_gt]
  · exact absurd same apart
  · simp [oriented, swap, greater, greater.not_gt]

end RecordKey

namespace MatchMultiset

variable {canonical : Bool} {records others : List Record}

/-- The keys under which records are counted. -/
def keys (canonical : Bool) (records : List Record) : List RecordKey :=
  records.map fun r => (empty canonical).place (.ofRecord r)

theorem keys_concat (r : Record) :
    keys canonical (records ++ [r]) =
      keys canonical records ++ [(empty canonical).place (.ofRecord r)] := by
  simp [keys]

theorem ofRecords_concat (r : Record) :
    ofRecords canonical (records ++ [r]) = (ofRecords canonical records).insert r := by
  simp [ofRecords]

theorem canonical_ofRecords : (ofRecords canonical records).canonical = canonical := by
  induction records using List.reverseRecOn with
  | nil => rfl
  | append_singleton earlier r ih =>
      rw [ofRecords_concat]
      exact ih

theorem place_ofRecords (k : RecordKey) :
    (ofRecords canonical records).place k = (empty canonical).place k := by
  rw [place, canonical_ofRecords]
  rfl

/-- Under a key stands the number of records that have it, if there are any. -/
theorem getElem?_counts_ofRecords (k : RecordKey) :
    (ofRecords canonical records).counts[k]? =
      if k ∈ keys canonical records then some ((keys canonical records).count k) else none := by
  induction records using List.reverseRecOn with
  | nil => exact Std.TreeMap.getElem?_emptyc
  | append_singleton earlier r ih =>
      rw [ofRecords_concat, insert, Std.TreeMap.getElem?_alter, place_ofRecords, keys_concat,
        List.count_append]
      simp only [Std.LawfulEqOrd.compare_eq_iff_eq, List.mem_append, List.mem_singleton]
      by_cases same : (empty canonical).place (.ofRecord r) = k
      · by_cases earlierToo : k ∈ keys canonical earlier
        · simp [same, ih, earlierToo]
        · simp [same, ih, earlierToo, List.count_eq_zero_of_not_mem]
      · have other : k ≠ (empty canonical).place (.ofRecord r) := fun h => same h.symm
        simp [same, other, ih]

theorem getD_counts_ofRecords (k : RecordKey) :
    (ofRecords canonical records).counts.getD k 0 = (keys canonical records).count k := by
  rw [Std.TreeMap.getD_eq_getD_getElem?, getElem?_counts_ofRecords]
  split
  · rfl
  · next absent => rw [List.count_eq_zero_of_not_mem absent]; rfl

theorem mem_toList_counts_ofRecords {k : RecordKey} {n : Nat} :
    (k, n) ∈ (ofRecords canonical records).counts.toList ↔
      k ∈ keys canonical records ∧ n = (keys canonical records).count k := by
  rw [Std.TreeMap.mem_toList_iff_getElem?_eq_some, getElem?_counts_ofRecords,
    Option.ite_none_right_eq_some, Option.some.injEq]
  exact and_congr_right fun _ => eq_comm

/-- The entries are the different keys with their numbers, in some order. -/
theorem toList_counts_ofRecords_perm :
    (ofRecords canonical records).counts.toList.Perm
      ((keys canonical records).dedup.map fun k => (k, (keys canonical records).count k)) := by
  have nodup : (ofRecords canonical records).counts.toList.Nodup := by
    refine Std.TreeMap.distinct_keys_toList.imp fun {a b} different same => different ?_
    rw [same]
    exact Std.ReflCmp.compare_self
  refine (List.perm_ext_iff_of_nodup nodup ?_).mpr fun (k, n) => ?_
  · exact (List.nodup_dedup _).map fun k l same => (Prod.mk.inj same).1
  · rw [mem_toList_counts_ofRecords]
    simp only [List.mem_map, List.mem_dedup, Prod.mk.injEq]
    constructor
    · rintro ⟨member, rfl⟩
      exact ⟨k, member, rfl, rfl⟩
    · rintro ⟨_, member, rfl, rfl⟩
      exact ⟨member, rfl⟩

/-- As many insertions are counted as there were. -/
theorem total_ofRecords : (ofRecords canonical records).total = records.length := by
  calc (ofRecords canonical records).total
      = ((ofRecords canonical records).counts.toList.map Prod.snd).sum := by
        rw [total, Std.TreeMap.foldl_eq_foldl_toList, ← List.foldl_map, List.sum_eq_foldl]
    _ = ((keys canonical records).dedup.map fun k => (keys canonical records).count k).sum := by
        rw [(toList_counts_ofRecords_perm.map Prod.snd).sum_eq, List.map_map]
        rfl
    _ = records.length := by
        rw [List.sum_map_count_dedup_eq_length, keys, List.length_map]

private theorem any_eq_any_toList (t : Std.TreeMap RecordKey Nat) (p : RecordKey → Nat → Bool) :
    t.any p = t.toList.any fun entry => p entry.1 entry.2 := by
  show Id.run (do
      for entry in t do
        if p entry.1 entry.2 then return true
      return false) = _
  rw [Std.TreeMap.forIn_eq_forIn_toList]
  induction t.toList with
  | nil => rfl
  | cons entry rest ih =>
      obtain ⟨k, n⟩ := entry
      simp only [List.forIn_cons, List.any_cons]
      by_cases found : p k n
      · simp [found]
      · simp only [found, Bool.false_or] at ih ⊢
        exact ih

/-- Keys repeat in a set if they repeat among the records. -/
theorem hasRepeats_ofRecords :
    (ofRecords canonical records).hasRepeats = decide (¬ (keys canonical records).Nodup) := by
  rw [hasRepeats, any_eq_any_toList, Bool.eq_iff_iff, List.any_eq_true, decide_eq_true_eq,
    List.nodup_iff_count_le_one, not_forall]
  constructor
  · rintro ⟨⟨k, n⟩, member, repeated⟩
    obtain ⟨-, rfl⟩ := mem_toList_counts_ofRecords.mp member
    exact ⟨k, Nat.not_le.mpr (of_decide_eq_true repeated)⟩
  · rintro ⟨k, repeated⟩
    have many : 1 < (keys canonical records).count k := Nat.not_le.mp repeated
    have member : k ∈ keys canonical records := List.count_pos_iff.mp (by omega)
    exact ⟨(k, _), mem_toList_counts_ofRecords.mpr ⟨member, rfl⟩, decide_eq_true many⟩

end MatchMultiset

end SharedRuns
