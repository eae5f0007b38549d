import Mathlib.Data.List.Basic
import Mathlib.Data.List.Induction
import Mathlib.Data.List.Nodup

/-!
# Buckets

To sort a list by keys below `count` means to put its entries into one bucket for each key and to
join the buckets in the order of the keys. Inside a bucket the entries keep the order that they had
in the list. `bucketSort` is this sort as a function on lists; both ways in which a range of
suffixes is sorted are shown to be this function.
-/

namespace SharedRuns

variable {α β κ : Type}

section

variable [DecidableEq κ] {key : α → κ} {k : κ}

/-- The entries with a key. -/
def bucket (key : α → κ) (xs : List α) (k : κ) : List α := xs.filter fun x => key x = k

@[simp] theorem mem_bucket {xs : List α} {x : α} : x ∈ bucket key xs k ↔ x ∈ xs ∧ key x = k := by
  simp [bucket]

theorem bucket_append (xs ys : List α) (k : κ) :
    bucket key (xs ++ ys) k = bucket key xs k ++ bucket key ys k :=
  List.filter_append ..

theorem bucket_cons_self (x : α) (xs : List α) :
    bucket key (x :: xs) (key x) = x :: bucket key xs (key x) := by
  simp [bucket]

theorem bucket_cons_of_ne {x : α} (other : k ≠ key x) (xs : List α) :
    bucket key (x :: xs) k = bucket key xs k := by
  simp [bucket, other.symm]

theorem bucket_concat_self (xs : List α) (x : α) :
    bucket key (xs ++ [x]) (key x) = bucket key xs (key x) ++ [x] := by
  simp [bucket]

theorem bucket_concat_of_ne {x : α} (other : k ≠ key x) (xs : List α) :
    bucket key (xs ++ [x]) k = bucket key xs k := by
  simp [bucket, other.symm]

/-- The buckets of different keys hold every entry once, if its key is among them. -/
theorem flatMap_bucket_perm {keys : List κ} (nodup : keys.Nodup) {xs : List α}
    (inside : ∀ x ∈ xs, key x ∈ keys) : (keys.flatMap (bucket key xs)).Perm xs := by
  induction xs with
  | nil => simp [bucket]
  | cons x xs ih =>
      rw [List.forall_mem_cons] at inside
      have earlier := ih inside.2
      obtain ⟨before, after, rfl⟩ := List.append_of_mem inside.1
      rw [List.nodup_middle, List.nodup_cons, List.mem_append, not_or] at nodup
      have others : ∀ keys : List κ, key x ∉ keys →
          keys.flatMap (bucket key (x :: xs)) = keys.flatMap (bucket key xs) := by
        intro keys absent
        refine List.flatMap_congr fun k member => bucket_cons_of_ne ?_ xs
        rintro rfl
        exact absent member
      rw [List.flatMap_append, List.flatMap_cons] at earlier ⊢
      rw [others before nodup.1.1, others after nodup.1.2, bucket_cons_self, List.cons_append]
      exact List.perm_middle.trans (earlier.cons x)

end

variable {key : α → Nat} {count : Nat}

/-- A row of buckets, split at one of them. -/
theorem flatMap_range_split (f : Nat → List β) {k : Nat} (inside : k < count) :
    (List.range count).flatMap f =
      (List.range k).flatMap f ++ f k ++ (List.range' (k + 1) (count - (k + 1))).flatMap f := by
  have rest : count - k = count - (k + 1) + 1 := by omega
  have whole : List.range count = List.range k ++ k :: List.range' (k + 1) (count - (k + 1)) := by
    rw [← List.range'_succ, ← rest, List.range_eq_range', List.range_eq_range']
    simpa [Nat.add_sub_cancel' (Nat.le_of_lt inside)] using
      (List.range'_append_1 (s := 0) (m := k) (n := count - k)).symm
  rw [whole, List.flatMap_append, List.flatMap_cons, List.append_assoc]

theorem flatMap_range_replace {f g : Nat → List β} {k : Nat} (inside : k < count)
    (others : ∀ j, j ≠ k → g j = f j) :
    (List.range count).flatMap g =
      (List.range k).flatMap f ++ g k ++ (List.range' (k + 1) (count - (k + 1))).flatMap f := by
  rw [flatMap_range_split g inside,
    List.flatMap_congr fun j member => others j (Nat.ne_of_lt (List.mem_range.mp member)),
    List.flatMap_congr fun j member => others j (Nat.ne_of_gt (List.mem_range'_1.mp member).1)]

/-- The entries of a list in the order of their keys; entries with one key keep their order. -/
def bucketSort (key : α → Nat) (count : Nat) (xs : List α) : List α :=
  (List.range count).flatMap (bucket key xs)

/-- The entries with keys up to that of `x`, in order: those that `x` is sorted behind. -/
def bucketsUpTo (key : α → Nat) (x : α) (xs : List α) : List α :=
  (List.range (key x)).flatMap (bucket key xs) ++ bucket key xs (key x)

/-- The entries with larger keys than `x`, in order: those that `x` is sorted before. -/
def bucketsBeyond (key : α → Nat) (count : Nat) (x : α) (xs : List α) : List α :=
  (List.range' (key x + 1) (count - (key x + 1))).flatMap (bucket key xs)

theorem key_le_of_mem_bucketsUpTo {x y : α} {xs : List α} (member : y ∈ bucketsUpTo key x xs) :
    key y ≤ key x := by
  simp only [bucketsUpTo, List.mem_append, List.mem_flatMap, List.mem_range, mem_bucket] at member
  rcases member with ⟨k, below, -, rfl⟩ | ⟨-, equal⟩
  · exact Nat.le_of_lt below
  · exact Nat.le_of_eq equal

theorem lt_key_of_mem_bucketsBeyond {x y : α} {xs : List α}
    (member : y ∈ bucketsBeyond key count x xs) : key x < key y := by
  simp only [bucketsBeyond, List.mem_flatMap, List.mem_range'_1, mem_bucket] at member
  obtain ⟨k, range, -, rfl⟩ := member
  exact range.1

theorem bucketSort_eq_append {x : α} (inside : key x < count) (xs : List α) :
    bucketSort key count xs = bucketsUpTo key x xs ++ bucketsBeyond key count x xs :=
  flatMap_range_split _ inside

/-- One more entry is sorted behind all entries with keys up to its own. -/
theorem bucketSort_concat {x : α} (inside : key x < count) (xs : List α) :
    bucketSort key count (xs ++ [x]) =
      bucketsUpTo key x xs ++ x :: bucketsBeyond key count x xs := by
  rw [bucketSort, flatMap_range_replace inside fun k other => bucket_concat_of_ne other xs,
    bucket_concat_self, bucketsUpTo, bucketsBeyond]
  simp

theorem bucketSort_perm {xs : List α} (inside : ∀ x ∈ xs, key x < count) :
    (bucketSort key count xs).Perm xs :=
  flatMap_bucket_perm List.nodup_range fun x member => List.mem_range.mpr (inside x member)

theorem length_bucketSort {xs : List α} (inside : ∀ x ∈ xs, key x < count) :
    (bucketSort key count xs).length = xs.length :=
  (bucketSort_perm inside).length_eq

/-- The number of entries with smaller keys than `k`: where the bucket of `k` starts. -/
def bucketStart (key : α → Nat) (xs : List α) (k : Nat) : Nat :=
  ((List.range k).flatMap (bucket key xs)).length

theorem bucketStart_succ {xs : List α} {k : Nat} :
    bucketStart key xs (k + 1) = bucketStart key xs k + (bucket key xs k).length := by
  simp [bucketStart, List.range_succ]

theorem bucketStart_add_le {xs : List α} (below : ∀ x ∈ xs, key x < count) {k : Nat}
    (inside : k < count) : bucketStart key xs k + (bucket key xs k).length ≤ xs.length := by
  have whole := length_bucketSort below
  rw [bucketSort, flatMap_range_split _ inside] at whole
  rw [← whole, List.length_append, List.length_append]
  exact Nat.le_add_right _ _

/-- Any list is split into segments as long as the buckets. -/
theorem flatMap_segments (key : α → Nat) (xs : List α) (ys : List β) (k : Nat) :
    (List.range k).flatMap
        (fun j => (ys.drop (bucketStart key xs j)).take (bucket key xs j).length) =
      ys.take (bucketStart key xs k) := by
  induction k with
  | zero => rfl
  | succ k ih => rw [List.range_succ, List.flatMap_append, ih, bucketStart_succ, List.take_add,
      List.flatMap_singleton]

/-- The numbers of entries of the buckets. -/
def bucketSizes (key : α → Nat) (count : Nat) (xs : List α) : List Nat :=
  (List.range count).map fun k => (bucket key xs k).length

/-- The ranges of groups that follow one another from `start` on and have `sizes` entries, of those
groups that have at least two. -/
def groupRanges (start : Nat) : (sizes : List Nat) → List (Nat × Nat)
  | [] => []
  | size :: rest =>
    if 1 < size then (start, start + size) :: groupRanges (start + size) rest
    else groupRanges (start + size) rest

/-- The stable sort of a list by its keys. -/
def stableSort (key : α → Nat) (xs : List α) : List α :=
  xs.mergeSort fun x y => decide (key x ≤ key y)

theorem stableSort_ascending (xs : List α) :
    (stableSort key xs).Pairwise fun x y => key x ≤ key y := by
  have sorted : (stableSort key xs).Pairwise fun x y => decide (key x ≤ key y) :=
    List.pairwise_mergeSort (fun _ _ _ => by simpa using Nat.le_trans)
      (fun _ _ => by simpa using Nat.le_total _ _) xs
  simpa using sorted

/-- A stable sort leaves each bucket as it is. -/
theorem bucket_stableSort (xs : List α) (k : Nat) :
    bucket key (stableSort key xs) k = bucket key xs k := by
  have perm : (stableSort key xs).Perm xs := List.mergeSort_perm ..
  have equal : (bucket key xs k).Pairwise fun x y => decide (key x ≤ key y) :=
    List.pairwise_of_forall_mem_list fun x inX y inY => by
      simp [(mem_bucket.mp inX).2, (mem_bucket.mp inY).2]
  have kept : (bucket key xs k).Sublist (stableSort key xs) :=
    List.sublist_mergeSort (fun _ _ _ => by simpa using Nat.le_trans)
      (fun _ _ => by simpa using Nat.le_total _ _) equal List.filter_sublist
  have inBucket : (bucket key xs k).Sublist (bucket key (stableSort key xs) k) := by
    simpa [bucket] using kept.filter fun x => key x = k
  exact (inBucket.eq_of_length (perm.filter _).length_eq.symm).symm

/-- Sorting changes nothing in a list whose keys ascend. -/
theorem bucketSort_of_ascending {xs : List α} (below : ∀ x ∈ xs, key x < count)
    (ascending : xs.Pairwise fun x y => key x ≤ key y) : bucketSort key count xs = xs := by
  induction xs using List.reverseRecOn with
  | nil => simp [bucketSort, bucket]
  | append_singleton xs x ih =>
      rw [List.pairwise_append] at ascending
      have inside : key x < count := below x (by simp)
      have earlier := ih (fun y member => below y (List.mem_append_left _ member)) ascending.1
      have none : bucketsBeyond key count x xs = [] := by
        refine List.eq_nil_iff_forall_not_mem.mpr fun y member => ?_
        have inList : y ∈ xs := by
          rw [← earlier, bucketSort_eq_append inside]
          exact List.mem_append_right _ member
        exact Nat.not_lt.mpr (ascending.2.2 y inList x (List.mem_singleton_self x))
          (lt_key_of_mem_bucketsBeyond member)
      rw [bucketSort_eq_append inside, none, List.append_nil] at earlier
      rw [bucketSort_concat inside, none, earlier]

/-- Putting a list into buckets is the stable sort. -/
theorem bucketSort_eq_stableSort {xs : List α} (below : ∀ x ∈ xs, key x < count) :
    bucketSort key count xs = stableSort key xs := by
  have perm : (stableSort key xs).Perm xs := List.mergeSort_perm ..
  rw [bucketSort, List.flatMap_congr fun k _ => (bucket_stableSort xs k).symm]
  exact bucketSort_of_ascending (fun x member => below x (perm.subset member))
    (stableSort_ascending xs)

end SharedRuns
