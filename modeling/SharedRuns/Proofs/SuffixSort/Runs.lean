import Mathlib.Data.List.Basic
import Mathlib.Data.List.Induction
import SharedRuns.SuffixSort

/-!
# Runs of equal keys

The ranges that `SortPlan.runs` finds in a list of keys are the maximal runs of at least two equal
keys, from left to right (`mem_runs`, `runs_apart`). In a sorted list the keys of the runs ascend,
so that each run is found once (`runs_areRuns`).
-/

namespace SharedRuns.SortPlan

/-- In a list of keys whose first index is `first`, a run is a range of at least two indices at
which one key stands, and which cannot be extended. -/
def IsRun (first : Nat) (keys : List UInt32) (key : UInt32) (run : Nat × Nat) : Prop :=
  ∃ before count after, keys = before ++ (List.replicate count key ++ after) ∧ 1 < count ∧
    before.getLast? ≠ some key ∧ after.head? ≠ some key ∧
    run = (first + before.length, first + before.length + count)

/-- The ranges are the runs in a list of keys, by ascending keys. -/
structure AreRuns (first : Nat) (keys : List UInt32) (ranges : List (Nat × Nat)) : Prop where
  mem_iff : ∀ run, run ∈ ranges ↔ ∃ key, IsRun first keys key run
  ascending : ranges.Pairwise fun r s =>
    ∀ k l, IsRun first keys k r → IsRun first keys l s → k < l

variable {first start count : Nat} {key : UInt32} {keys tail rest : List UInt32} {run : Nat × Nat}

theorem replicate_append_inj {c : Nat} {after : List UInt32}
    (same : List.replicate count key ++ tail = List.replicate c key ++ after)
    (other : tail.head? ≠ some key) (otherAfter : after.head? ≠ some key) :
    count = c ∧ tail = after := by
  induction count generalizing c with
  | zero =>
      cases c with
      | zero => exact ⟨rfl, same⟩
      | succ c =>
          rw [List.replicate_zero, List.nil_append, List.replicate_succ, List.cons_append] at same
          simp [same] at other
  | succ count ih =>
      cases c with
      | zero =>
          rw [List.replicate_zero, List.nil_append, List.replicate_succ, List.cons_append] at same
          simp [← same] at otherAfter
      | succ c =>
          rw [List.replicate_succ, List.replicate_succ, List.cons_append, List.cons_append,
            List.cons.injEq] at same
          obtain ⟨rfl, rfl⟩ := ih same.2
          exact ⟨rfl, rfl⟩

/-- A run starts with the first entries or behind them. -/
theorem IsRun.eq_or_behind (other : tail.head? ≠ some key)
    (isRun : ∃ k, IsRun first (List.replicate count key ++ tail) k run) :
    (1 < count ∧ run = (first, first + count)) ∨ ∃ k, IsRun (first + count) tail k run := by
  obtain ⟨k, before, c, after, same, two, left, right, rfl⟩ := isRun
  rcases List.append_eq_append_iff.mp same with ⟨more, rfl, rfl⟩ | ⟨more, cut, shared⟩
  · refine .inr ⟨k, more, c, after, rfl, two, fun last => left ?_, right, by simp [Nat.add_assoc]⟩
    simp [List.getLast?_append, last]
  · cases more with
    | nil =>
        rw [List.append_nil] at cut
        exact .inr ⟨k, [], c, after, shared.symm, two, by simp, right, by simp [← cut]⟩
    | cons x more =>
        -- The run starts among the first entries. They are equal, so it starts with the first one.
        have keyed : ∀ y ∈ before ++ x :: more, y = key := fun y member =>
          List.eq_of_mem_replicate (cut ▸ member)
        obtain ⟨c, rfl⟩ := Nat.exists_eq_add_of_lt two
        obtain rfl : k = x := (List.cons.inj shared).1
        obtain rfl : k = key := keyed k (by simp)
        obtain rfl : before = [] := by
          cases before using List.reverseRecOn with
          | nil => rfl
          | append_singleton before y => simp [keyed y (by simp)] at left
        obtain ⟨rfl, rfl⟩ := replicate_append_inj same other right
        exact .inl ⟨two, rfl⟩

theorem isRun_of_behind (positive : 0 < count) (other : tail.head? ≠ some key) {k : UInt32}
    (behind : IsRun (first + count) tail k run) :
    IsRun first (List.replicate count key ++ tail) k run := by
  obtain ⟨before, c, after, rfl, two, left, right, rfl⟩ := behind
  refine ⟨List.replicate count key ++ before, c, after, by simp, two, fun last => ?_, right,
    by simp [Nat.add_assoc]⟩
  cases before using List.reverseRecOn with
  | nil =>
      -- The run follows the first entries at once, and `tail` does not start with their key.
      obtain ⟨c, rfl⟩ := Nat.exists_eq_add_of_lt two
      rw [List.append_nil, List.getLast?_replicate, if_neg (Nat.ne_of_gt positive)] at last
      exact other last.symm
  | append_singleton before x =>
      rw [← List.append_assoc, List.getLast?_concat] at last
      exact left (by rw [List.getLast?_concat, last])

theorem exists_isRun_replicate_append (positive : 0 < count) (other : tail.head? ≠ some key) :
    (∃ k, IsRun first (List.replicate count key ++ tail) k run) ↔
      (1 < count ∧ run = (first, first + count)) ∨ ∃ k, IsRun (first + count) tail k run := by
  refine ⟨IsRun.eq_or_behind other, ?_⟩
  rintro (⟨two, rfl⟩ | ⟨k, behind⟩)
  · exact ⟨key, [], count, tail, rfl, two, by simp, other, rfl⟩
  · exact ⟨k, isRun_of_behind positive other behind⟩

theorem not_isRun_nil : ¬ IsRun first [] key run := by
  rintro ⟨before, count, after, same, two, -⟩
  have length := congrArg List.length same
  simp only [List.length_nil, List.length_append, List.length_replicate] at length
  omega

theorem mem_runsFrom (positive : 0 < count) :
    run ∈ runsFrom start count key rest ↔
      ∃ k, IsRun start (List.replicate count key ++ rest) k run := by
  induction rest generalizing start count key with
  | nil =>
      rw [exists_isRun_replicate_append positive (by simp), runsFrom]
      simp [not_isRun_nil]
  | cons next rest ih =>
      rw [runsFrom]
      split
      · next same =>
          subst same
          rw [ih count.succ_pos, List.replicate_succ', List.append_assoc, List.singleton_append]
      · next other =>
          have later : run ∈ runsFrom (start + count) 1 next rest ↔ _ := ih Nat.one_pos
          rw [List.replicate_one, List.singleton_append] at later
          rw [exists_isRun_replicate_append positive (by simpa using other), ← later]
          split
          · next two => simp only [List.mem_cons, two, true_and]
          · next few => simp only [few, false_and, false_or]

/-- The ranges that are found are the runs. -/
theorem mem_runs : run ∈ runs first keys ↔ ∃ key, IsRun first keys key run := by
  cases keys with
  | nil => simp [runs, not_isRun_nil]
  | cons key rest =>
      rw [runs, mem_runsFrom Nat.one_pos, List.replicate_one, List.singleton_append]

theorem IsRun.first_le (isRun : IsRun first keys key run) : first ≤ run.1 := by
  obtain ⟨before, count, after, -, -, -, -, rfl⟩ := isRun
  exact Nat.le_add_right ..

theorem runsFrom_apart : (runsFrom start count key rest).Pairwise fun r s => r.2 ≤ s.1 := by
  induction rest generalizing start count key with
  | nil =>
      rw [runsFrom]
      split <;> simp
  | cons next rest ih =>
      rw [runsFrom]
      split
      · exact ih
      · split
        · refine List.pairwise_cons.mpr ⟨fun run member => ?_, ih⟩
          obtain ⟨k, isRun⟩ := (mem_runsFrom Nat.one_pos).mp member
          exact isRun.first_le
        · exact ih

/-- Runs are found from left to right. -/
theorem runs_apart : (runs first keys).Pairwise fun r s => r.2 ≤ s.1 := by
  cases keys with
  | nil => exact .nil
  | cons key rest => exact runsFrom_apart

/-- In a sorted list, a run further to the right has a larger key. -/
theorem IsRun.key_lt (ascending : keys.Pairwise (· ≤ ·)) {k l : UInt32} {r s : Nat × Nat}
    (isRun : IsRun first keys k r) (later : IsRun first keys l s) (apart : r.2 ≤ s.1) : k < l := by
  obtain ⟨before, count, after, rfl, two, -, right, rfl⟩ := isRun
  obtain ⟨earlier, size, further, same, twoLater, -, -, rfl⟩ := later
  have positive : count ≠ 0 := Nat.ne_of_gt (Nat.zero_lt_of_lt two)
  have positiveLater : size ≠ 0 := Nat.ne_of_gt (Nat.zero_lt_of_lt twoLater)
  have behind : l ∈ after := by
    have cut : l ∈ (earlier ++ (List.replicate size l ++ further)).drop earlier.length := by
      simp [positiveLater]
    have apart : before.length + count ≤ earlier.length := by omega
    rw [← same] at cut
    simpa using (List.drop_sublist_drop_left _ apart).subset cut
  rw [List.pairwise_append, List.pairwise_append] at ascending
  obtain ⟨-, ⟨-, ascending, above⟩, -⟩ := ascending
  cases after with
  | nil => cases behind
  | cons next after =>
      have less : k < next := UInt32.lt_of_le_of_ne
        (above k (by simp [positive]) next List.mem_cons_self) fun equal => right (by simp [equal])
      rcases List.mem_cons.mp behind with rfl | inRest
      · exact less
      · exact UInt32.lt_of_lt_of_le less ((List.pairwise_cons.mp ascending).1 l inRest)

theorem runs_areRuns (ascending : keys.Pairwise (· ≤ ·)) :
    AreRuns first keys (runs first keys) where
  mem_iff _ := mem_runs
  ascending := runs_apart.imp fun apart _ _ isRun later => isRun.key_lt ascending later apart

end SharedRuns.SortPlan
