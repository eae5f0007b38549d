import Mathlib.Logic.Function.Basic
import SharedRuns.Basic

/-!
# Traversals without faults

A traversal of a list does not fault if none of its steps does, and then it is the traversal that
has no faults to begin with. The same holds where a step has no value instead of a fault.

A row is described by a list that is split at the places of interest. An access to the first place
behind a prefix is an access to the head of the rest, and what a loop does to a range is said of the
middle of three lists.
-/

namespace SharedRuns.Checked

variable {ε α β γ : Type}

@[simp] theorem ok_bind (x : α) (f : α → Except ε β) : (Except.ok x >>= f) = f x := rfl

@[simp] theorem pure_eq_ok (x : α) : (pure x : Except ε α) = .ok x := rfl

theorem map_map (x : Except ε α) (f : α → β) (g : β → γ) :
    (x.map f).map g = x.map fun a => g (f a) := by
  cases x <;> rfl

theorem isOk_map (x : Except ε α) (f : α → β) : (x.map f).isOk = x.isOk := by
  cases x <;> rfl

/-- What has a value was computed from a value. -/
theorem exists_of_bind_ok {x : Except ε α} {f : α → Except ε β} {b : β}
    (ran : (x >>= f) = .ok b) : ∃ a, x = .ok a ∧ f a = .ok b := by
  cases x with
  | error e => cases ran
  | ok a => exact ⟨a, rfl, ran⟩

theorem within_eq_ok {x? : Option α} {x : α} : Fault.within x? = .ok x ↔ x? = some x := by
  cases x? with
  | none => exact iff_of_false nofun nofun
  | some y => rw [Fault.within_some, Except.ok.injEq, Option.some.injEq]

/-- What a traversal gives was given by its steps. -/
theorem exists_of_mem_mapM {f : α → Except ε β} {xs : List α} {ys : List β}
    (ran : xs.mapM f = .ok ys) {y : β} (member : y ∈ ys) : ∃ x ∈ xs, f x = .ok y := by
  induction xs generalizing ys with
  | nil =>
      cases ran
      cases member
  | cons x rest ih =>
      rw [List.mapM_cons] at ran
      obtain ⟨first, head, ran⟩ := exists_of_bind_ok ran
      obtain ⟨others, tail, ran⟩ := exists_of_bind_ok ran
      cases ran
      rcases List.mem_cons.mp member with rfl | inRest
      · exact ⟨x, List.mem_cons_self, head⟩
      · obtain ⟨z, inside, given⟩ := ih tail inRest
        exact ⟨z, List.mem_cons_of_mem _ inside, given⟩

theorem mapM_ok {f : α → Except ε β} {g : α → β} {xs : List α} (step : ∀ x ∈ xs, f x = .ok (g x)) :
    xs.mapM f = .ok (xs.map g) := by
  induction xs with
  | nil => rfl
  | cons x xs ih =>
      rw [List.forall_mem_cons] at step
      rw [List.mapM_cons, step.1, ok_bind, ih step.2]
      rfl

/-- A traversal has a value if all its steps have one. -/
theorem exists_mapM_ok {f : α → Except ε β} {xs : List α} (step : ∀ x ∈ xs, ∃ y, f x = .ok y) :
    ∃ ys, xs.mapM f = .ok ys := by
  induction xs with
  | nil => exact ⟨[], rfl⟩
  | cons x rest ih =>
      rw [List.forall_mem_cons] at step
      obtain ⟨y, first⟩ := step.1
      obtain ⟨ys, others⟩ := ih step.2
      exact ⟨y :: ys, by rw [List.mapM_cons, first, ok_bind, others]; rfl⟩

theorem foldlM_ok {f : β → α → Except ε β} {g : β → α → β} {xs : List α} (start : β)
    (step : ∀ b, ∀ x ∈ xs, f b x = .ok (g b x)) : xs.foldlM f start = .ok (xs.foldl g start) := by
  induction xs generalizing start with
  | nil => rfl
  | cons x xs ih =>
      rw [List.foldlM_cons, step start x List.mem_cons_self, ok_bind]
      exact ih _ fun b y member => step b y (List.mem_cons_of_mem _ member)

theorem mapM_some {f : α → Option β} {g : α → β} {xs : List α}
    (step : ∀ x ∈ xs, f x = some (g x)) : xs.mapM f = some (xs.map g) := by
  induction xs with
  | nil => rfl
  | cons x xs ih =>
      rw [List.forall_mem_cons] at step
      simp [step.1, ih step.2]

/-- A traversal has no value if one of its steps has none. -/
theorem mapM_eq_none_iff {f : α → Option β} {xs : List α} :
    xs.mapM f = none ↔ ∃ x ∈ xs, f x = none := by
  induction xs with
  | nil => exact iff_of_false nofun nofun
  | cons x xs ih =>
      simp only [List.mapM_cons, List.mem_cons, exists_eq_or_imp, ← ih]
      cases f x with
      | none => simp
      | some y => cases xs.mapM f <;> simp

theorem isSome_of_mapM {f : α → Option β} {xs : List α} {ys : List β}
    (found : xs.mapM f = some ys) {x : α} (member : x ∈ xs) : (f x).isSome := by
  refine Option.isSome_iff_ne_none.mpr fun missing => ?_
  rw [mapM_eq_none_iff.mpr ⟨x, member, missing⟩] at found
  cases found

theorem fetch_append {before after : List α} {x : α} {i : Nat} (place : i = before.length) :
    fetch (before ++ x :: after).toArray i = .ok x := by
  subst place
  simp [fetch]

theorem store_append {before after : List α} {x y : α} {i : Nat} (place : i = before.length) :
    store (before ++ x :: after).toArray i y = .ok (before ++ y :: after).toArray := by
  subst place
  rw [store_of_lt (by simp)]
  simp

theorem exchange_append {before after : List α} {x y : α} {i : Nat} (place : i = before.length) :
    exchange (before ++ x :: y :: after).toArray (i + 1) i =
      .ok (before ++ y :: x :: after).toArray := by
  subst place
  rw [exchange_of_lt (by simp) (by simp)]
  simp [Array.swap]

theorem span_eq_range' (start count : Nat) :
    span start (start + count) = List.range' start count := by
  rw [span, Nat.add_sub_cancel_left]

theorem fetch_middle {before range after : List α} {start i : Nat} (place : start = before.length)
    (inside : i < range.length) :
    fetch (before ++ range ++ after).toArray (start + i) = .ok range[i] := by
  subst place
  rw [fetch_of_lt (by simp only [List.size_toArray, List.length_append]; omega)]
  simp [List.getElem_append_left, inside]

/-- A loop over the indices of a range is a loop over the entries of the range. -/
theorem foldlM_span {f : β → Nat → Except ε β} {step : β → α → Except ε β} {start : Nat}
    {range : List α} (b : β)
    (entry : ∀ b, ∀ i, ∀ h : i < range.length, f b (start + i) = step b range[i]) :
    (span start (start + range.length)).foldlM f b = range.foldlM step b := by
  rw [span_eq_range']
  induction range generalizing start b with
  | nil => rfl
  | cons x rest ih =>
      have first : f b start = step b x := entry b 0 (by simp)
      rw [List.length_cons, List.range'_succ, List.foldlM_cons, List.foldlM_cons, first]
      congr 1
      funext c
      apply ih c
      intro b i h
      rw [Nat.add_assoc, Nat.add_comm 1]
      exact entry b (i + 1) (by simpa using h)

theorem mapM_span {f : Nat → Except ε β} {g : α → β} {start : Nat} {range : List α}
    (entry : ∀ i, ∀ h : i < range.length, f (start + i) = .ok (g range[i])) :
    (span start (start + range.length)).mapM f = .ok (range.map g) := by
  rw [span_eq_range']
  induction range generalizing start with
  | nil => rfl
  | cons x rest ih =>
      have first : f start = .ok (g x) := entry 0 (by simp)
      have others := @ih (start + 1) fun i h => by
        rw [Nat.add_assoc, Nat.add_comm 1]
        exact entry (i + 1) (by simpa using h)
      rw [List.length_cons, List.range'_succ, List.mapM_cons, first, ok_bind, others]
      rfl

/-- A loop that stores into one place of a range after another replaces the range. -/
theorem foldlM_span_store {f : Array α → Nat → Except Fault (Array α)} {start : Nat}
    {before old new after : List α} (same : old.length = new.length)
    (entry : ∀ row, ∀ i, ∀ h : i < new.length,
      f row (start + i) = store row (before.length + i) new[i]) :
    (span start (start + new.length)).foldlM f (before ++ old ++ after).toArray =
      .ok (before ++ new ++ after).toArray := by
  rw [span_eq_range']
  induction new generalizing start before old with
  | nil => rw [List.length_eq_zero_iff.mp same]; rfl
  | cons y new ih =>
      obtain _ | ⟨x, old⟩ := old
      · simp at same
      · have first : ∀ row, f row start = store row before.length y :=
          fun row => entry row 0 (by simp)
        have next := @ih (start + 1) (before ++ [y]) old (by simpa using same) fun row i h => by
          have later := entry row (i + 1) (by simpa using h)
          rw [List.length_append, List.length_singleton, Nat.add_assoc, Nat.add_assoc,
            Nat.add_comm 1]
          exact later
        rw [List.length_cons, List.range'_succ, List.foldlM_cons, first, List.append_assoc,
          List.cons_append, store_append rfl, ok_bind]
        simpa using next

/-- The row of the values of a function. -/
def tabulate (count : Nat) (f : Nat → α) : Array α := ((List.range count).map f).toArray

variable {count k : Nat} {f : Nat → α}

@[simp] theorem size_tabulate : (tabulate count f).size = count := by
  simp [tabulate]

theorem tabulate_succ : tabulate (count + 1) f = (tabulate count f).push (f count) := by
  simp [tabulate, List.range_succ]

theorem fetch_tabulate (inside : k < count) : fetch (tabulate count f) k = .ok (f k) := by
  rw [fetch_of_lt (by simpa using inside)]
  simp [tabulate]

theorem store_tabulate {x : α} (inside : k < count) :
    store (tabulate count f) k x = .ok (tabulate count (Function.update f k x)) := by
  rw [store_of_lt (by simpa using inside)]
  congr 1
  apply Array.ext
  · simp
  · intro i _ _
    simp [tabulate, List.getElem_set, Function.update_apply, eq_comm]

/-- A row in three parts, the first two of given lengths. -/
theorem exists_parts (row : Array α) {first second : Nat} (room : first + second ≤ row.size) :
    ∃ before range after : List α, row = (before ++ range ++ after).toArray ∧
      before.length = first ∧ range.length = second := by
  refine ⟨row.toList.take first, (row.toList.drop first).take second,
    (row.toList.drop first).drop second, ?_, ?_, ?_⟩
  · simp only [List.append_assoc, List.take_append_drop, Array.toArray_toList]
  · rw [List.length_take, Array.length_toList]
    omega
  · rw [List.length_take, List.length_drop, Array.length_toList]
    omega

end SharedRuns.Checked
