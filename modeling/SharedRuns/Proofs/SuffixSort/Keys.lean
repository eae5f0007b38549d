import Mathlib.Data.List.Perm.Subperm
import SharedRuns.Proofs.Tape.Places
import SharedRuns.SuffixSort

/-!
# Keys order a tape like its symbols

Whether a tape keeps its symbols as keys or replaces them by ranks, the keys are the images of the
symbols under a function that is strictly increasing on the symbols that occur, and all of them are
below the size of the alphabet (`TapeKeys.exists_embeds`).

A sort reads the keys of its candidates only, the suffixes with room for all its columns. For them
it is ready if its keys belong to its tape (`SortPlan.Ready`).
-/

namespace SharedRuns

namespace TapeKeys

/-- The keys are images of the symbols, ordered like them and below the size of the alphabet. -/
structure Embeds (t : TapeKeys) (symbols : Array Symbol) (rank : Symbol → UInt32) : Prop where
  keys : t.keys = symbols.map rank
  lt_alphabet : ∀ x ∈ symbols, (rank x).toNat < t.alphabet
  lt_iff : ∀ x ∈ symbols, ∀ y ∈ symbols, rank x < rank y ↔ x < y

theorem le_maximum {tape : Tape} {x : Symbol} (member : x ∈ tape.symbols) : x ≤ tape.maximum :=
  tape.isGreatest_maximum.2 (.inr member)

theorem direct_embeds (tape : Tape) : (direct tape).Embeds tape.symbols id where
  keys := by simp [direct]
  lt_alphabet x member := Nat.lt_succ_of_le (UInt32.le_iff_toNat_le.mp (le_maximum member))
  lt_iff x _ y _ := Iff.rfl

theorem eraseReps_loop {a : Symbol} {rest : List Symbol} (sorted : (a :: rest).Pairwise (· ≤ ·))
    (found : List Symbol) :
    ∃ kept, List.eraseRepsBy.loop (· == ·) a rest found = found.reverse ++ kept ∧
      kept.Pairwise (· < ·) ∧ ∀ x, x ∈ kept ↔ x = a ∨ x ∈ rest := by
  induction rest generalizing a found with
  | nil => exact ⟨[a], by simp [List.eraseRepsBy.loop], by simp, by simp⟩
  | cons b rest ih =>
      rw [List.pairwise_cons] at sorted
      by_cases same : a = b
      · subst same
        obtain ⟨kept, result, ascending, members⟩ := ih sorted.2 found
        exact ⟨kept, by simpa [List.eraseRepsBy.loop] using result, ascending, by simp [members]⟩
      · obtain ⟨kept, result, ascending, members⟩ := ih sorted.2 (a :: found)
        refine ⟨a :: kept, ?_, ?_, ?_⟩
        · rw [List.eraseRepsBy.loop, beq_false_of_ne same]
          simpa using result
        · rw [List.pairwise_cons]
          refine ⟨fun x member => ?_, ascending⟩
          have first : a < b := UInt32.lt_of_le_of_ne (sorted.1 b (by simp)) same
          rcases (members x).mp member with rfl | later
          · exact first
          · exact UInt32.lt_of_lt_of_le first ((List.pairwise_cons.mp sorted.2).1 x later)
        · simp [members]

theorem distinct_ascending (symbols : Array Symbol) :
    (distinct symbols).toList.Pairwise (· < ·) ∧ ∀ x, x ∈ distinct symbols ↔ x ∈ symbols := by
  have sorted : (symbols.toList.mergeSort fun x y => decide (x ≤ y)).Pairwise
      fun x y => decide (x ≤ y) :=
    List.pairwise_mergeSort (fun a b c => by simpa using UInt32.le_trans)
      (fun a b => by simpa using UInt32.le_total a b) symbols.toList
  have members (x : Symbol) : x ∈ symbols.toList.mergeSort (fun x y => decide (x ≤ y)) ↔
      x ∈ symbols := by simp
  rw [distinct]
  cases result : symbols.toList.mergeSort (fun x y => decide (x ≤ y)) with
  | nil => simp_all [List.eraseReps, List.eraseRepsBy]
  | cons a rest =>
      rw [result] at sorted members
      simp only [decide_eq_true_eq] at sorted
      obtain ⟨kept, found, ascending, inKept⟩ := eraseReps_loop sorted []
      simp only [List.eraseReps, List.eraseRepsBy, found, List.reverse_nil, List.nil_append,
        List.mem_toArray]
      exact ⟨ascending, fun x => by rw [inKept, ← members x, List.mem_cons]⟩

/-- In an ascending row an entry is smaller than another one exactly if it comes earlier. -/
theorem getElem_lt_iff {row : Array Symbol} (ascending : row.toList.Pairwise (· < ·)) {i j : Nat}
    (hi : i < row.size) (hj : j < row.size) : row[i] < row[j] ↔ i < j := by
  have before : ∀ {i j : Nat} (hi : i < row.size) (hj : j < row.size), i < j → row[i] < row[j] := by
    intro i j hi hj less
    exact List.pairwise_iff_getElem.mp ascending i j hi hj less
  refine ⟨fun less => ?_, before hi hj⟩
  rcases Nat.lt_trichotomy i j with earlier | rfl | later
  · exact earlier
  · exact absurd less (UInt32.lt_irrefl _)
  · exact absurd (UInt32.lt_trans less (before hj hi later)) (UInt32.lt_irrefl _)

/-- The search for an entry of an ascending row ends at the entry. -/
theorem lowerBound_getElem {row : Array Symbol} (ascending : row.toList.Pairwise (· < ·)) {r : Nat}
    (hr : r < row.size) {low count : Nat} (above : low ≤ r) (below : r ≤ low + count)
    (inside : low + count ≤ row.size) : lowerBound row row[r] low count = r := by
  fun_induction lowerBound row row[r] low count with
  | case1 low => omega
  | case2 low count positive half missing =>
      have present : low + half < row.size := by omega
      simp [present] at missing
  | case3 low count positive half entry found less ih =>
      obtain ⟨present, rfl⟩ := Array.getElem?_eq_some_iff.mp found
      have := (getElem_lt_iff ascending present hr).mp less
      exact ih (by omega) (by omega) (by omega)
  | case4 low count positive half entry found greater ih =>
      obtain ⟨present, rfl⟩ := Array.getElem?_eq_some_iff.mp found
      have := mt (getElem_lt_iff ascending present hr).mpr greater
      exact ih (by omega) (by omega) (by omega)

theorem ranked_embeds {tape : Tape} (few : tape.size < Position.wordLimit) :
    (ranked tape).Embeds tape.symbols fun x =>
      (lowerBound (distinct tape.symbols) x 0 (distinct tape.symbols).size).toUInt32 := by
  obtain ⟨ascending, members⟩ := distinct_ascending tape.symbols
  have nodup : (distinct tape.symbols).toList.Nodup :=
    ascending.imp UInt32.ne_of_lt
  have size : (distinct tape.symbols).size ≤ tape.size := by
    have subset : (distinct tape.symbols).toList ⊆ tape.symbols.toList :=
      fun x member => by simpa using (members x).mp (by simpa using member)
    simpa [Tape.symbols, Tape.size] using (nodup.subperm subset).length_le
  have rank : ∀ x ∈ tape.symbols, ∃ i, ∃ h : i < (distinct tape.symbols).size,
      (distinct tape.symbols)[i] = x ∧
        (lowerBound (distinct tape.symbols) x 0
          (distinct tape.symbols).size).toUInt32.toNat = i := by
    intro x member
    obtain ⟨i, inside, rfl⟩ := Array.getElem_of_mem ((members x).mpr member)
    have place : lowerBound (distinct tape.symbols) _ 0 (distinct tape.symbols).size = i :=
      lowerBound_getElem ascending inside (Nat.zero_le i) (by omega) (by omega)
    refine ⟨i, inside, rfl, ?_⟩
    rw [place, Position.toNat_toUInt32 (by omega)]
  refine ⟨rfl, fun x member => ?_, fun x inX y inY => ?_⟩
  · obtain ⟨i, inside, -, place⟩ := rank x member
    exact lt_of_eq_of_lt place inside
  · obtain ⟨i, hi, rfl, placeX⟩ := rank x inX
    obtain ⟨j, hj, rfl, placeY⟩ := rank y inY
    rw [UInt32.lt_iff_toNat_lt, placeX, placeY, getElem_lt_iff ascending]

/-- The two encodings of a tape. -/
def encodings (tape : Tape) : List TapeKeys := [direct tape, ranked tape]

theorem ofTape_mem (tape : Tape) : ofTape tape ∈ encodings tape := by
  simp only [ofTape]
  split <;> simp [encodings]

/-- Symbols and ranks are keys alike. -/
theorem exists_embeds {tape : Tape} (few : tape.size < Position.wordLimit) {t : TapeKeys}
    (member : t ∈ encodings tape) : ∃ rank, t.Embeds tape.symbols rank := by
  simp only [encodings, List.mem_cons, List.not_mem_nil, or_false] at member
  rcases member with rfl | rfl
  · exact ⟨id, direct_embeds tape⟩
  · exact ⟨_, ranked_embeds few⟩

end TapeKeys

namespace SortPlan

/-- The key of a suffix in a column, 0 if there is none. -/
def keyOf (p : SortPlan) (column : Nat) (suffix : UInt32) : UInt32 :=
  p.keyTable.keys.getD (suffix.toNat + column) 0

/-- The key of a suffix as a number, by which it is put into a bucket. -/
def keyNat (p : SortPlan) (column : Nat) (suffix : UInt32) : Nat := (p.keyOf column suffix).toNat

/-- A suffix with room for all columns. -/
def Candidate (p : SortPlan) (suffix : UInt32) : Prop := suffix.toNat + p.depth < p.tape.size

/-- The keys are keys of the tape, and its positions are words. -/
structure Ready (p : SortPlan) : Prop where
  size_keys : p.keyTable.keys.size = p.tape.size
  key_lt : ∀ key ∈ p.keyTable.keys, key.toNat < p.keyTable.alphabet
  size_lt : p.tape.size < Position.wordLimit

variable {p : SortPlan} {column : Nat} {suffix : UInt32}

theorem toNat_keyOf : (p.keyOf column suffix).toNat = p.keyNat column suffix := rfl

theorem keyOf_le_iff {s t : UInt32} :
    p.keyOf column s ≤ p.keyOf column t ↔ p.keyNat column s ≤ p.keyNat column t :=
  UInt32.le_iff_toNat_le

theorem keyOf_lt_iff {s t : UInt32} :
    p.keyOf column s < p.keyOf column t ↔ p.keyNat column s < p.keyNat column t :=
  UInt32.lt_iff_toNat_lt

theorem keyAt_of_candidate (ready : p.Ready) (inside : column < p.depth)
    (candidate : p.Candidate suffix) : p.keyAt suffix column = .ok (p.keyOf column suffix) := by
  have present : suffix.toNat + column < p.keyTable.keys.size := by
    rw [ready.size_keys]
    exact Nat.lt_trans (Nat.add_lt_add_left inside _) candidate
  rw [keyAt, Checked.fetch_of_lt present, keyOf, Array.getD_eq_getD_getElem?,
    Array.getElem?_eq_getElem present, Option.getD_some]

theorem keyNat_lt (ready : p.Ready) (inside : column < p.depth) (candidate : p.Candidate suffix) :
    p.keyNat column suffix < p.keyTable.alphabet := by
  have present : suffix.toNat + column < p.keyTable.keys.size := by
    rw [ready.size_keys]
    exact Nat.lt_trans (Nat.add_lt_add_left inside _) candidate
  rw [keyNat, keyOf, Array.getD_eq_getD_getElem?, Array.getElem?_eq_getElem present,
    Option.getD_some]
  exact ready.key_lt _ (Array.getElem_mem present)

end SortPlan

end SharedRuns
