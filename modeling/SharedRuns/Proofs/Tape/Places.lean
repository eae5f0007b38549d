import Mathlib.Algebra.GroupWithZero.Nat
import Mathlib.Order.Bounds.Defs
import SharedRuns.Proofs.Tape

/-!
# The places of a tape

A tape is read in both directions: a position with a place holds the symbol of a text there, and
each symbol of each text has one position, which depends on the sizes of the texts before it
(`Tape.Maps`). Positions are in the order of their places. The others are the barriers, one behind
the last symbol of each text, and the sentinel. None of this depends on the symbols, which may be
those of a barrier or the sentinel.
-/

namespace SharedRuns

/-- A place is before another if its text is, or if it is in the same text with a lower offset. -/
def Place.Before (a b : Place) : Prop := a.text < b.text ∨ a.text = b.text ∧ a.offset < b.offset

namespace Tape

/-- The positions of the tape stand for the symbols of the texts, for a barrier behind each text,
and for the sentinel at the end. -/
structure Maps (tape : Tape) (texts : List Text) : Prop where
  size_eq : tape.size = (texts.map fun t => t.size + 1).sum + 1
  position_iff (pos : Nat) : pos < tape.size ↔ ∃ place, tape.place? pos = .ok place
  /-- A symbol of a text has one position, which lies as far behind the start of its block as the
  symbol is from the first. -/
  place_iff (pos : Nat) (place : Place) : tape.place? pos = .ok (some place) ↔
    ∃ t, texts[place.text]? = some t ∧ place.offset < t.size ∧
      pos = blockStart texts place.text + place.offset
  symbol_eq {pos : Nat} {place : Place} {t : Text} (placed : tape.place? pos = .ok (some place))
    (number : texts[place.text]? = some t) :
    ∃ x, t.symbols[place.offset]? = some x ∧ tape.symbol? pos = .ok x
  lt_iff {p q : Nat} {a b : Place} (first : tape.place? p = .ok (some a))
    (second : tape.place? q = .ok (some b)) : p < q ↔ a.Before b
  /-- Numbers and offsets are below the word that stands for no place. -/
  place_lt {pos : Nat} {place : Place} (placed : tape.place? pos = .ok (some place)) :
    place.text < limit ∧ place.offset < limit
  /-- The positions without a place are those behind the last symbol of a text, and the last. -/
  boundary_iff (pos : Nat) : tape.place? pos = .ok none ↔
    (∃ n t, texts[n]? = some t ∧ pos = blockStart texts n + t.size) ∨ pos + 1 = tape.size
  /-- The block of a text and its barrier end where the next block starts. -/
  next_block {n : Nat} {t : Text} (number : texts[n]? = some t) :
    blockStart texts (n + 1) = blockStart texts n + t.size + 1
  symbol_barrier {n : Nat} {t : Text} (number : texts[n]? = some t) :
    tape.symbol? (blockStart texts n + t.size) = .ok barrier
  symbol_sentinel : tape.symbol? (tape.size - 1) = .ok sentinel
  maximum : IsGreatest {x | x = 1 ∨ ∃ t ∈ texts, x ∈ t.symbols} tape.maximum

variable {tape : Tape} {texts : List Text}

theorem symbol?_eq_ok {pos : Nat} {x : Symbol} :
    tape.symbol? pos = .ok x ↔ ∃ cell, tape.cells[pos]? = some cell ∧ cell.symbol = x := by
  rw [symbol?, Checked.fetch]
  cases tape.cells[pos]? with
  | none => simp [bind, Except.bind]
  | some cell => simp

theorem place?_eq_ok {pos : Nat} {place? : Option Place} :
    tape.place? pos = .ok place? ↔ ∃ cell, tape.cells[pos]? = some cell ∧ cell.place = place? := by
  rw [Tape.place?, Checked.fetch]
  cases tape.cells[pos]? with
  | none => simp [bind, Except.bind]
  | some cell => simp

theorem lt_size_iff {pos : Nat} : pos < tape.size ↔ ∃ place, tape.place? pos = .ok place := by
  constructor
  · intro inside
    exact ⟨_, place?_eq_ok.mpr ⟨_, Array.getElem?_eq_getElem inside, rfl⟩⟩
  · rintro ⟨place, placed⟩
    obtain ⟨cell, found, -⟩ := place?_eq_ok.mp placed
    exact (Array.getElem?_eq_some_iff.mp found).1

theorem blockStart_eq_sum (texts : List Text) (n : Nat) :
    blockStart texts n = ((texts.take n).map fun t => t.size + 1).sum := by
  induction n generalizing texts with
  | zero => simp
  | succ n ih =>
      cases texts with
      | nil => rfl
      | cons t rest => rw [blockStart, ih, List.take_succ_cons, List.map_cons, List.sum_cons]

theorem le_blockStart {n : Nat} (present : n ≤ texts.length) : n ≤ blockStart texts n := by
  induction texts generalizing n with
  | nil => exact Nat.le_trans present (Nat.zero_le _)
  | cons t rest ih =>
      cases n with
      | zero => exact Nat.zero_le _
      | succ n =>
          have := ih (Nat.le_of_succ_le_succ present)
          rw [blockStart]
          omega

theorem max_symbol_eq (x y : Symbol) :
    (max x y = x ∨ max x y = y) ∧ x ≤ max x y ∧ y ≤ max x y := by
  show ((if x ≤ y then y else x) = x ∨ (if x ≤ y then y else x) = y) ∧
    x ≤ (if x ≤ y then y else x) ∧ y ≤ (if x ≤ y then y else x)
  split
  · next le => exact ⟨.inr rfl, le, UInt32.le_refl y⟩
  · next greater => exact ⟨.inl rfl, UInt32.le_refl x, UInt32.le_of_lt (UInt32.not_le.mp greater)⟩

theorem isGreatest_foldl_max (cells : List Cell) (start : Symbol) :
    IsGreatest {x | x = start ∨ ∃ cell ∈ cells, cell.symbol = x}
      (cells.foldl (fun m cell => max m cell.symbol) start) := by
  induction cells generalizing start with
  | nil =>
      refine ⟨.inl rfl, ?_⟩
      rintro x (rfl | ⟨cell, member, -⟩)
      · exact UInt32.le_refl x
      · cases member
  | cons cell rest ih =>
      obtain ⟨among, above⟩ := ih (max start cell.symbol)
      obtain ⟨one, left, right⟩ := max_symbol_eq start cell.symbol
      have least := above (.inl rfl)
      rw [List.foldl_cons]
      refine ⟨?_, ?_⟩
      · rcases among with same | ⟨other, inRest, same⟩
        · rcases one with first | second
          · exact .inl (same.trans first)
          · exact .inr ⟨cell, List.mem_cons_self, (same.trans second).symm⟩
        · exact .inr ⟨other, List.mem_cons_of_mem _ inRest, same⟩
      · rintro x (rfl | ⟨other, member, rfl⟩)
        · exact UInt32.le_trans left least
        · rcases List.mem_cons.mp member with rfl | inRest
          · exact UInt32.le_trans right least
          · exact above (.inr ⟨other, inRest, rfl⟩)

/-- The maximum of a tape is the largest of the barrier and the symbols on it. -/
theorem isGreatest_maximum (tape : Tape) :
    IsGreatest {x | x = barrier ∨ x ∈ tape.symbols} tape.maximum := by
  rw [maximum, ← Array.foldl_toList]
  simpa only [symbols, Array.mem_map, Array.mem_toList_iff] using
    isGreatest_foldl_max tape.cells.toList barrier

namespace LaidOut

theorem place?_eq_some (laid : tape.LaidOut texts) {pos : Nat} {place : Place} :
    tape.place? pos = .ok (some place) ↔
      ∃ t, texts[place.text]? = some t ∧ place.offset < t.size ∧
        pos = blockStart texts place.text + place.offset := by
  rw [← laid.placeAt_eq_some, place?_eq_ok, placeAt, Option.bind_eq_some_iff]

theorem place?_eq_none (laid : tape.LaidOut texts) {pos : Nat} :
    tape.place? pos = .ok none ↔
      (∃ n t, texts[n]? = some t ∧ pos = blockStart texts n + t.size) ∨ pos + 1 = tape.size := by
  simp only [place?_eq_ok, laid.getElem?_cells_iff, getElem?_block, laid.size_eq,
    Nat.add_right_cancel_iff]
  constructor
  · rintro ⟨cell, ⟨n, t, i, number, rfl, ⟨inside, rfl⟩ | ⟨rfl, rfl⟩⟩ | ⟨rfl, rfl⟩, unplaced⟩
    · cases unplaced
    · exact .inl ⟨n, t, number, rfl⟩
    · exact .inr rfl
  · rintro (⟨n, t, number, rfl⟩ | rfl)
    · exact ⟨_, .inl ⟨n, t, t.size, number, rfl, .inr ⟨rfl, rfl⟩⟩, rfl⟩
    · exact ⟨_, .inr ⟨rfl, rfl⟩, rfl⟩

theorem symbol?_barrier (laid : tape.LaidOut texts) {n : Nat} {t : Text}
    (number : texts[n]? = some t) :
    tape.symbol? (blockStart texts n + t.size) = .ok barrier := by
  refine symbol?_eq_ok.mpr ⟨boundary barrier, laid.getElem?_cells_iff.mpr (.inl ?_), rfl⟩
  exact ⟨n, t, t.size, number, rfl, getElem?_block.mpr (.inr ⟨rfl, rfl⟩)⟩

theorem symbol?_sentinel (laid : tape.LaidOut texts) :
    tape.symbol? (tape.size - 1) = .ok sentinel := by
  rw [laid.size_eq, Nat.add_sub_cancel]
  exact symbol?_eq_ok.mpr ⟨_, laid.getElem?_cells_iff.mpr (.inr ⟨rfl, rfl⟩), rfl⟩

/-- A tape holds the symbols of its texts. -/
theorem mem_symbols (laid : tape.LaidOut texts) {t : Text} (inTexts : t ∈ texts) {x : Symbol}
    (member : x ∈ t.symbols) : x ∈ tape.symbols := by
  obtain ⟨n, number⟩ := List.getElem?_of_mem inTexts
  obtain ⟨i, inside, rfl⟩ := Array.getElem_of_mem member
  exact Array.mem_of_getElem? (laid.symbols_getElem? number inside)

/-- Of other symbols a tape holds the two that stand for boundaries. -/
theorem mem_symbols_cases (laid : tape.LaidOut texts) {x : Symbol} (member : x ∈ tape.symbols) :
    (∃ t ∈ texts, x ∈ t.symbols) ∨ x = barrier ∨ x = sentinel := by
  obtain ⟨cell, inTape, rfl⟩ := Array.mem_map.mp member
  obtain ⟨pos, found⟩ := Array.getElem?_of_mem inTape
  obtain ⟨n, t, i, number, -, inBlock⟩ | ⟨-, rfl⟩ := laid.getElem?_cells_iff.mp found
  · obtain ⟨inside, rfl⟩ | ⟨-, rfl⟩ := getElem?_block.mp inBlock
    · exact .inl ⟨t, List.mem_of_getElem? number, Array.getElem_mem inside⟩
    · exact .inr (.inl rfl)
  · exact .inr (.inr rfl)

theorem isGreatest_maximum (laid : tape.LaidOut texts) :
    IsGreatest {x | x = 1 ∨ ∃ t ∈ texts, x ∈ t.symbols} tape.maximum := by
  obtain ⟨among, above⟩ := tape.isGreatest_maximum
  refine ⟨?_, ?_⟩
  · rcases among with least | member
    · exact .inl least
    · rcases laid.mem_symbols_cases member with inTexts | least | low
      · exact .inr inTexts
      · exact .inl least
      · -- The sentinel is below the barrier, which the maximum is not.
        have atLeast : barrier ≤ tape.maximum := above (.inl rfl)
        rw [low] at atLeast
        exact absurd atLeast (by decide)
  · rintro x (rfl | ⟨t, inTexts, member⟩)
    · exact above (.inl rfl)
    · exact above (.inr (laid.mem_symbols inTexts member))

theorem maps (laid : tape.LaidOut texts) : tape.Maps texts where
  size_eq := by
    rw [laid.size_eq, blockStart_eq_sum, List.take_length]
  position_iff pos := lt_size_iff
  place_iff pos place := laid.place?_eq_some
  symbol_eq {pos place t} placed number := by
    obtain ⟨u, number', inside, rfl⟩ := laid.place?_eq_some.mp placed
    obtain rfl : t = u := Option.some.inj (number.symm.trans number')
    exact ⟨_, Array.getElem?_eq_getElem inside,
      symbol?_eq_ok.mpr ⟨_, laid.getElem?_cells number inside, rfl⟩⟩
  lt_iff first second := by
    obtain ⟨t, numberT, insideT, rfl⟩ := laid.place?_eq_some.mp first
    obtain ⟨u, numberU, insideU, rfl⟩ := laid.place?_eq_some.mp second
    exact blockStart_add_lt_iff numberT (Nat.le_of_lt insideT) numberU (Nat.le_of_lt insideU)
  place_lt {pos place} placed := by
    obtain ⟨t, number, inside, rfl⟩ := laid.place?_eq_some.mp placed
    have present := (List.getElem?_eq_some_iff.mp number).1
    have low := le_blockStart (Nat.le_of_lt present)
    have before := blockStart_lt number present (Nat.le_refl _)
    have few := laid.size_lt
    rw [laid.size_eq, Position.wordLimit] at few
    rw [limit]
    omega
  boundary_iff pos := laid.place?_eq_none
  next_block number := blockStart_succ number
  symbol_barrier number := laid.symbol?_barrier number
  symbol_sentinel := laid.symbol?_sentinel
  maximum := laid.isGreatest_maximum

end LaidOut

/-- A tape maps its positions to the symbols of its texts, in both directions. -/
theorem maps_of_ofTexts (made : ofTexts texts = .ok tape) : tape.Maps texts :=
  (laidOut_of_ofTexts made).maps

/-- Two texts of one name with the symbols of a barrier and the sentinel, and between them a text
without symbols, whose block is a barrier. -/
theorem maps_of_ofTexts_of_boundary_symbols :
    ∃ tape, ofTexts [{ id := "a", symbols := #[1, 0] }, { id := "b", symbols := #[] },
        { id := "a", symbols := #[1, 0] }] = .ok tape ∧
      tape.Maps [{ id := "a", symbols := #[1, 0] }, { id := "b", symbols := #[] },
        { id := "a", symbols := #[1, 0] }] ∧
      tape.place? 0 = .ok (some ⟨0, 0⟩) ∧ tape.place? 2 = .ok none ∧ tape.place? 3 = .ok none ∧
      tape.place? 4 = .ok (some ⟨2, 0⟩) ∧ tape.symbol? 4 = tape.symbol? 3 :=
  ⟨_, rfl, maps_of_ofTexts rfl, rfl, rfl, rfl, rfl, rfl⟩

end Tape

end SharedRuns
