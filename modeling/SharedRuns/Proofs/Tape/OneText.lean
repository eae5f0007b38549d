import Mathlib.Algebra.Group.Nat.Defs
import SharedRuns.Proofs.Tape

/-!
# Windows inside one text

Whether a window lies in one text is decided by the owners of its first and its last position. That
is enough because the positions of a text have no gaps (`LaidOut.owner_of_between`). The last
position is a sum of words, though. If the window is so wide that the sum wraps, another position is
looked at, and where that belongs to the same text the answer is wrong (`inOneText_iff`).
-/

namespace SharedRuns.Tape

/-- The `width` positions from `pos` on are positions of the tape and belong to one text. -/
def WithinText (tape : Tape) (pos width : Nat) : Prop :=
  0 < width ∧ pos + width ≤ tape.size ∧
    ∃ n, ∀ p, pos ≤ p → p < pos + width → tape.owner p = some n

/-- The last of `width` positions from `pos` on is no word, and the word that is left of it is a
position of the text to which `pos` belongs. -/
def WrapsIntoText (tape : Tape) (pos width : Nat) : Prop :=
  2 ^ 64 < pos + width ∧
    ∃ n, tape.owner pos = some n ∧ tape.owner (pos + width - 1 - 2 ^ 64) = some n

variable {tape : Tape} {texts : List Text} {pos width : Nat}

theorem inOneText_of_mem (inside : pos < tape.size) :
    tape.inOneText pos width = .ok ((tape.owner pos).any fun n =>
      0 < width ∧ tape.owner ((pos + width - 1) % Position.space) = some n) := by
  rw [inOneText, lodging_of_mem inside, owner_eq pos]
  cases tape.placeAt pos with
  | none => rfl
  | some place =>
      simp only [Checked.ok_bind, Checked.pure_eq_ok, Option.filter_some, Option.map_some,
        Option.any_some]
      split <;> simp_all

namespace LaidOut

/-- A text owns the positions of its symbols. -/
theorem owner_eq_some (laid : tape.LaidOut texts) {n : Nat} :
    tape.owner pos = some n ↔
      ∃ t, texts[n]? = some t ∧ blockStart texts n ≤ pos ∧ pos < blockStart texts n + t.size := by
  rw [owner_eq, Option.map_eq_some_iff]
  constructor
  · rintro ⟨place, placed, rfl⟩
    obtain ⟨t, number, inside, rfl⟩ := laid.placeAt_eq_some.mp placed
    exact ⟨t, number, by omega, by omega⟩
  · rintro ⟨t, number, behind, before⟩
    refine ⟨⟨n, pos - blockStart texts n⟩, laid.placeAt_eq_some.mpr ⟨t, number, ?_, ?_⟩, rfl⟩
    · show pos - blockStart texts n < t.size
      omega
    · show pos = blockStart texts n + (pos - blockStart texts n)
      omega

/-- Between two positions of a text there are no others. -/
theorem owner_of_between (laid : tape.LaidOut texts) {n first last p : Nat}
    (owned : tape.owner first = some n) (owned' : tape.owner last = some n) (behind : first ≤ p)
    (before : p ≤ last) : tape.owner p = some n := by
  obtain ⟨t, number, start, -⟩ := laid.owner_eq_some.mp owned
  obtain ⟨u, number', -, stop⟩ := laid.owner_eq_some.mp owned'
  obtain rfl : t = u := Option.some.inj (number.symm.trans number')
  exact laid.owner_eq_some.mpr ⟨t, number, by omega, by omega⟩

end LaidOut

theorem lt_size_of_owner {n : Nat} (owned : tape.owner pos = some n) : pos < tape.size := by
  rw [owner_eq, Option.map_eq_some_iff] at owned
  obtain ⟨place, placed, -⟩ := owned
  obtain ⟨cell, found, -⟩ := Option.bind_eq_some_iff.mp placed
  exact (Array.getElem?_eq_some_iff.mp found).1

theorem LaidOut.withinText_iff (laid : tape.LaidOut texts) :
    tape.WithinText pos width ↔
      0 < width ∧ ∃ n, tape.owner pos = some n ∧ tape.owner (pos + width - 1) = some n := by
  constructor
  · rintro ⟨positive, -, n, owned⟩
    exact ⟨positive, n, owned pos (Nat.le_refl pos) (by omega), owned _ (by omega) (by omega)⟩
  · rintro ⟨positive, n, first, last⟩
    have there := lt_size_of_owner last
    refine ⟨positive, by omega, n, fun p behind before => ?_⟩
    exact laid.owner_of_between first last behind (by omega)

/-- The answer tells whether the window lies in one text, unless its last position wraps into the
text of the first. -/
theorem inOneText_iff (made : ofTexts texts = .ok tape) (pos width : Nat) (inside : pos < tape.size)
    (word : width < 2 ^ 64) :
    ∃ answer, tape.inOneText pos width = .ok answer ∧
      (answer = true ↔ tape.WithinText pos width ∨ tape.WrapsIntoText pos width) := by
  have laid := laidOut_of_ofTexts made
  have few : tape.size < 2 ^ 32 := laid.size_lt
  refine ⟨_, inOneText_of_mem inside, ?_⟩
  rw [Option.any_eq_true, laid.withinText_iff, WrapsIntoText, Position.space, UInt64.size]
  simp only [decide_eq_true_eq]
  by_cases wraps : 2 ^ 64 < pos + width
  · have last : (pos + width - 1) % 18446744073709551616 = pos + width - 1 - 2 ^ 64 := by omega
    have far : ∀ n, tape.owner (pos + width - 1) ≠ some n := by
      intro n owned
      have := lt_size_of_owner owned
      omega
    rw [last]
    constructor
    · rintro ⟨n, owned, -, wrapped⟩
      exact .inr ⟨wraps, n, owned, wrapped⟩
    · rintro (⟨-, n, -, owned⟩ | ⟨-, n, owned, wrapped⟩)
      · exact absurd owned (far n)
      · exact ⟨n, owned, by omega, wrapped⟩
  · have last : (pos + width - 1) % 18446744073709551616 = pos + width - 1 := by omega
    constructor
    · rintro ⟨n, owned, positive, owned'⟩
      rw [last] at owned'
      exact .inl ⟨positive, n, owned, owned'⟩
    · rintro (⟨positive, n, owned, owned'⟩ | ⟨wraps', -⟩)
      · exact ⟨n, owned, positive, by rwa [last]⟩
      · exact absurd wraps' wraps

/-- At the second of three symbols there is room for a window of two, and none for one of three. -/
theorem inOneText_iff_of_three_symbols :
    ∃ tape, ofTexts [{ id := "a", symbols := #[1, 2, 3] }] = .ok tape ∧ 1 < tape.size ∧
      3 < 2 ^ 64 ∧ (tape.inOneText 1 2 = .ok true ∧ tape.WithinText 1 2) ∧
      tape.inOneText 1 3 = .ok false ∧ ¬ tape.WithinText 1 3 := by
  have made : ofTexts [{ id := "a", symbols := #[1, 2, 3] }] = .ok _ := rfl
  obtain ⟨yes, given, right⟩ := inOneText_iff made 1 2 (by decide) (by decide)
  obtain ⟨no, refused, wrong⟩ := inOneText_iff made 1 3 (by decide) (by decide)
  obtain rfl : true = yes := Except.ok.inj given
  obtain rfl : false = no := Except.ok.inj refused
  refine ⟨_, rfl, by decide, by decide, ⟨given, ?_⟩, refused, fun within => ?_⟩
  · rcases right.mp rfl with within | ⟨wraps, -⟩
    · exact within
    · exact absurd wraps (by decide)
  · exact absurd (wrong.mpr (.inl within)) Bool.false_ne_true

/-- From the last of three symbols on there are no `2 ^ 64 - 1` positions, but the sum that
addresses the last of them wraps to the first symbol. -/
theorem inOneText_of_wrapped :
    ∃ tape, ofTexts [{ id := "a", symbols := #[1, 2, 3] }] = .ok tape ∧
      tape.inOneText 2 (2 ^ 64 - 1) = .ok true ∧ ¬ tape.WithinText 2 (2 ^ 64 - 1) := by
  refine ⟨_, rfl, by cbv, fun within => ?_⟩
  exact absurd within.2.1 (by decide)

end SharedRuns.Tape
