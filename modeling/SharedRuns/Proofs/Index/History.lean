import SharedRuns.Index
import SharedRuns.Proofs.Checked
import SharedRuns.Proofs.Postings

/-!
# What an index holds after many calls

An index is filled, asked and cleared in any order. The texts that it holds then are those whose
addition was accepted since it was last cleared. `heldTexts` computes them from the calls alone,
without any index: a text is accepted if it and its starts can be numbered by words.

A posting unfolded by a fingerprint that is not its own could lead to a window all the same. It does
not while texts are few or all of them are short (`Unmistakable.size_le_unfolded`).
-/

namespace SharedRuns

/-- A call of an index. -/
inductive IndexCall where
  | add (t : Text)
  | search (query : Text)
  | clear

/-- Whether a text can be added to an index that holds `count` texts. -/
def Text.Addressable (t : Text) (count : Nat) : Prop :=
  count < Position.wordLimit ∧ t.size < Position.wordLimit

instance (t : Text) (count : Nat) : Decidable (t.Addressable count) :=
  inferInstanceAs (Decidable (_ ∧ _))

theorem Text.checkAddressable_of_addressable {t : Text} {count : Nat} (h : t.Addressable count) :
    t.checkAddressable count = .ok () := by
  simp [checkAddressable, Nat.not_le.mpr h.1, Nat.not_le.mpr h.2]

theorem Text.checkAddressable_of_not {t : Text} {count : Nat} (h : ¬ t.Addressable count) :
    ∃ fault, t.checkAddressable count = .error fault := by
  unfold checkAddressable
  split
  · exact ⟨_, rfl⟩
  · split
    · exact ⟨_, rfl⟩
    · exact absurd ⟨by omega, by omega⟩ h

/-- The texts held after one more call. -/
def IndexCall.hold (held : List Text) : IndexCall → List Text
  | .add t => if t.Addressable held.length then held ++ [t] else held
  | .search _ => held
  | .clear => []

/-- The texts that were accepted since the last time everything was forgotten. -/
def heldTexts (calls : List IndexCall) : List Text := calls.foldl IndexCall.hold []

/-- Texts that an index can hold: their numbers and their starts are words. -/
structure Holdable (texts : List Text) : Prop where
  length_le : texts.length ≤ Position.wordLimit
  size_lt : ∀ t ∈ texts, t.size < Position.wordLimit

theorem holdable_nil : Holdable [] := ⟨by simp, by simp⟩

theorem Holdable.hold {held : List Text} (h : Holdable held) (call : IndexCall) :
    Holdable (call.hold held) := by
  cases call with
  | add t =>
      simp only [IndexCall.hold]
      split
      · next accepted =>
          refine ⟨?_, fun u member => ?_⟩
          · rw [List.length_append]
            exact Nat.succ_le_of_lt accepted.1
          · rcases List.mem_append.mp member with old | new
            · exact h.size_lt u old
            · exact List.mem_singleton.mp new ▸ accepted.2
      · exact h
  | search query => exact h
  | clear => exact holdable_nil

/-- However an index was called, it holds no more than it can number. -/
theorem holdable_heldTexts (calls : List IndexCall) : Holdable (heldTexts calls) := by
  suffices general : ∀ held, Holdable held → Holdable (calls.foldl IndexCall.hold held) from
    general [] holdable_nil
  induction calls with
  | nil =>
      intro _ h
      exact h
  | cons call rest ih =>
      intro held h
      exact ih _ (h.hold call)

theorem Holdable.left {held rest : List Text} (h : Holdable (held ++ rest)) : Holdable held := by
  refine ⟨?_, fun t member => h.size_lt t (List.mem_append_left rest member)⟩
  exact Nat.le_trans (List.sublist_append_left held rest).length_le h.length_le

/-- Texts that can be held together can be added one after another. -/
theorem Holdable.addressable {held rest : List Text} {t : Text}
    (h : Holdable (held ++ t :: rest)) : t.Addressable held.length := by
  have total := h.length_le
  rw [List.length_append, List.length_cons] at total
  exact ⟨by omega, h.size_lt t (by simp)⟩

/-- An index takes texts that can be held one after another, if it takes each that it can number. -/
theorem Holdable.foldlM_ok {ι : Type} {add : ι → Text → Except Fault ι} {ofTexts : List Text → ι}
    (added : ∀ held t, t.Addressable held.length →
      add (ofTexts held) t = .ok (ofTexts (held ++ [t])))
    {texts : List Text} (holdable : Holdable texts) :
    texts.foldlM add (ofTexts []) = .ok (ofTexts texts) := by
  suffices general : ∀ held, Holdable (held ++ texts) →
      texts.foldlM add (ofTexts held) = .ok (ofTexts (held ++ texts)) from general [] holdable
  clear holdable
  induction texts with
  | nil =>
      intro held _
      rw [List.append_nil]
      rfl
  | cons t rest ih =>
      intro held holdable
      have taken := added held t holdable.addressable
      rw [List.append_cons] at holdable ⊢
      rw [List.foldlM_cons, taken, Checked.ok_bind, ih _ holdable]

/-- Texts that can be held together are held after they were added one after another. -/
theorem Holdable.heldTexts_map_add {texts : List Text} (holdable : Holdable texts) :
    heldTexts (texts.map .add) = texts := by
  suffices general : ∀ held, Holdable (held ++ texts) →
      (texts.map IndexCall.add).foldl IndexCall.hold held = held ++ texts from general [] holdable
  clear holdable
  induction texts with
  | nil =>
      intro held _
      exact (List.append_nil held).symm
  | cons t rest ih =>
      intro held holdable
      have taken : IndexCall.hold held (.add t) = held ++ [t] := if_pos holdable.addressable
      rw [List.append_cons] at holdable ⊢
      rw [List.map_cons, List.foldl_cons, taken, ih _ holdable]

section

variable {texts : List Text} {number start : Nat} {t : Text}

theorem Holdable.size_le_space (held : Holdable texts) (member : t ∈ texts) :
    t.size ≤ Position.space :=
  Nat.le_trans (Nat.le_of_lt (held.size_lt t member)) (by decide)

theorem Holdable.toNat_number (held : Holdable texts) (lookup : texts[number]? = some t) :
    number.toUInt32.toNat = number := by
  have inList : number < texts.length := (List.getElem?_eq_some_iff.mp lookup).1
  exact Position.toNat_toUInt32 (Nat.lt_of_lt_of_le inList held.length_le)

theorem Holdable.toNat_start (held : Holdable texts) (lookup : texts[number]? = some t)
    (inside : start < t.size) : start.toUInt32.toNat = start := by
  have small : t.size < Position.wordLimit := held.size_lt t (List.mem_of_getElem? lookup)
  exact Position.toNat_toUInt32 (Nat.lt_trans inside small)

/-- The bound under which no posting of another fingerprint can be taken for a window: either its
text number or its start is lifted out of what the index holds. -/
def Unmistakable (texts : List Text) : Prop :=
  texts.length ≤ binCount ∨ ∀ t ∈ texts, t.size ≤ binCount

/-- If a posting is unfolded by another fingerprint of its bin and leads to a text, then it leads
behind its end. -/
theorem Unmistakable.size_le_unfolded (bounded : Unmistakable texts) (held : Holdable texts)
    (lookup : texts[number]? = some t) (inside : start < t.size) {g h : UInt32}
    (same : binNumber g = binNumber h) (different : g ≠ h) {other : Text}
    (found : texts[(number.toUInt32 ^^^ (g ^^^ h)).toNat]? = some other) :
    other.size ≤ (start.toUInt32 ^^^ (g ^^^ h)).toNat := by
  have numberWord := held.toNat_number lookup
  have startWord := held.toNat_start lookup inside
  have inList : number < texts.length := (List.getElem?_eq_some_iff.mp lookup).1
  rcases bounded with few | short
  · have lifted := binCount_le_unfolded same different (x := number.toUInt32) (by omega)
    have unfoldedInList := (List.getElem?_eq_some_iff.mp found).1
    omega
  · have size := short t (List.mem_of_getElem? lookup)
    have lifted := binCount_le_unfolded same different (x := start.toUInt32) (by omega)
    exact Nat.le_trans (short other (List.mem_of_getElem? found)) lifted

end

end SharedRuns
