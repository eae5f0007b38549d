import SharedRuns.Proofs.Checked
import SharedRuns.Proofs.Stencil.Gapped

/-!
# The width of a gapped model

The last offset of a gapped pattern is a word, and of a window of more than `2 ^ 32` positions only
the low bits of `width - 1` are kept. The model that is made then is the one of the window that is
kept (`gapped_spans`): it spans the window that was asked for exactly if words can express it. A
size that the window asked for has room for, but not the one that is kept, is refused, because the
first pattern would have fewer positions than offsets (`size_le_of_gapped`).
-/

namespace SharedRuns.Stencil

/-- What is kept of a width if its last offset is a word. -/
def keptWidth (width : Nat) : Nat := (width - 1) % Position.wordLimit + 1

/-- The model has a pattern, and each of its patterns starts at 0, ends at `width - 1` and is known
to have this width. -/
structure Spans (m : Stencil) (width : Nat) : Prop where
  patterned : 0 < m.patternCount
  ends : ∀ k < m.patternCount, ∃ offsets, m.pattern? k = some offsets ∧ offsets[0]? = some 0 ∧
    offsets.back?.map UInt32.toNat = some (width - 1)
  width_eq : ∀ k < m.patternCount, m.width? k = some width
  widest_eq : m.widest = width

variable {size width : Nat} {sorted : Bool} {m : Stencil}

theorem keptWidth_le (width : Nat) : keptWidth width ≤ Position.wordLimit :=
  Nat.mod_lt _ (by decide)

theorem toUInt32_keptWidth (width : Nat) :
    (keptWidth width - 1).toUInt32 = (width - 1).toUInt32 := by
  rw [← UInt32.toNat_inj, keptWidth, Nat.add_sub_cancel]
  exact Nat.mod_mod _ _

/-- The width only shows in the wording of a refusal. -/
theorem enumerate_eq_ok_of_eq_ok {last : UInt32} {inner : List UInt32}
    {found offsets : Array UInt32} (width' : Nat)
    (listed : enumerate size width last inner found = .ok offsets) :
    enumerate size width' last inner found = .ok offsets := by
  fun_induction enumerate size width last inner found with
  | case1 inner found full => cases listed
  | case2 inner found room extended next goes ih =>
      rw [enumerate, if_neg room, goes]
      exact ih listed
  | case3 inner found room extended stops =>
      rw [enumerate, if_neg room, stops]
      exact listed

/-- The first pattern stays in front. -/
theorem exists_of_enumerate {last : UInt32} {inner : List UInt32} {found offsets : Array UInt32}
    (listed : enumerate size width last inner found = .ok offsets) :
    ∃ more, offsets.toList = found.toList ++ framed last inner ++ more := by
  fun_induction enumerate size width last inner found with
  | case1 inner found full => cases listed
  | case2 inner found room extended next goes ih =>
      obtain ⟨more, same⟩ := ih listed
      exact ⟨framed last next ++ more, by simp [same, extended, framed]⟩
  | case3 inner found room extended stops =>
      obtain rfl := Except.ok.inj listed
      exact ⟨[], by simp [extended, framed]⟩

/-- A model of two offsets or more is made of the patterns that are enumerated. -/
theorem gapped_eq_ok_iff (enough : 2 ≤ size) :
    gapped size width sorted = .ok m ↔ size ≤ width ∧ ∃ offsets,
      enumerate size width (width - 1).toUInt32 (ascending 1 (size - 2).toUInt32.toNat) #[] =
        .ok offsets ∧ ofOffsets size offsets sorted = .ok m := by
  by_cases room : size ≤ width
  · rw [gapped, if_neg (by omega), if_neg (by omega)]
    constructor
    · intro made
      exact ⟨room, Checked.exists_of_bind_ok made⟩
    · rintro ⟨-, offsets, listed, made⟩
      simp only [listed]
      exact made
  · rw [gapped, if_pos (by omega)]
    exact iff_of_false (fun made => by cases made) fun fits => room fits.1

/-- The first pattern of a model ends where words wrap to, so it must have room there. -/
theorem size_le_of_gapped (enough : 2 ≤ size) (made : gapped size width sorted = .ok m) :
    size ≤ keptWidth width := by
  obtain ⟨-, offsets, listed, made⟩ := (gapped_eq_ok_iff enough).mp made
  have accepted := accepted_of_ofOffsets made
  obtain ⟨sizes, stored, -⟩ := fields_of_ofOffsets made
  have wide : size ≤ patternWidth (m.offsetsOf 0) :=
    sizes ▸ accepted.size_le 0 (patternCount_pos made)
  have word : size ≤ Position.wordLimit := Nat.le_trans wide (patternWidth_le _)
  have short : (size - 2).toUInt32.toNat = size - 2 := Position.toNat_toUInt32 (by omega)
  rw [short] at listed
  have first : m.offsetsOf 0 = framed (width - 1).toUInt32 (ascending 1 (size - 2)) := by
    obtain ⟨more, same⟩ := exists_of_enumerate listed
    rw [offsetsOf, stored, sizes, same, Nat.zero_mul, List.drop_zero, Array.toList_empty,
      List.nil_append]
    refine List.take_left' ?_
    rw [length_framed, length_ascending]
    omega
  have low : ∀ offset ∈ m.offsetsOf 0, offset.toNat ≤ max (size - 2) (keptWidth width - 1) := by
    intro offset member
    rw [first, framed, List.cons_append, List.mem_cons, List.mem_append,
      mem_ascending (by rw [UInt32.toNat_one]; omega), List.mem_singleton] at member
    rcases member with rfl | inner | rfl
    · exact Nat.zero_le _
    · rw [UInt32.toNat_one] at inner
      omega
    · exact Nat.le_max_right _ _
  have narrow := foldl_max_toNat_le.mpr ⟨Nat.zero_le _, low⟩
  rw [patternWidth] at wide
  omega

/-- A model is made for a window exactly if it is made for what is kept of the window and the
window asked for has room as well. -/
theorem gapped_eq_ok_iff_keptWidth :
    gapped size width sorted = .ok m ↔
      size ≤ width ∧ (size = 1 → width = 1) ∧ gapped size (keptWidth width) sorted = .ok m := by
  rcases Nat.lt_or_ge size 2 with few | enough
  · obtain rfl | rfl : size = 0 ∨ size = 1 := by omega
    · simp [gapped]
    · by_cases single : width = 1
      · subst single
        simp [keptWidth]
      · refine iff_of_false (fun made => ?_) fun fits => single (fits.2.1 rfl)
        rw [gapped] at made
        split at made <;> cases made
  · constructor
    · intro made
      have fits := size_le_of_gapped enough made
      obtain ⟨room, offsets, listed, made⟩ := (gapped_eq_ok_iff enough).mp made
      refine ⟨room, fun single => by omega, (gapped_eq_ok_iff enough).mpr ⟨fits, offsets, ?_, made⟩⟩
      rw [toUInt32_keptWidth]
      exact enumerate_eq_ok_of_eq_ok _ listed
    · rintro ⟨room, -, made⟩
      obtain ⟨-, offsets, listed, made⟩ := (gapped_eq_ok_iff enough).mp made
      rw [toUInt32_keptWidth] at listed
      exact (gapped_eq_ok_iff enough).mpr ⟨room, offsets, enumerate_eq_ok_of_eq_ok _ listed, made⟩

/-- A gapped model is made from offsets, like all models. -/
theorem ofOffsets_of_gapped (made : gapped size width sorted = .ok m) :
    ∃ size offsets, ofOffsets size offsets sorted = .ok m := by
  unfold gapped at made
  split at made
  · cases made
  · split at made
    · split at made
      · cases made
      · exact ⟨_, _, made⟩
    · obtain ⟨offsets, -, made⟩ := Checked.exists_of_bind_ok made
      exact ⟨_, offsets, made⟩

theorem enumerates_of_gapped (word : width ≤ Position.wordLimit)
    (made : gapped size width sorted = .ok m) : m.Enumerates size width := by
  by_cases placeable : Placeable size width
  · obtain ⟨m', made', enumerates⟩ := gapped_of_placeable placeable word sorted
    exact Except.ok.inj (made'.symm.trans made) ▸ enumerates
  · obtain ⟨flaw, refused⟩ := gapped_of_not_placeable placeable word sorted
    cases refused.symm.trans made

theorem foldl_max_replicate (count : Nat) {start : Nat} (low : start ≤ width) :
    (List.replicate (count + 1) width).foldl max start = width := by
  induction count generalizing start with
  | zero => exact Nat.max_eq_right low
  | succ count ih =>
      rw [List.replicate_succ, List.foldl_cons, Nat.max_eq_right low]
      exact ih (Nat.le_refl width)

/-- A model that enumerates the patterns of a window spans it. -/
theorem Enumerates.spans (enumerates : m.Enumerates size width) (accepted : m.Accepted)
    (patterned : 0 < m.patternCount) : m.Spans width := by
  have known : ∀ k < m.patternCount, m.widthOf k = width := by
    intro k inside
    have same := enumerates.width k inside
    rw [width?_eq accepted, if_pos inside] at same
    exact Option.some.inj same
  refine ⟨patterned, fun k inside => ?_, enumerates.width, ?_⟩
  · obtain ⟨-, -, first, last⟩ := (enumerates.all _).mp (offsetsOf_mem_patterns inside)
    refine ⟨_, pattern?_eq accepted inside, ?_, ?_⟩
    · rw [List.getElem?_toArray, ← List.head?_eq_getElem?, first]
    · rw [List.back?_toArray, last]
  · have same : m.widths.toList = List.replicate (m.patternCount - 1 + 1) width := by
      rw [accepted.widths, Nat.sub_add_cancel patterned, List.eq_replicate_iff]
      refine ⟨by rw [List.length_map, List.length_range], fun w member => ?_⟩
      obtain ⟨k, inside, rfl⟩ := List.mem_map.mp member
      exact known k (List.mem_range.mp inside)
    rw [widest, ← Array.foldl_toList, same]
    exact foldl_max_replicate _ (Nat.zero_le width)

theorem spans_of_gapped (word : width ≤ Position.wordLimit)
    (made : gapped size width sorted = .ok m) : m.Spans width := by
  obtain ⟨_, offsets, taken⟩ := ofOffsets_of_gapped made
  exact (enumerates_of_gapped word made).spans (accepted_of_ofOffsets taken)
    (patternCount_pos taken)

/-- A gapped model spans the window that is kept of the one asked for, and it is made exactly if
there is room in both. So it spans the window asked for if, and only if, a word can hold the last
offset of that window. -/
theorem gapped_spans (size width : Nat) (sorted : Bool) (m : Stencil) :
    (gapped size width sorted = .ok m ↔
      size ≤ width ∧ (size = 1 → width = 1) ∧
        gapped size ((width - 1) % 2 ^ 32 + 1) sorted = .ok m) ∧
    (gapped size width sorted = .ok m →
      m.Spans ((width - 1) % 2 ^ 32 + 1) ∧ (m.Spans width ↔ width ≤ 2 ^ 32)) := by
  refine ⟨gapped_eq_ok_iff_keptWidth, fun made => ?_⟩
  obtain ⟨room, -, kept⟩ := gapped_eq_ok_iff_keptWidth.mp made
  have spans : m.Spans (keptWidth width) := spans_of_gapped (keptWidth_le width) kept
  refine ⟨spans, fun asked => ?_, fun word => spans_of_gapped word made⟩
  have same : width = keptWidth width := asked.widest_eq.symm.trans spans.widest_eq
  exact same ▸ keptWidth_le width

/-- The widest window of all: its last offset is the largest word. -/
theorem gapped_spans_largest_word :
    ∃ m, gapped 2 (2 ^ 32) true = .ok m ∧ m.Spans (2 ^ 32) ∧ m.widths = #[2 ^ 32] := by
  have made : gapped 2 (2 ^ 32) true = .ok
      { size := 2, offsets := #[0, 4294967295], widths := #[2 ^ 32], sorted := true } := by cbv
  exact ⟨_, made, ((gapped_spans 2 (2 ^ 32) true _).2 made).2.mpr (Nat.le_refl _), rfl⟩

/-- Of a window of `2 ^ 32 + 6` positions six are kept, and the model spans those. -/
theorem gapped_wraps :
    ∃ m, gapped 2 (2 ^ 32 + 6) false = .ok m ∧ m.pattern? 0 = some #[0, 5] ∧
      m.width? 0 = some 6 ∧ m.widest = 6 ∧ ¬ m.Spans (2 ^ 32 + 6) := by
  have made : gapped 2 (2 ^ 32 + 6) false = .ok
      { size := 2, offsets := #[0, 5], widths := #[6], sorted := false } := by cbv
  exact ⟨_, made, by decide, rfl, by decide, fun spans => absurd spans.widest_eq (by decide)⟩

end SharedRuns.Stencil
