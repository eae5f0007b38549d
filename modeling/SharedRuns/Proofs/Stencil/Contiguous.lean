import SharedRuns.Proofs.Stencil.Sampling
import SharedRuns.Proofs.Text.Numbered

/-!
# The model of one pattern without gaps

A contiguous pattern samples what a window cuts out, and its placements are the starts of windows.
Its offsets are words, so it is no longer than what a word can count; the width of a longer one
would fall behind its size, and no such model is made.
-/

namespace SharedRuns.Stencil

/-- A model whose one pattern has the offsets `0, …, length - 1`, and whose samples keep their
order. -/
structure Gapless (m : Stencil) (length : Nat) : Prop where
  accepted : m.Accepted
  patternCount : m.patternCount = 1
  unsorted : m.sorted = false
  offsetsOf : m.offsetsOf 0 = (List.range length).map Nat.toUInt32
  widthOf : m.widthOf 0 = length

theorem gapless_of_contiguous {length : Nat} {m : Stencil} (made : contiguous length = .ok m) :
    m.Gapless length := by
  have accepted := accepted_of_ofOffsets made
  obtain ⟨size, offsets, unsorted⟩ := fields_of_ofOffsets made
  have positive : 0 < length := size ▸ accepted.size_pos
  have patterns : m.patternCount = 1 := by
    have total := accepted.size_offsets
    rw [offsets, size, Array.size_map, Array.size_range] at total
    exact (Nat.eq_of_mul_eq_mul_right positive (by rw [Nat.one_mul]; exact total)).symm
  have pattern : m.offsetsOf 0 = (List.range length).map Nat.toUInt32 := by
    rw [offsetsOf, offsets, size, Nat.zero_mul, List.drop_zero, Array.toList_map,
      Array.toList_range]
    exact List.take_of_length_le (by simp)
  have width : m.widthOf 0 = length := by
    apply Nat.le_antisymm
    · have low : ∀ offset ∈ m.offsetsOf 0, offset.toNat ≤ length - 1 := by
        rw [pattern]
        intro offset member
        obtain ⟨i, inside, rfl⟩ := List.mem_map.mp member
        exact Nat.le_trans (Nat.mod_le i _) (Nat.le_pred_of_lt (List.mem_range.mp inside))
      have widest := foldl_max_toNat_le.mpr ⟨Nat.zero_le (length - 1), low⟩
      rw [widthOf, patternWidth]
      omega
    · have narrow := accepted.size_le 0 (by rw [patterns]; exact Nat.one_pos)
      rwa [size] at narrow
  exact ⟨accepted, patterns, unsorted, pattern, width⟩

namespace Gapless

variable {m : Stencil} {length : Nat}

theorem length_le (gapless : m.Gapless length) : length ≤ Position.wordLimit := by
  rw [← gapless.widthOf]
  exact patternWidth_le _

theorem length_pos (gapless : m.Gapless length) : 0 < length := by
  rw [← gapless.widthOf]
  exact patternWidth_pos _

/-- A sample without gaps is a window, as long as its positions are words. -/
theorem sampleOf_eq_run (gapless : m.Gapless length) {t : Text} {start : Nat}
    (fits : start + length ≤ t.size) (words : t.size ≤ Position.space) :
    m.sampleOf t.symbols start 0 = t.run start length := by
  have short := gapless.length_le
  rw [sampleOf, arrange, gapless.unsorted, gapless.offsetsOf, List.map_map]
  rw [if_neg Bool.false_ne_true]
  rw [Text.size] at fits words
  apply List.ext_getElem
  · simp only [List.length_map, List.length_range, Text.run, Array.length_toList,
      Array.size_extract]
    omega
  · intro i inside _
    rw [List.length_map, List.length_range] at inside
    have word : i.toUInt32.toNat = i := Position.toNat_toUInt32 (by omega)
    have position : Position.add start i = start + i := Position.add_of_lt (by omega)
    have there : start + i < t.symbols.size := by omega
    simp [Text.run, word, position, there]

/-- The one pattern is placed at the start of each window. -/
theorem placements_eq (gapless : m.Gapless length) (size : Nat) :
    m.placements size =
      (List.range (size + 1 - length)).map fun start =>
        { start, pattern := 0, width := length } := by
  have positive := gapless.length_pos
  obtain ⟨beyond, total⟩ : ∃ beyond, size = (size + 1 - length) + beyond :=
    Nat.exists_eq_add_of_le (by omega)
  have fits : (List.range (size + 1 - length)).flatMap (m.placementsAt size) =
      (List.range (size + 1 - length)).map fun start =>
        { start, pattern := 0, width := length } := by
    rw [List.map_eq_flatMap]
    refine List.flatMap_congr fun start member => ?_
    have inside : start + length ≤ size := by
      have := List.mem_range.mp member
      omega
    simp [placementsAt_eq gapless.accepted, gapless.patternCount, gapless.widthOf, inside]
  have outside : ((List.range beyond).map (size + 1 - length + ·)).flatMap (m.placementsAt size) =
      [] := by
    rw [List.flatMap_eq_nil_iff]
    intro start member
    obtain ⟨_, _, rfl⟩ := List.mem_map.mp member
    simp only [placementsAt_eq gapless.accepted, gapless.patternCount, List.range_one,
      List.filterMap_cons, List.filterMap_nil, gapless.widthOf]
    rw [if_neg (by omega)]
  calc m.placements size
      = (List.range (size + 1 - length + beyond)).flatMap (m.placementsAt size) := by
        rw [← total]
        rfl
    _ = (List.range (size + 1 - length)).map fun start =>
          { start, pattern := 0, width := length } := by
        rw [List.range_add, List.flatMap_append, fits, outside, List.append_nil]

end Gapless

end SharedRuns.Stencil
