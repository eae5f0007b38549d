import Mathlib.Data.List.Basic
import SharedRuns.Proofs.Checked
import SharedRuns.Stencil

/-!
# What an accepted model samples

The offsets of a pattern, its width and its samples are described here without accesses that may
fail. For an accepted model (`Stencil.Accepted`) the stored widths are those of the patterns, and a
pattern that fits at a start can be sampled there (`Stencil.sample?_of_fits`). Samples of a sorted
model are multisets of symbols (`Stencil.arrange_eq_iff`).
-/

namespace SharedRuns

/-- Sorting forgets the order of its input, where only equal entries are below one another. -/
theorem mergeSort_eq_of_perm {le : α → α → Bool}
    (trans : ∀ x y z, le x y = true → le y z = true → le x z = true)
    (total : ∀ x y, (le x y || le y x) = true)
    (antisymm : ∀ x y, le x y = true → le y x = true → x = y) {xs ys : List α}
    (perm : xs.Perm ys) : xs.mergeSort le = ys.mergeSort le := by
  have sorted (zs : List α) := List.pairwise_mergeSort trans total zs
  have entries : (xs.mergeSort le).Perm (ys.mergeSort le) :=
    (List.mergeSort_perm xs _).trans (perm.trans (List.mergeSort_perm ys _).symm)
  exact List.Perm.eq_of_pairwise (fun x y _ _ => antisymm x y) (sorted xs) (sorted ys) entries

namespace Stencil

/-- The offsets of pattern `k`. -/
def offsetsOf (m : Stencil) (k : Nat) : List UInt32 :=
  (m.offsets.toList.drop (k * m.size)).take m.size

/-- The largest offset of pattern `k`, and one. -/
def widthOf (m : Stencil) (k : Nat) : Nat := patternWidth (m.offsetsOf k)

/-- The symbols under pattern `k` placed at `start`, in the order of the offsets; none if one of
them is not there. -/
def read? (m : Stencil) (symbols : Array Symbol) (start k : Nat) : Option (List Symbol) :=
  (m.offsetsOf k).mapM fun offset => symbols[Position.add start offset.toNat]?

/-- The symbols under pattern `k` placed at `start`, in ascending order if the model is sorted. -/
def sampleOf (m : Stencil) (symbols : Array Symbol) (start k : Nat) : List Symbol :=
  m.arrange ((m.offsetsOf k).map fun offset => symbols.getD (Position.add start offset.toNat) 0)

/-- The order in which symbols were met does not show in a sorted sample. -/
theorem sort_symbols_eq_of_perm {xs ys : List Symbol} (perm : xs.Perm ys) :
    (xs.mergeSort fun x y => decide (x ≤ y)) = ys.mergeSort fun x y => decide (x ≤ y) := by
  refine mergeSort_eq_of_perm ?_ ?_ ?_ perm
  · simpa using fun x y z => UInt32.le_trans
  · simpa using UInt32.le_total
  · simpa using fun x y => UInt32.le_antisymm

/-- In a sorted model samples are compared as multisets, in any other one symbol by symbol. -/
theorem arrange_eq_iff {m : Stencil} {xs ys : List UInt32} :
    m.arrange xs = m.arrange ys ↔ if m.sorted then xs.Perm ys else xs = ys := by
  cases inOrder : m.sorted with
  | false => simp only [arrange, inOrder, Bool.false_eq_true, if_false]
  | true =>
      simp only [arrange, inOrder, if_true]
      constructor
      · intro same
        exact (List.mergeSort_perm xs _).symm.trans (same ▸ List.mergeSort_perm ys _)
      · exact sort_symbols_eq_of_perm

/-- Samples that are equal stay equal when each symbol is replaced before they are put in order. -/
theorem arrange_map_eq {m : Stencil} {xs ys : List UInt32} (same : m.arrange xs = m.arrange ys)
    (f : UInt32 → UInt32) : m.arrange (xs.map f) = m.arrange (ys.map f) := by
  rw [arrange_eq_iff] at same ⊢
  split at same
  · next inOrder =>
    rw [if_pos inOrder]
    exact same.map f
  · next asRead =>
    rw [if_neg asRead, same]

/-- A sample of replaced symbols, where the symbol that stands in for none replaces itself. -/
theorem sampleOf_map (m : Stencil) {f : Symbol → Symbol} (fixed : f 0 = 0)
    (symbols : Array Symbol) (start k : Nat) :
    m.sampleOf (symbols.map f) start k =
      m.arrange (((m.offsetsOf k).map fun offset =>
        symbols.getD (Position.add start offset.toNat) 0).map f) := by
  rw [sampleOf, List.map_map]
  congr 1
  refine List.map_congr_left fun offset _ => ?_
  simp only [Array.getD_eq_getD_getElem?, Array.getElem?_map, Function.comp_apply]
  cases symbols[Position.add start offset.toNat]? with
  | none => exact fixed.symm
  | some symbol => rfl

theorem foldl_max_toNat_le {pattern : List UInt32} {widest bound : Nat} :
    pattern.foldl (fun widest offset => max widest offset.toNat) widest ≤ bound ↔
      widest ≤ bound ∧ ∀ offset ∈ pattern, offset.toNat ≤ bound := by
  induction pattern generalizing widest with
  | nil => simp
  | cons offset rest ih =>
      rw [List.foldl_cons, ih, List.forall_mem_cons, Nat.max_le, and_assoc]

theorem patternWidth_pos (pattern : List UInt32) : 0 < patternWidth pattern := Nat.succ_pos _

theorem toNat_lt_patternWidth {pattern : List UInt32} {offset : UInt32}
    (member : offset ∈ pattern) : offset.toNat < patternWidth pattern :=
  Nat.lt_succ_of_le ((foldl_max_toNat_le.mp (Nat.le_refl _)).2 offset member)

theorem patternWidth_le (pattern : List UInt32) : patternWidth pattern ≤ Position.wordLimit := by
  refine Nat.succ_le_of_lt (Nat.lt_of_le_pred (by decide) (foldl_max_toNat_le.mpr ⟨?_, ?_⟩))
  · exact Nat.zero_le _
  · intro offset _
    exact Nat.le_pred_of_lt offset.toNat_lt

theorem cut_eq_map (size count : Nat) (xs : List α) :
    cut size count xs = (List.range count).map fun k => (xs.drop (k * size)).take size := by
  induction count generalizing xs with
  | zero => rfl
  | succ count ih =>
      rw [cut, ih, List.range_succ_eq_map, List.map_cons, List.map_map, Nat.zero_mul,
        List.drop_zero]
      simp only [List.drop_drop, Function.comp_def, Nat.succ_mul, Nat.add_comm]

/-- What holds of every model that is made from offsets. -/
structure Accepted (m : Stencil) : Prop where
  size_pos : 0 < m.size
  size_offsets : m.offsets.size = m.patternCount * m.size
  patternCount_le : m.patternCount ≤ maxPatterns
  widths : m.widths.toList = (List.range m.patternCount).map m.widthOf
  size_le : ∀ k < m.patternCount, m.size ≤ m.widthOf k

theorem accepted_of_ofOffsets {size : Nat} {offsets : Array UInt32} {sorted : Bool} {m : Stencil}
    (made : ofOffsets size offsets sorted = .ok m) : m.Accepted := by
  simp only [ofOffsets] at made
  split at made
  · cases made
  next positive =>
  split at made
  · cases made
  next whole =>
  simp only [not_or, not_not] at whole
  split at made
  · cases made
  next few =>
  split at made
  · cases made
  next wide =>
  cases made
  have widths : (cut size (offsets.size / size) offsets.toList).map patternWidth =
      (List.range (offsets.size / size)).map fun k =>
        patternWidth ((offsets.toList.drop (k * size)).take size) := by
    rw [cut_eq_map, List.map_map]
    rfl
  rw [widths, List.find?_eq_none] at wide
  simp only [widths]
  refine ⟨Nat.pos_of_ne_zero positive, ?_, ?_, ?_, ?_⟩
  · simp [patternCount, Nat.div_mul_cancel (Nat.dvd_of_mod_eq_zero whole.2)]
  · simpa [patternCount] using few
  · simp [patternCount, widthOf, offsetsOf]
  · intro k inside
    simp only [patternCount, List.size_toArray, List.length_map, List.length_range] at inside
    have entry := wide (patternWidth ((offsets.toList.drop (k * size)).take size), k)
      (by simp [List.mem_zipIdx_iff_getElem?, inside])
    simpa [widthOf, offsetsOf] using entry

theorem fields_of_ofOffsets {size : Nat} {offsets : Array UInt32} {sorted : Bool} {m : Stencil}
    (made : ofOffsets size offsets sorted = .ok m) :
    m.size = size ∧ m.offsets = offsets ∧ m.sorted = sorted := by
  simp only [ofOffsets] at made
  grind

/-- A model has patterns, since it is made of some offsets. -/
theorem patternCount_pos {size : Nat} {offsets : Array UInt32} {sorted : Bool} {m : Stencil}
    (made : ofOffsets size offsets sorted = .ok m) : 0 < m.patternCount := by
  have accepted := accepted_of_ofOffsets made
  have some : ¬ offsets.isEmpty := by
    simp only [ofOffsets] at made
    grind
  refine Nat.pos_of_ne_zero fun none => some ?_
  rw [Array.isEmpty_iff_size_eq_zero, ← (fields_of_ofOffsets made).2.1, accepted.size_offsets, none,
    Nat.zero_mul]

variable {m : Stencil}

theorem width?_eq (accepted : m.Accepted) (k : Nat) :
    m.width? k = if k < m.patternCount then some (m.widthOf k) else none := by
  rw [width?, ← Array.getElem?_toList, accepted.widths]
  split
  · next inside => simp [inside]
  · next outside => simp [Nat.not_lt.mp outside]

/-- The offsets of an accepted model are fewer than the positions that a word can name. -/
theorem size_offsets_lt (accepted : m.Accepted) : m.offsets.size < Position.space := by
  rw [accepted.size_offsets]
  rcases Nat.eq_zero_or_pos m.patternCount with none | some
  · simp [none, Position.space]
  · have narrow : m.size ≤ Position.wordLimit :=
      Nat.le_trans (accepted.size_le 0 some) (patternWidth_le _)
    exact Nat.lt_of_le_of_lt (Nat.mul_le_mul accepted.patternCount_le narrow) (by decide)

theorem pattern?_eq (accepted : m.Accepted) {k : Nat} (inside : k < m.patternCount) :
    m.pattern? k = some (m.offsetsOf k).toArray := by
  have stop : (k + 1) * m.size ≤ m.offsets.size := by
    rw [accepted.size_offsets]
    exact Nat.mul_le_mul_right _ inside
  have start : k * m.size ≤ (k + 1) * m.size := Nat.mul_le_mul_right _ (Nat.le_succ k)
  have space := size_offsets_lt accepted
  rw [pattern?, Position.mul_of_lt (by omega), Position.mul_of_lt (by omega),
    slice?_eq_some ⟨start, stop⟩]
  congr 1
  rw [← Array.toList_inj, Array.toList_extract, offsetsOf, List.extract_eq_take_drop, Nat.succ_mul,
    Nat.add_sub_cancel_left]

theorem length_offsetsOf (accepted : m.Accepted) {k : Nat} (inside : k < m.patternCount) :
    (m.offsetsOf k).length = m.size := by
  have room : k * m.size + m.size ≤ m.offsets.size := by
    rw [accepted.size_offsets, ← Nat.succ_mul]
    exact Nat.mul_le_mul_right _ inside
  rw [offsetsOf, List.length_take, List.length_drop, Array.length_toList]
  omega

theorem sample?_eq (accepted : m.Accepted) {k : Nat} (inside : k < m.patternCount)
    (symbols : Array Symbol) (start : Nat) :
    m.sample? symbols start k = (m.read? symbols start k).map m.arrange := by
  rw [sample?, pattern?_eq accepted inside]
  simp only [Option.bind_eq_bind, Option.bind_some, read?]
  cases (m.offsetsOf k).mapM fun offset => symbols[Position.add start offset.toNat]? with
  | none => rfl
  | some symbols => rfl

/-- Where a pattern fits, its symbols are there: a position that is added as a word is none beyond
the sum. -/
theorem read?_of_fits {symbols : Array Symbol} {start k : Nat}
    (fits : start + m.widthOf k ≤ symbols.size) :
    m.read? symbols start k = some ((m.offsetsOf k).map fun offset =>
      symbols.getD (Position.add start offset.toNat) 0) := by
  apply Checked.mapM_some
  intro offset member
  have low : offset.toNat < m.widthOf k := toNat_lt_patternWidth member
  have there : Position.add start offset.toNat < symbols.size :=
    Nat.lt_of_le_of_lt (Nat.mod_le _ _) (by omega)
  rw [Array.getD_eq_getD_getElem?, Array.getElem?_eq_getElem there, Option.getD_some]

/-- Where a pattern fits, it can be sampled. -/
theorem sample?_of_fits (accepted : m.Accepted) {k : Nat} (inside : k < m.patternCount)
    {symbols : Array Symbol} {start : Nat} (fits : start + m.widthOf k ≤ symbols.size) :
    m.sample? symbols start k = some (m.sampleOf symbols start k) := by
  rw [sample?_eq accepted inside, read?_of_fits fits]
  rfl

/-- A pattern that can be read at a start fits there, if no sum of the start and an offset wraps
around. -/
theorem fits_of_read? (accepted : m.Accepted) {k : Nat} (inside : k < m.patternCount)
    {symbols : Array Symbol} {start : Nat} (below : start + Position.wordLimit ≤ Position.space)
    {xs : List Symbol} (found : m.read? symbols start k = some xs) :
    start + m.widthOf k ≤ symbols.size := by
  have there : ∀ offset ∈ m.offsetsOf k, start + offset.toNat < symbols.size := by
    intro offset member
    have present := Checked.isSome_of_mapM found member
    have small : start + offset.toNat < Position.space :=
      Nat.lt_of_lt_of_le (Nat.add_lt_add_left offset.toNat_lt start) below
    rw [Position.add_of_lt small] at present
    simpa using present
  obtain ⟨offset, member⟩ : ∃ offset, offset ∈ m.offsetsOf k := by
    refine List.exists_mem_of_length_pos ?_
    rw [length_offsetsOf accepted inside]
    exact accepted.size_pos
  have first := there offset member
  have low : ∀ offset ∈ m.offsetsOf k, offset.toNat ≤ symbols.size - 1 - start := by
    intro offset member
    have := there offset member
    omega
  have widest := foldl_max_toNat_le.mpr ⟨Nat.zero_le _, low⟩
  rw [widthOf, patternWidth]
  omega

/-- The patterns that fit at a start, in their order. -/
theorem placementsAt_eq (accepted : m.Accepted) (size start : Nat) :
    m.placementsAt size start = (List.range m.patternCount).filterMap fun k =>
      if start + m.widthOf k ≤ size then
        some { start, pattern := k, width := m.widthOf k }
      else none := by
  have numbers : m.widths.toList.zipIdx =
      (List.range m.patternCount).map fun k => (m.widthOf k, k) := by
    rw [accepted.widths]
    exact List.ext_getElem (by simp) (by simp)
  rw [placementsAt, numbers, List.filterMap_map]
  simp only [Function.comp_def, Window.fits_iff]

/-- The placements in a text, spelled out as the pairs of a start and a pattern that fits there. -/
theorem placements_eq (accepted : m.Accepted) (size : Nat) :
    m.placements size = (List.range size).flatMap fun start =>
      (List.range m.patternCount).filterMap fun k =>
        if start + m.widthOf k ≤ size then
          some { start, pattern := k, width := m.widthOf k }
        else none :=
  List.flatMap_congr fun start _ => placementsAt_eq accepted size start

theorem mem_placements (accepted : m.Accepted) {size : Nat} {place : Placement} :
    place ∈ m.placements size ↔ place.pattern < m.patternCount ∧
      place.width = m.widthOf place.pattern ∧ place.start + place.width ≤ size := by
  obtain ⟨start, k, width⟩ := place
  simp only [placements_eq accepted, List.mem_flatMap, List.mem_range, List.mem_filterMap,
    Option.ite_none_right_eq_some, Option.some.injEq, Placement.mk.injEq]
  constructor
  · rintro ⟨_, _, _, inside, fits, rfl, rfl, rfl⟩
    exact ⟨inside, rfl, fits⟩
  · rintro ⟨inside, rfl, fits⟩
    have positive : 0 < m.widthOf k := patternWidth_pos _
    exact ⟨start, by omega, k, inside, fits, rfl, rfl, rfl⟩

end Stencil

end SharedRuns
