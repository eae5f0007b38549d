import Mathlib.Algebra.Group.Nat.Defs
import Mathlib.Data.List.Sort
import Mathlib.Data.List.Sublists
import SharedRuns.Proofs.Stencil.Sampling
import SharedRuns.Stencil

/-!
# The patterns of a gapped model

The inner offsets of a gapped pattern are chosen from the numbers between its ends. `choices` lists
all that can be chosen, in lexicographic order, and `Walk` says that `advance` goes from one entry
of a list to the next and stops at the last. It walks through the choices (`walk_choices`), so the
patterns of a gapped model are all of those with increasing offsets, each of them once, as long as
one byte can number them (`gapped_enumerates`).
-/

namespace SharedRuns.Stencil

@[simp] theorem length_ascending (first : UInt32) (count : Nat) :
    (ascending first count).length = count := by
  induction count generalizing first with
  | zero => rfl
  | succ count ih => rw [ascending, List.length_cons, ih]

theorem toNat_succ {x : UInt32} (word : x.toNat + 1 < Position.wordLimit) :
    (x + 1).toNat = x.toNat + 1 := by
  rw [UInt32.toNat_add]
  exact Nat.mod_eq_of_lt word

theorem mem_ascending {first x : UInt32} {count : Nat}
    (word : first.toNat + count < Position.wordLimit) :
    x ∈ ascending first count ↔ first.toNat ≤ x.toNat ∧ x.toNat < first.toNat + count := by
  induction count generalizing first with
  | zero => simp [ascending]
  | succ count ih =>
      have next : (first + 1).toNat = first.toNat + 1 := toNat_succ (by omega)
      rw [ascending, List.mem_cons, ih (by omega), next, ← UInt32.toNat_inj]
      omega

theorem ascending_pairwise {first : UInt32} {count : Nat}
    (word : first.toNat + count < Position.wordLimit) :
    (ascending first count).Pairwise (· < ·) := by
  induction count generalizing first with
  | zero => exact .nil
  | succ count ih =>
      have next : (first + 1).toNat = first.toNat + 1 := toNat_succ (by omega)
      refine List.pairwise_cons.mpr ⟨fun x member => ?_, ih (by omega)⟩
      have bounds := (mem_ascending (by omega)).mp member
      rw [UInt32.lt_iff_toNat_lt]
      omega

/-- What can be chosen from a list, `count` entries each time and in their order. -/
def choices (count : Nat) (entries : List UInt32) : List (List UInt32) :=
  (entries.sublistsLen count).reverse

theorem choices_zero (entries : List UInt32) : choices 0 entries = [[]] := by
  rw [choices, List.sublistsLen_zero, List.reverse_singleton]

/-- The choices with the first entry come before those without. -/
theorem choices_succ_cons (count : Nat) (x : UInt32) (rest : List UInt32) :
    choices (count + 1) (x :: rest) =
      (choices count rest).map (x :: ·) ++ choices (count + 1) rest := by
  rw [choices, List.sublistsLen_succ_cons, List.reverse_append, ← List.map_reverse, choices,
    choices]

theorem mem_choices {count : Nat} {entries xs : List UInt32} :
    xs ∈ choices count entries ↔ xs.Sublist entries ∧ xs.length = count := by
  rw [choices, List.mem_reverse, List.mem_sublistsLen]

theorem length_choices (count : Nat) (entries : List UInt32) :
    (choices count entries).length = entries.length.choose count := by
  rw [choices, List.length_reverse, List.length_sublistsLen]

theorem choices_of_length_lt {count : Nat} {entries : List UInt32}
    (few : entries.length < count) : choices count entries = [] := by
  rw [choices, List.sublistsLen_of_length_lt few, List.reverse_nil]

/-- The choices from ascending entries ascend themselves. -/
theorem choices_pairwise {count : Nat} {entries : List UInt32}
    (ascending : entries.Pairwise (· < ·)) : (choices count entries).Pairwise (· < ·) := by
  induction entries generalizing count with
  | nil =>
      cases count with
      | zero => simp [choices_zero]
      | succ count => exact .nil
  | cons x rest ih =>
      cases count with
      | zero => simp [choices_zero]
      | succ count =>
          obtain ⟨greater, later⟩ := List.pairwise_cons.mp ascending
          rw [choices_succ_cons, List.pairwise_append]
          refine ⟨List.pairwise_map.mpr ((ih later).imp List.Lex.cons), ih later, ?_⟩
          intro first inFirst second inSecond
          obtain ⟨tail, -, rfl⟩ := List.mem_map.mp inFirst
          obtain ⟨among, length⟩ := mem_choices.mp inSecond
          cases second with
          | nil => cases length
          | cons y tail' => exact .rel (greater y (among.subset List.mem_cons_self))

/-- From a list on `advance` meets these lists, and stops at the last of them. -/
inductive Walk (largest : UInt32) : List UInt32 → List (List UInt32) → Prop
  | stop {xs : List UInt32} (last : advance largest xs = none) : Walk largest xs [xs]
  | step {xs ys : List UInt32} {more : List (List UInt32)} (next : advance largest xs = some ys)
      (walk : Walk largest ys more) : Walk largest xs (xs :: more)

section

variable {largest x : UInt32} {xs ys : List UInt32} {found others : List (List UInt32)}

theorem advance_cons_of_some (next : advance largest xs = some ys) :
    advance largest (x :: xs) = some (x :: ys) := by
  rw [advance, next]

theorem advance_cons_of_none (last : advance largest xs = none) :
    advance largest (x :: xs) =
      if x < largest - xs.length.toUInt32 then some (ascending (x + 1) (xs.length + 1))
      else none := by
  rw [advance, last]

theorem length_of_advance (next : advance largest xs = some ys) : ys.length = xs.length := by
  induction xs generalizing ys with
  | nil => cases next
  | cons x rest ih =>
      cases behind : advance largest rest with
      | some rest' =>
          rw [advance_cons_of_some behind] at next
          obtain rfl := Option.some.inj next
          rw [List.length_cons, List.length_cons, ih behind]
      | none =>
          rw [advance_cons_of_none behind] at next
          obtain ⟨-, same⟩ := Option.ite_none_right_eq_some.mp next
          obtain rfl := Option.some.inj same
          rw [length_ascending, List.length_cons]

/-- Behind a first entry that has room, the walk goes on with the entry moved up. -/
theorem Walk.cons_append (walk : Walk largest xs found)
    (room : x < largest - xs.length.toUInt32)
    (more : Walk largest (ascending (x + 1) (xs.length + 1)) others) :
    Walk largest (x :: xs) (found.map (x :: ·) ++ others) := by
  induction walk with
  | stop last => exact .step ((advance_cons_of_none last).trans (if_pos room)) more
  | step next walk ih =>
      rw [← length_of_advance next] at room more
      exact .step (advance_cons_of_some next) (ih room more)

/-- Behind a first entry that has no room, the walk stops where it would without that entry. -/
theorem Walk.cons (walk : Walk largest xs found)
    (full : ¬ x < largest - xs.length.toUInt32) :
    Walk largest (x :: xs) (found.map (x :: ·)) := by
  induction walk with
  | stop last => exact .stop ((advance_cons_of_none last).trans (if_neg full))
  | step next walk ih =>
      rw [← length_of_advance next] at full
      exact .step (advance_cons_of_some next) (ih full)

end

/-- From the first choice on, `advance` walks through all of them. -/
theorem walk_choices {largest first : UInt32} {count room : Nat}
    (reach : first.toNat + room = largest.toNat + 1)
    (word : largest.toNat + 1 < Position.wordLimit) (fits : count ≤ room) :
    Walk largest (ascending first count) (choices count (ascending first room)) := by
  induction room generalizing first count with
  | zero =>
      obtain rfl := Nat.le_zero.mp fits
      rw [choices_zero]
      exact .stop rfl
  | succ room ih =>
      cases count with
      | zero =>
          rw [choices_zero]
          exact .stop rfl
      | succ count =>
          have next : (first + 1).toNat = first.toNat + 1 := toNat_succ (by omega)
          have behind : Walk largest (ascending (first + 1) count)
              (choices count (ascending (first + 1) room)) := ih (by omega) (by omega)
          have short : count.toUInt32.toNat = count := Position.toNat_toUInt32 (by omega)
          have limit : (largest - count.toUInt32).toNat = largest.toNat - count := by
            rw [UInt32.toNat_sub_of_le _ _ (UInt32.le_iff_toNat_le.mpr (by omega)), short]
          rw [ascending, ascending, choices_succ_cons]
          -- The choices with the first number come first; if there are others, the walk goes on.
          by_cases more : count + 1 ≤ room
          · refine behind.cons_append ?_ ?_
            · rw [length_ascending, UInt32.lt_iff_toNat_lt, limit]
              omega
            · rw [length_ascending]
              exact ih (by omega) more
          · have none : choices (count + 1) (ascending (first + 1) room) = [] :=
              choices_of_length_lt (by rw [length_ascending]; omega)
            rw [none, List.append_nil]
            refine behind.cons ?_
            rw [length_ascending, UInt32.lt_iff_toNat_lt, limit]
            omega

/-- The patterns of a model, in their order. -/
def patterns (m : Stencil) : List (List UInt32) := cut m.size m.patternCount m.offsets.toList

theorem offsetsOf_mem_patterns {m : Stencil} {k : Nat} (inside : k < m.patternCount) :
    m.offsetsOf k ∈ m.patterns := by
  rw [patterns, cut_eq_map]
  exact List.mem_map.mpr ⟨k, List.mem_range.mpr inside, rfl⟩

theorem cut_flatten {size : Nat} {patterns : List (List UInt32)}
    (sizes : ∀ pattern ∈ patterns, pattern.length = size) :
    cut size patterns.length patterns.flatten = patterns := by
  induction patterns with
  | nil => rfl
  | cons pattern rest ih =>
      rw [List.forall_mem_cons] at sizes
      rw [List.length_cons, List.flatten_cons, cut, List.take_left' sizes.1,
        List.drop_left' sizes.1, ih sizes.2]

/-- Patterns that are numbered by a byte and are wide enough make a model, and are its patterns. -/
theorem ofOffsets_flatten {size : Nat} {patterns : List (List UInt32)} (sorted : Bool)
    (positive : 0 < size) (nonempty : patterns ≠ []) (few : patterns.length ≤ maxPatterns)
    (sizes : ∀ pattern ∈ patterns, pattern.length = size)
    (wide : ∀ pattern ∈ patterns, size ≤ patternWidth pattern) :
    ∃ m, ofOffsets size patterns.flatten.toArray sorted = .ok m ∧ m.patterns = patterns := by
  have length : patterns.flatten.length = patterns.length * size := by
    rw [List.length_flatten, List.map_congr_left sizes, List.map_const', List.sum_replicate_nat]
  have count : patterns.flatten.length / size = patterns.length := by
    rw [length, Nat.mul_div_cancel _ positive]
  have taken : ¬ (patterns.flatten.toArray.isEmpty ∨ patterns.flatten.toArray.size % size ≠ 0) := by
    rw [Array.isEmpty_iff_size_eq_zero, List.size_toArray, length, Nat.mul_mod_left]
    have := Nat.mul_pos (List.length_pos_iff.mpr nonempty) positive
    omega
  have widths : ((patterns.map patternWidth).zipIdx.find? fun w => w.1 < size) = none := by
    rw [List.find?_eq_none]
    rintro ⟨width, k⟩ member
    obtain ⟨pattern, inPatterns, rfl⟩ := List.mem_map.mp (List.fst_mem_of_mem_zipIdx member)
    simpa using wide pattern inPatterns
  refine ⟨{ size, offsets := patterns.flatten.toArray,
            widths := (patterns.map patternWidth).toArray, sorted }, ?_, ?_⟩
  · simp only [ofOffsets]
    rw [if_neg (Nat.ne_of_gt positive), if_neg taken, List.size_toArray, count,
      if_neg (Nat.not_lt.mpr few), cut_flatten sizes, widths]
  · simp only [Stencil.patterns, patternCount, List.size_toArray, List.length_map]
    exact cut_flatten sizes

/-- The pattern with these offsets between 0 and its last one. -/
def framed (last : UInt32) (inner : List UInt32) : List UInt32 := 0 :: inner ++ [last]

theorem length_framed (last : UInt32) (inner : List UInt32) :
    (framed last inner).length = inner.length + 2 := by
  rw [framed, List.length_append, List.length_cons, List.length_singleton]

/-- Patterns are in the order of their inner offsets. -/
theorem framed_lt_framed {last : UInt32} {xs ys : List UInt32} (less : xs < ys)
    (length : xs.length = ys.length) : framed last xs < framed last ys := by
  refine List.Lex.cons ?_
  induction less with
  | nil => cases length
  | rel less => exact .rel less
  | cons less ih => exact .cons (ih (Nat.succ.inj length))

/-- What is walked through is stored after what was found before, unless the patterns become too
many. -/
theorem enumerate_eq {size width : Nat} {last : UInt32} {inner : List UInt32}
    {found : List (List UInt32)} (walk : Walk (last - 1) inner found)
    (length : inner.length + 2 = size) {stored : Nat} {offsets : Array UInt32}
    (held : offsets.size = stored * size) :
    enumerate size width last inner offsets =
      if stored + found.length ≤ maxPatterns then
        .ok (offsets ++ (found.map (framed last)).flatten.toArray)
      else .error (.tooManyPlacements size width) := by
  have positive : 0 < size := by omega
  have full : maxPatterns * size ≤ offsets.size ↔ maxPatterns ≤ stored := by
    rw [held, Nat.mul_le_mul_right_iff positive]
  induction walk generalizing stored offsets with
  | @stop inner stops =>
      rw [enumerate, List.length_singleton]
      by_cases room : stored + 1 ≤ maxPatterns
      · rw [if_neg (by rw [full]; omega), if_pos room]
        simp only [stops, List.map_singleton, List.flatten_singleton, framed]
      · rw [if_pos (by rw [full]; omega), if_neg room]
  | @step inner next more goes walk ih =>
      rw [enumerate, List.length_cons]
      by_cases room : stored + 1 ≤ maxPatterns
      · rw [if_neg (by rw [full]; omega)]
        have extended : (offsets ++ (framed last inner).toArray).size = (stored + 1) * size := by
          rw [Array.size_append, held, List.size_toArray, length_framed, length, Nat.succ_mul]
        have rest := ih ((length_of_advance goes).symm ▸ length) extended
          (by rw [extended, Nat.mul_le_mul_right_iff positive])
        rw [framed] at rest
        simp only [goes, rest]
        simp [framed, Nat.add_assoc, Nat.add_comm 1]
      · rw [if_pos (by rw [full]; omega), if_neg (by omega)]

/-- A pattern of a gapped model: `size` increasing offsets from 0 to `width - 1`. -/
structure IsGapped (size width : Nat) (pattern : List UInt32) : Prop where
  length_eq : pattern.length = size
  ascending : pattern.Pairwise (· < ·)
  first : pattern.head? = some 0
  last : pattern.getLast?.map UInt32.toNat = some (width - 1)

/-- The gapped patterns of two offsets or more are the choices of inner offsets between two ends. -/
theorem isGapped_iff {size width : Nat} (enough : 2 ≤ size) (wide : size ≤ width)
    (word : width ≤ Position.wordLimit) {pattern : List UInt32} :
    IsGapped size width pattern ↔
      ∃ inner ∈ choices (size - 2) (ascending 1 (width - 2)),
        framed (width - 1).toUInt32 inner = pattern := by
  have one : (1 : UInt32).toNat = 1 := rfl
  have ends : (width - 1).toUInt32.toNat = width - 1 := Position.toNat_toUInt32 (by omega)
  have among (x : UInt32) : x ∈ ascending 1 (width - 2) ↔ 0 < x ∧ x < (width - 1).toUInt32 := by
    rw [mem_ascending (by omega), UInt32.lt_iff_toNat_lt, UInt32.lt_iff_toNat_lt, ends]
    simp only [one, UInt32.toNat_zero]
    omega
  have sorted : (ascending 1 (width - 2)).Pairwise (· < ·) := ascending_pairwise (by omega)
  constructor
  · rintro ⟨length, increasing, first, last⟩
    obtain ⟨rest, rfl⟩ : ∃ rest, pattern = 0 :: rest := List.head?_eq_some_iff.mp first
    obtain ⟨inner, z, rfl⟩ : ∃ inner z, rest = inner ++ [z] := by
      rcases List.eq_nil_or_concat' rest with rfl | concat
      · rw [List.length_singleton] at length
        omega
      · exact concat
    have atEnd : z = (width - 1).toUInt32 := by
      rw [← List.cons_append, List.getLast?_concat] at last
      exact UInt32.toNat_inj.mp ((Option.some.inj last).trans ends.symm)
    subst atEnd
    obtain ⟨positive, behind⟩ := List.pairwise_cons.mp increasing
    obtain ⟨innerIncreasing, -, below⟩ := List.pairwise_append.mp behind
    have subset : inner ⊆ ascending 1 (width - 2) := fun x member =>
      (among x).mpr ⟨positive x (List.mem_append_left _ member),
        below x member _ (List.mem_singleton_self _)⟩
    have nodup : inner.Nodup := innerIncreasing.imp UInt32.ne_of_lt
    refine ⟨inner, mem_choices.mpr ⟨?_, ?_⟩, rfl⟩
    · exact List.sublist_of_subperm_of_pairwise (List.subperm_of_subset nodup subset)
        innerIncreasing sorted
    · rw [List.length_cons, List.length_append, List.length_singleton] at length
      omega
  · rintro ⟨inner, chosen, rfl⟩
    obtain ⟨sublist, length⟩ := mem_choices.mp chosen
    have between (x : UInt32) (member : x ∈ inner) : 0 < x ∧ x < (width - 1).toUInt32 :=
      (among x).mp (sublist.subset member)
    refine ⟨?_, ?_, rfl, ?_⟩
    · rw [length_framed]
      omega
    · rw [framed, List.cons_append, List.pairwise_cons, List.pairwise_append]
      refine ⟨?_, sorted.sublist sublist, List.pairwise_singleton _ _, ?_⟩
      · intro x member
        rcases List.mem_append.mp member with inInner | atEnd
        · exact (between x inInner).1
        · obtain rfl := List.mem_singleton.mp atEnd
          rw [UInt32.lt_iff_toNat_lt, ends, UInt32.toNat_zero]
          omega
      · intro x member y atEnd
        obtain rfl := List.mem_singleton.mp atEnd
        exact (between x member).2
    · rw [framed, List.getLast?_concat, Option.map_some, ends]

theorem IsGapped.patternWidth_eq {size width : Nat} {pattern : List UInt32}
    (gapped : IsGapped size width pattern) (positive : 0 < width) :
    patternWidth pattern = width := by
  obtain ⟨last, atEnd, same⟩ := Option.map_eq_some_iff.mp gapped.last
  obtain ⟨before, rfl⟩ := List.getLast?_eq_some_iff.mp atEnd
  have below := (List.pairwise_append.mp gapped.ascending).2.2
  have widest := toNat_lt_patternWidth (List.mem_append_right before (List.mem_singleton_self last))
  have low : ∀ offset ∈ before ++ [last], offset.toNat ≤ width - 1 := by
    intro offset member
    rcases List.mem_append.mp member with earlier | final
    · have less := below offset earlier last (List.mem_singleton_self last)
      rw [UInt32.lt_iff_toNat_lt] at less
      omega
    · rw [List.mem_singleton.mp final, same]
  have narrow := foldl_max_toNat_le.mpr ⟨Nat.zero_le (width - 1), low⟩
  rw [patternWidth] at widest ⊢
  omega

/-- The patterns of the model are all gapped ones of the size and the width, each of them once, in
lexicographic order, and the model knows their width. -/
structure Enumerates (m : Stencil) (size width : Nat) : Prop where
  all : ∀ pattern, pattern ∈ m.patterns ↔ IsGapped size width pattern
  ascending : m.patterns.Pairwise (· < ·)
  width : ∀ k < m.patternCount, m.width? k = some width

theorem ofOffsets_enumerates {size width : Nat} {patterns : List (List UInt32)} (sorted : Bool)
    (positive : 0 < size) (wide : size ≤ width) (nonempty : patterns ≠ [])
    (few : patterns.length ≤ maxPatterns)
    (all : ∀ pattern, pattern ∈ patterns ↔ IsGapped size width pattern)
    (ascending : patterns.Pairwise (· < ·)) :
    ∃ m, ofOffsets size patterns.flatten.toArray sorted = .ok m ∧ m.Enumerates size width := by
  have widths : ∀ pattern ∈ patterns, patternWidth pattern = width := fun pattern member =>
    ((all pattern).mp member).patternWidth_eq (by omega)
  obtain ⟨m, made, rfl⟩ := ofOffsets_flatten sorted positive nonempty few
    (fun pattern member => ((all pattern).mp member).length_eq)
    (fun pattern member => (widths pattern member).symm ▸ wide)
  refine ⟨m, made, all, ascending, fun k inside => ?_⟩
  rw [width?_eq (accepted_of_ofOffsets made), if_pos inside, widthOf,
    widths _ (offsetsOf_mem_patterns inside)]

theorem gapped_eq {size width : Nat} (enough : 2 ≤ size) (wide : size ≤ width)
    (word : width ≤ Position.wordLimit) (sorted : Bool) :
    gapped size width sorted =
      if (width - 2).choose (size - 2) ≤ maxPatterns then
        ofOffsets size ((choices (size - 2) (ascending 1 (width - 2))).map
          (framed (width - 1).toUInt32)).flatten.toArray sorted
      else .error (.tooManyPlacements size width) := by
  have ends : (width - 1).toUInt32.toNat = width - 1 := Position.toNat_toUInt32 (by omega)
  have inner : (size - 2).toUInt32.toNat = size - 2 := Position.toNat_toUInt32 (by omega)
  have largest : ((width - 1).toUInt32 - 1).toNat = width - 2 := by
    have positive : (1 : UInt32) ≤ (width - 1).toUInt32 := by
      rw [UInt32.le_iff_toNat_le, ends, UInt32.toNat_one]
      omega
    rw [UInt32.toNat_sub_of_le _ _ positive, ends, UInt32.toNat_one]
    omega
  have walk : Walk ((width - 1).toUInt32 - 1) (ascending 1 (size - 2))
      (choices (size - 2) (ascending 1 (width - 2))) :=
    walk_choices (by rw [largest]; exact Nat.add_comm ..) (by rw [largest]; omega) (by omega)
  have start : (#[] : Array UInt32).size = 0 * size := (Nat.zero_mul size).symm
  have chosen : (ascending 1 (size - 2)).length + 2 = size := by
    rw [length_ascending]
    omega
  have listed : enumerate size width (width - 1).toUInt32 (ascending 1 (size - 2)) #[] = _ :=
    enumerate_eq walk chosen start
  rw [length_choices, length_ascending, Nat.zero_add] at listed
  rw [gapped, if_neg (by omega), if_neg (by omega), inner]
  simp only [listed]
  split
  · simp [bind, Except.bind]
  · rfl

theorem gapped_one (sorted : Bool) :
    ∃ m, gapped 1 1 sorted = .ok m ∧ m.Enumerates 1 1 := by
  have all : ∀ pattern, pattern ∈ [[0]] ↔ IsGapped 1 1 pattern := by
    intro pattern
    constructor
    · intro member
      obtain rfl := List.mem_singleton.mp member
      exact ⟨rfl, List.pairwise_singleton _ _, rfl, rfl⟩
    · rintro ⟨length, -, first, -⟩
      obtain ⟨x, rfl⟩ := List.length_eq_one_iff.mp length
      rw [Option.some.inj first]
      exact List.mem_singleton_self _
  exact ofOffsets_enumerates sorted Nat.one_pos (Nat.le_refl 1) (List.cons_ne_nil [0] [])
    (by decide) all (List.pairwise_singleton _ _)

theorem gapped_of_choose_le {size width : Nat} (enough : 2 ≤ size) (wide : size ≤ width)
    (word : width ≤ Position.wordLimit) (few : (width - 2).choose (size - 2) ≤ maxPatterns)
    (sorted : Bool) : ∃ m, gapped size width sorted = .ok m ∧ m.Enumerates size width := by
  rw [gapped_eq enough wide word, if_pos few]
  have ascends : (ascending 1 (width - 2)).Pairwise (· < ·) :=
    ascending_pairwise (by rw [UInt32.toNat_one]; omega)
  refine ofOffsets_enumerates sorted (by omega) wide ?_ ?_ ?_ ?_
  · rw [← List.length_pos_iff, List.length_map, length_choices, length_ascending]
    exact Nat.choose_pos (by omega)
  · rwa [List.length_map, length_choices, length_ascending]
  · intro pattern
    rw [isGapped_iff enough wide word, List.mem_map]
  · refine List.pairwise_map.mpr ((choices_pairwise ascends).imp_of_mem ?_)
    intro xs ys inXs inYs less
    exact framed_lt_framed less ((mem_choices.mp inXs).2.trans (mem_choices.mp inYs).2.symm)

/-- There are patterns of the size and the width, and one byte can number them. -/
def Placeable (size width : Nat) : Prop :=
  size = 1 ∧ width = 1 ∨ 2 ≤ size ∧ size ≤ width ∧ (width - 2).choose (size - 2) ≤ maxPatterns

theorem gapped_of_placeable {size width : Nat} (placeable : Placeable size width)
    (word : width ≤ Position.wordLimit) (sorted : Bool) :
    ∃ m, gapped size width sorted = .ok m ∧ m.Enumerates size width := by
  rcases placeable with ⟨rfl, rfl⟩ | ⟨enough, wide, few⟩
  · exact gapped_one sorted
  · exact gapped_of_choose_le enough wide word few sorted

theorem gapped_of_not_placeable {size width : Nat} (outside : ¬ Placeable size width)
    (word : width ≤ Position.wordLimit) (sorted : Bool) :
    ∃ flaw, gapped size width sorted = .error flaw := by
  rw [Placeable] at outside
  by_cases noRoom : size = 0 ∨ width < size
  · exact ⟨_, by rw [gapped, if_pos noRoom]⟩
  · by_cases single : size = 1
    · exact ⟨_, by rw [gapped, if_neg noRoom, if_pos single, if_pos (by omega)]⟩
    · have many : ¬ (width - 2).choose (size - 2) ≤ maxPatterns := by omega
      exact ⟨_, by rw [gapped_eq (by omega) (by omega) word, if_neg many]⟩

/-- A gapped model is made where one byte can number its patterns, and these are all there are. -/
theorem gapped_enumerates (size width : Nat) (sorted : Bool) (word : width ≤ 2 ^ 32) :
    ((∃ m, gapped size width sorted = .ok m) ↔
      size = 1 ∧ width = 1 ∨
        2 ≤ size ∧ size ≤ width ∧ (width - 2).choose (size - 2) ≤ 256) ∧
    ∀ m, gapped size width sorted = .ok m → m.Enumerates size width := by
  by_cases placeable : Placeable size width
  · obtain ⟨m, made, enumerates⟩ := gapped_of_placeable placeable word sorted
    rw [made]
    exact ⟨⟨fun _ => placeable, fun _ => ⟨m, rfl⟩⟩, fun _ same => Except.ok.inj same ▸ enumerates⟩
  · obtain ⟨flaw, refused⟩ := gapped_of_not_placeable placeable word sorted
    rw [refused]
    exact ⟨⟨nofun, fun inside => absurd inside placeable⟩, nofun⟩

/-- Four offsets in a window of six positions: the inner two are chosen from four numbers. -/
theorem gapped_enumerates_four_in_six :
    6 ≤ 2 ^ 32 ∧ ∃ m, gapped 4 6 true = .ok m ∧ m.Enumerates 4 6 ∧
      m.patterns = [[0, 1, 2, 5], [0, 1, 3, 5], [0, 1, 4, 5], [0, 2, 3, 5], [0, 2, 4, 5],
        [0, 3, 4, 5]] := by
  have word : 6 ≤ 2 ^ 32 := by decide
  obtain ⟨m, made⟩ := (gapped_enumerates 4 6 true word).1.mpr (by decide)
  have listed : gapped 4 6 true = .ok
      { size := 4
        offsets := #[0, 1, 2, 5, 0, 1, 3, 5, 0, 1, 4, 5, 0, 2, 3, 5, 0, 2, 4, 5, 0, 3, 4, 5]
        widths := #[6, 6, 6, 6, 6, 6]
        sorted := true } := by cbv
  obtain rfl := Except.ok.inj (made.symm.trans listed)
  exact ⟨word, _, made, (gapped_enumerates 4 6 true word).2 _ made, rfl⟩

end SharedRuns.Stencil
