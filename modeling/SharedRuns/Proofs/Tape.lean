import SharedRuns.Proofs.Checked
import SharedRuns.Proofs.Match.Windows
import SharedRuns.Tape

/-!
# Where the texts of a tape lie

A tape of texts is laid out block by block, and a position is found in a block by the number of the
text and an offset (`LaidOut.placeAt_eq_some`). The positions from which on a window stays inside a
text are in order the windows of the texts (`LaidOut.filterMap_side?`).
-/

namespace SharedRuns.Tape

/-- The cells of texts numbered from `first` on, each text with its barrier. -/
def layout (first : Nat) (texts : List Text) : List Cell :=
  (texts.zipIdx first).flatMap fun (t, number) => block t number

/-- The position at which a text starts, given its number. -/
def blockStart : List Text → Nat → Nat
  | _, 0 => 0
  | [], _ + 1 => 0
  | t :: rest, number + 1 => t.size + 1 + blockStart rest number

@[simp] theorem blockStart_zero (texts : List Text) : blockStart texts 0 = 0 := by
  cases texts <;> rfl

@[simp] theorem length_block (t : Text) (number : Nat) : (block t number).length = t.size + 1 := by
  simp [block, Text.size]

theorem getElem?_block {t : Text} {number i : Nat} {cell : Cell} :
    (block t number)[i]? = some cell ↔
      (∃ h : i < t.size, cell = { symbol := t.symbols[i], place := some ⟨number, i⟩ }) ∨
        i = t.size ∧ cell = boundary barrier := by
  rw [block, List.getElem?_append]
  by_cases inside : i < t.size
  · have different : i ≠ t.size := Nat.ne_of_lt inside
    have present : i < t.symbols.size := inside
    simp only [List.length_map, List.length_zipIdx, Array.length_toList, if_pos present]
    simp only [List.getElem?_map, List.getElem?_zipIdx, Array.getElem?_toList, Nat.zero_add,
      Array.getElem?_eq_getElem present, Option.map_some, Option.some.injEq]
    constructor
    · intro same
      exact .inl ⟨inside, same.symm⟩
    · rintro (⟨_, same⟩ | ⟨atEnd, _⟩)
      · exact same.symm
      · exact absurd atEnd different
  · have absent : ¬ i < t.symbols.size := inside
    simp only [List.length_map, List.length_zipIdx, Array.length_toList, if_neg absent]
    rw [List.getElem?_singleton]
    constructor
    · intro found
      split at found
      · next atEnd =>
          have small : i ≤ t.size := Nat.sub_eq_zero_iff_le.mp atEnd
          have same : i = t.size := Nat.le_antisymm small (Nat.not_lt.mp inside)
          exact .inr ⟨same, (Option.some.inj found).symm⟩
      · simp at found
    · rintro (⟨less, _⟩ | ⟨rfl, rfl⟩)
      · exact absurd less inside
      · simp [Text.size]

@[simp] theorem layout_cons (first : Nat) (t : Text) (rest : List Text) :
    layout first (t :: rest) = block t first ++ layout (first + 1) rest := by
  simp [layout, List.zipIdx_cons]

theorem length_layout (first : Nat) (texts : List Text) :
    (layout first texts).length = blockStart texts texts.length := by
  induction texts generalizing first with
  | nil => rfl
  | cons t rest ih => rw [layout_cons, List.length_append, length_block, ih, List.length_cons,
      blockStart]

theorem cellCount_eq (texts : List Text) : cellCount texts = blockStart texts texts.length + 1 := by
  induction texts with
  | nil => rfl
  | cons t rest ih =>
      rw [cellCount] at ih ⊢
      rw [List.foldr_cons, ih, List.length_cons, blockStart, ← Nat.add_assoc]

theorem getElem?_layout {first pos : Nat} {texts : List Text} {cell : Cell} :
    (layout first texts)[pos]? = some cell ↔
      ∃ n t i, texts[n]? = some t ∧ pos = blockStart texts n + i ∧
        (block t (first + n))[i]? = some cell := by
  induction texts generalizing first pos with
  | nil => simp [layout]
  | cons t rest ih =>
      rw [layout_cons, List.getElem?_append, length_block]
      constructor
      · intro found
        split at found
        · exact ⟨0, t, pos, rfl, by simp, found⟩
        · obtain ⟨n, u, i, number, place, inBlock⟩ := ih.mp found
          refine ⟨n + 1, u, i, number, ?_, ?_⟩
          · rw [blockStart]
            omega
          · rw [← Nat.add_assoc, Nat.add_right_comm]
            exact inBlock
      · rintro ⟨_ | n, u, i, number, rfl, inBlock⟩
        · obtain rfl : t = u := by simpa using number
          have inside : i < t.size + 1 := by
            rw [← length_block t first]
            exact (List.getElem?_eq_some_iff.mp inBlock).1
          rw [blockStart_zero, Nat.zero_add, if_pos inside]
          exact inBlock
        · rw [blockStart, if_neg (by omega)]
          refine ih.mpr ⟨n, u, i, number, by omega, ?_⟩
          rw [Nat.add_assoc, Nat.add_comm 1]
          exact inBlock

theorem blockStart_succ {texts : List Text} {n : Nat} {t : Text} (number : texts[n]? = some t) :
    blockStart texts (n + 1) = blockStart texts n + (t.size + 1) := by
  induction texts generalizing n with
  | nil => simp at number
  | cons u rest ih =>
      cases n with
      | zero =>
          obtain rfl : u = t := by simpa using number
          simp [blockStart]
      | succ n =>
          rw [blockStart, blockStart, ih (by simpa using number), ← Nat.add_assoc]

theorem blockStart_lt {texts : List Text} {m n : Nat} {t : Text} (number : texts[m]? = some t)
    (later : m < n) (present : n ≤ texts.length) :
    blockStart texts m + t.size < blockStart texts n := by
  induction texts generalizing m n with
  | nil => simp at number
  | cons u rest ih =>
      obtain _ | n := n
      · exact absurd later (Nat.not_lt_zero m)
      · obtain _ | m := m
        · obtain rfl : u = t := by simpa using number
          rw [blockStart_zero, blockStart]
          omega
        · have := ih (by simpa using number) (Nat.lt_of_succ_lt_succ later) (by simpa using present)
          rw [blockStart, blockStart]
          omega

/-- Places with barriers counted in are ordered like their positions. -/
theorem blockStart_add_lt_iff {texts : List Text} {m n i j : Nat} {t u : Text}
    (numberT : texts[m]? = some t) (insideT : i ≤ t.size) (numberU : texts[n]? = some u)
    (insideU : j ≤ u.size) :
    blockStart texts m + i < blockStart texts n + j ↔ m < n ∨ m = n ∧ i < j := by
  have presentT := (List.getElem?_eq_some_iff.mp numberT).1
  have presentU := (List.getElem?_eq_some_iff.mp numberU).1
  rcases Nat.lt_trichotomy m n with less | rfl | greater
  · have := blockStart_lt numberT less (Nat.le_of_lt presentU)
    omega
  · omega
  · have := blockStart_lt numberU greater (Nat.le_of_lt presentT)
    omega

theorem blockStart_inj {texts : List Text} {m n i j : Nat} {t u : Text}
    (numberT : texts[m]? = some t) (insideT : i ≤ t.size) (numberU : texts[n]? = some u)
    (insideU : j ≤ u.size) (same : blockStart texts m + i = blockStart texts n + j) :
    m = n ∧ i = j := by
  have first := blockStart_add_lt_iff numberT insideT numberU insideU
  have second := blockStart_add_lt_iff numberU insideU numberT insideT
  omega

/-- The place of a position, where there is a cell that has one. -/
def placeAt (tape : Tape) (pos : Nat) : Option Place := tape.cells[pos]?.bind Cell.place

/-- The tape is that of the texts, and its positions are words. -/
structure LaidOut (tape : Tape) (texts : List Text) : Prop where
  texts_eq : tape.texts = texts.toArray
  cells_eq : tape.cells = (layout 0 texts ++ [boundary sentinel]).toArray
  size_lt : tape.size < Position.wordLimit

variable {tape : Tape} {texts : List Text}

theorem laidOut_of_ofTexts (made : ofTexts texts = .ok tape) : tape.LaidOut texts := by
  rw [ofTexts] at made
  split at made
  · simp at made
  · split at made
    · simp at made
    · next few =>
        obtain rfl := Except.ok.inj made
        refine ⟨rfl, rfl, ?_⟩
        show (layout 0 texts ++ [boundary sentinel]).toArray.size < _
        rw [cellCount_eq, limit] at few
        rw [List.size_toArray, List.length_append, length_layout, List.length_singleton,
          Position.wordLimit]
        omega

namespace LaidOut

theorem size_eq (laid : tape.LaidOut texts) : tape.size = blockStart texts texts.length + 1 := by
  rw [size, laid.cells_eq, List.size_toArray, List.length_append, length_layout,
    List.length_singleton]

/-- A cell is one of a text's block or the sentinel. -/
theorem getElem?_cells_iff (laid : tape.LaidOut texts) {pos : Nat} {cell : Cell} :
    tape.cells[pos]? = some cell ↔
      (∃ n t i, texts[n]? = some t ∧ pos = blockStart texts n + i ∧ (block t n)[i]? = some cell) ∨
        pos = blockStart texts texts.length ∧ cell = boundary sentinel := by
  have inLayout : (layout 0 texts)[pos]? = some cell ↔
      ∃ n t i, texts[n]? = some t ∧ pos = blockStart texts n + i ∧ (block t n)[i]? = some cell := by
    simp only [getElem?_layout, Nat.zero_add]
  rw [laid.cells_eq, List.getElem?_toArray, ← inLayout]
  by_cases before : pos < (layout 0 texts).length
  · rw [List.getElem?_append_left before]
    rw [length_layout] at before
    exact ⟨.inl, fun found => found.resolve_right fun last => by omega⟩
  · rw [List.getElem?_append_right (Nat.le_of_not_lt before), List.getElem?_singleton,
      List.getElem?_eq_none (Nat.le_of_not_lt before)]
    rw [length_layout] at before ⊢
    grind

theorem getElem?_cells (laid : tape.LaidOut texts) {n i : Nat} {t : Text}
    (number : texts[n]? = some t) (inside : i < t.size) :
    tape.cells[blockStart texts n + i]? =
      some { symbol := t.symbols[i], place := some ⟨n, i⟩ } :=
  laid.getElem?_cells_iff.mpr
    (.inl ⟨n, t, i, number, rfl, getElem?_block.mpr (.inl ⟨inside, rfl⟩)⟩)

/-- A position has a place exactly if it lies in a text, behind the start of its block. -/
theorem placeAt_eq_some (laid : tape.LaidOut texts) {pos : Nat} {place : Place} :
    tape.placeAt pos = some place ↔
      ∃ t, texts[place.text]? = some t ∧ place.offset < t.size ∧
        pos = blockStart texts place.text + place.offset := by
  constructor
  · intro placed
    obtain ⟨cell, found, isPlace⟩ := Option.bind_eq_some_iff.mp placed
    obtain ⟨n, t, i, number, rfl, inBlock⟩ | ⟨-, rfl⟩ := laid.getElem?_cells_iff.mp found
    · obtain ⟨inside, rfl⟩ | ⟨-, rfl⟩ := getElem?_block.mp inBlock
      · obtain rfl := Option.some.inj isPlace
        exact ⟨t, number, inside, rfl⟩
      · cases isPlace
    · cases isPlace
  · rintro ⟨t, number, inside, rfl⟩
    rw [placeAt, laid.getElem?_cells number inside, Option.bind_some]

theorem fetch_text (laid : tape.LaidOut texts) {n : Nat} {t : Text} (number : texts[n]? = some t) :
    Checked.fetch tape.texts n = .ok t := by
  rw [Checked.fetch, laid.texts_eq, List.getElem?_toArray, number]
  rfl

theorem symbols_getElem? (laid : tape.LaidOut texts) {n i : Nat} {t : Text}
    (number : texts[n]? = some t) (inside : i < t.size) :
    tape.symbols[blockStart texts n + i]? = some t.symbols[i] := by
  rw [symbols, Array.getElem?_map, laid.getElem?_cells number inside, Option.map_some]

end LaidOut

/-- The place of `pos` if `width` positions from there on belong to one text. -/
def lodging? (tape : Tape) (pos width : Nat) : Option Place :=
  (tape.placeAt pos).filter fun place =>
    0 < width ∧ tape.owner (pos + width - 1) = some place.text

/-- The window of `width` symbols that starts at `pos`, if it lies in one text. -/
def side? (tape : Tape) (width pos : Nat) : Option Side := do
  let place ← tape.lodging? pos width
  let text ← tape.texts[place.text]?
  return { text, offset := place.offset, len := width }

theorem owner_eq (pos : Nat) : tape.owner pos = (tape.placeAt pos).map Place.text := by
  rw [owner, placeAt]
  cases tape.cells[pos]? with
  | none => rfl
  | some cell => cases h : cell.place <;> simp [h]

/-- On the tape no access fails; the last position of the window is added up as words are. -/
theorem lodging_of_mem {pos width : Nat} (inside : pos < tape.size) :
    tape.lodging pos width = .ok ((tape.placeAt pos).filter fun place =>
      0 < width ∧ tape.owner ((pos + width - 1) % Position.space) = some place.text) := by
  have present : pos < tape.cells.size := inside
  rw [lodging, place?, Checked.fetch_of_lt present, placeAt, Array.getElem?_eq_getElem present]
  cases placed : tape.cells[pos].place with
  | none => simp [placed]
  | some place => simp [placed, Option.filter_some]

/-- Where the window ends on the tape, nothing wraps around. -/
theorem lodging_of_lt {pos width : Nat} (inside : pos + width < tape.size)
    (few : tape.size < Position.wordLimit) :
    tape.lodging pos width = .ok (tape.lodging? pos width) := by
  have noWrap : (pos + width - 1) % Position.space = pos + width - 1 := by
    rw [Nat.mod_eq_of_lt]
    rw [Position.wordLimit, UInt32.size] at few
    rw [Position.space, UInt64.size]
    omega
  rw [lodging_of_mem (by omega), noWrap, lodging?]

theorem filterMap_range_of_none {f : Nat → Option α} {count total : Nat} (le : count ≤ total)
    (none : ∀ i, count ≤ i → f i = none) :
    (List.range total).filterMap f = (List.range count).filterMap f := by
  obtain ⟨more, rfl⟩ := Nat.exists_eq_add_of_le le
  have others : ((List.range more).map (count + ·)).filterMap f = [] := by
    rw [List.filterMap_map, List.filterMap_eq_nil_iff]
    intro i _
    exact none _ (Nat.le_add_right count i)
  rw [List.range_add, List.filterMap_append, others, List.append_nil]

namespace LaidOut

theorem side?_of_lodging (laid : tape.LaidOut texts) {width pos : Nat} {place : Place}
    (lodged : tape.lodging? pos width = some place) :
    ∃ t, texts[place.text]? = some t ∧
      tape.side? width pos = some { text := t, offset := place.offset, len := width } := by
  obtain ⟨placed, -⟩ := Option.filter_eq_some_iff.mp lodged
  obtain ⟨t, number, -, -⟩ := laid.placeAt_eq_some.mp placed
  refine ⟨t, number, ?_⟩
  simp [side?, lodged, laid.texts_eq, number]

/-- The windows on the tape are those that lie in a text. -/
theorem side?_eq_some (laid : tape.LaidOut texts) {width pos : Nat} (positive : 0 < width)
    {s : Side} :
    tape.side? width pos = some s ↔
      ∃ n t i, texts[n]? = some t ∧ pos = blockStart texts n + i ∧ i + width ≤ t.size ∧
        s = { text := t, offset := i, len := width } := by
  simp only [side?, lodging?, Option.bind_eq_bind, Option.bind_eq_some_iff,
    Option.filter_eq_some_iff, decide_eq_true_eq, owner_eq, Option.map_eq_some_iff,
    laid.placeAt_eq_some, laid.texts_eq, List.getElem?_toArray, Option.pure_def,
    Option.some.injEq]
  constructor
  · rintro ⟨⟨n, i⟩, ⟨⟨t, number, inside, rfl⟩, -, ⟨_, j⟩, ⟨u, numberU, insideU, last⟩, rfl⟩, v,
      numberV, rfl⟩
    obtain rfl : t = v := Option.some.inj (number.symm.trans numberV)
    obtain rfl : t = u := Option.some.inj (number.symm.trans numberU)
    simp only at inside insideU last
    exact ⟨_, t, i, number, rfl, by omega, rfl⟩
  · rintro ⟨n, t, i, number, rfl, fits, rfl⟩
    have starts : i < t.size := by omega
    have ends : i + width - 1 < t.size := by omega
    have last : blockStart texts n + i + width - 1 = blockStart texts n + (i + width - 1) := by
      omega
    exact ⟨⟨n, i⟩, ⟨⟨t, number, starts, rfl⟩, positive, ⟨n, i + width - 1⟩,
      ⟨t, number, ends, last⟩, rfl⟩, t, number, rfl⟩

theorem side?_block (laid : tape.LaidOut texts) {width : Nat} (positive : 0 < width) {n : Nat}
    {t : Text} (number : texts[n]? = some t) {i : Nat} (inside : i ≤ t.size) :
    tape.side? width (blockStart texts n + i) =
      if i + width ≤ t.size then some { text := t, offset := i, len := width } else none := by
  split
  · next fits => exact (laid.side?_eq_some positive).mpr ⟨n, t, i, number, rfl, fits, rfl⟩
  · next beyond =>
      rw [Option.eq_none_iff_forall_ne_some]
      intro s found
      obtain ⟨m, u, j, numberU, same, fits, -⟩ := (laid.side?_eq_some positive).mp found
      obtain ⟨rfl, rfl⟩ := blockStart_inj number inside numberU (by omega) same
      obtain rfl : t = u := Option.some.inj (number.symm.trans numberU)
      exact beyond fits

theorem filterMap_side?_block (laid : tape.LaidOut texts) {width : Nat} (positive : 0 < width)
    {n : Nat} {t : Text} (number : texts[n]? = some t) :
    (List.range (t.size + 1)).filterMap (fun i => tape.side? width (blockStart texts n + i)) =
      t.windows width := by
  have inside : ∀ i ∈ List.range (t.size + 1), tape.side? width (blockStart texts n + i) =
      if i + width ≤ t.size then some { text := t, offset := i, len := width } else none :=
    fun i member => laid.side?_block positive number (Nat.lt_succ_iff.mp (List.mem_range.mp member))
  rw [List.filterMap_congr inside]
  rw [filterMap_range_of_none (Nat.sub_le (t.size + 1) width)]
  · rw [Text.windows, Text.starts, ← List.filterMap_eq_map]
    apply List.filterMap_congr
    intro i member
    rw [if_pos]
    · rfl
    · rw [List.mem_range] at member
      omega
  · intro i above
    rw [if_neg (by omega)]

/-- A window on the tape holds the symbols of its text. -/
theorem getElem?_run (laid : tape.LaidOut texts) {width pos : Nat} (positive : 0 < width) {s : Side}
    (found : tape.side? width pos = some s) :
    s.run.length = width ∧ ∀ c < width, s.run[c]? = tape.symbols[pos + c]? := by
  obtain ⟨n, t, i, number, rfl, fits, rfl⟩ := (laid.side?_eq_some positive).mp found
  refine ⟨Text.length_run fits, fun c inside => ?_⟩
  have present : i + c < t.size := by omega
  rw [Side.run, Text.getElem?_run fits inside, Nat.add_assoc,
    laid.symbols_getElem? number present, Array.getElem?_eq_getElem present]

theorem mem_symbols_of_mem_run (laid : tape.LaidOut texts) {width pos : Nat} (positive : 0 < width)
    {s : Side} (found : tape.side? width pos = some s) {x : Symbol} (member : x ∈ s.run) :
    x ∈ tape.symbols := by
  obtain ⟨length, entries⟩ := laid.getElem?_run positive found
  obtain ⟨c, inside, rfl⟩ := List.getElem_of_mem member
  have entry := entries c (length ▸ inside)
  rw [List.getElem?_eq_getElem inside] at entry
  exact Array.mem_of_getElem? entry.symm

/-- The windows on the tape, in the order of their positions, are the windows of the texts. -/
theorem filterMap_side? (laid : tape.LaidOut texts) {width : Nat} (positive : 0 < width) :
    (List.range (tape.size - width)).filterMap (tape.side? width) = windows texts width := by
  have blocks : ∀ n ≤ texts.length,
      (List.range (blockStart texts n)).filterMap (tape.side? width) =
        windows (texts.take n) width := by
    intro n
    induction n with
    | zero => simp [windows]
    | succ n ih =>
        intro present
        have number := List.getElem?_eq_getElem present
        have block := laid.filterMap_side?_block positive number
        rw [blockStart_succ number, List.range_add, List.filterMap_append, List.filterMap_map,
          ih (Nat.le_of_succ_le present), List.take_add_one, number, Option.toList_some,
          windows_append, windows_singleton, ← block]
        rfl
  have all := blocks texts.length (Nat.le_refl _)
  rw [List.take_length] at all
  rw [← all]
  -- The positions before the sentinel that leave no room have no windows.
  refine (filterMap_range_of_none (by rw [laid.size_eq]; omega) fun pos above => ?_).symm
  rw [Option.eq_none_iff_forall_ne_some]
  intro s found
  obtain ⟨n, t, i, number, rfl, fits, -⟩ := (laid.side?_eq_some positive).mp found
  have present := (List.getElem?_eq_some_iff.mp number).1
  have before := blockStart_lt number present (Nat.le_refl _)
  rw [laid.size_eq] at above
  omega

end LaidOut

end SharedRuns.Tape
