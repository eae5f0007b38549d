import SharedRuns.Proofs.SuffixSort.Calls
import SharedRuns.Proofs.SuffixSort.Engine

/-!
# A sort keeps to its rows

Every access of a sort to a row is checked, so a sort that comes to an end has kept to its rows.
This module says more of each call that a search makes, directly or through other calls
(`SortPlan.KeepsToRows`): which numbers it uses as indices, that the suffixes are the positions with
room for all columns, each once, before and after each of its steps, and that the words in which it
adds up counts hold the sums themselves. All of it follows from what the call relies on
(`SortPlan.InBounds`).
-/

namespace SharedRuns

namespace SortPlan

open Checked

/-- A row of words holds the values of a function below `count`; no value is too large for a
word. -/
structure HoldsWords (row : Array UInt32) (count : Nat) (f : Nat → Nat) : Prop where
  size : row.size = count
  entry : ∀ k < count, ∃ word, fetch row k = .ok word ∧ word.toNat = f k

/-- Each suffix of an arranged row has a key in the column, and it is below the size of the
alphabet. -/
def ReadsKeys (p : SortPlan) (column : Nat) : Prop :=
  ∀ row, p.Arranged row → ∀ i < p.suffixCount, ∃ s key, fetch row i = .ok s ∧
    p.keyAt s column = .ok key ∧ key.toNat < p.keyTable.alphabet

/-- Insertion into the range behind `before` makes exchanges only, and goes through arranged
rows. -/
structure InsertsInside (p : SortPlan) (column : Nat) (before range : List UInt32)
    (rows : SortRows) : Prop where
  exchanged : ∀ row, p.Arranged row → ∀ j, j + 1 < p.suffixCount →
    ∃ next, exchange row (j + 1) j = .ok next ∧ p.Arranged next
  sunk : ∀ row, p.Arranged row → ∀ key, ∀ j < p.suffixCount,
    ∃ next, p.sink column key before.length j row = .ok next ∧ p.Arranged next
  inserted : ∀ n ≤ range.length, ∃ next,
    p.insertionSort column before.length (before.length + n) rows.suffixes = .ok next ∧
      p.Arranged next
  split : ∃ next ranges,
    p.splitShort column before.length (before.length + range.length) rows = .ok (next, ranges) ∧
      p.Arranged next.suffixes

/-- Counting reads the keys of the range into `keyRow` and counts them in `kept`, the row of the
column, which is new or has a place for each key; they are `sizes` then. The counts of the first
suffixes, the places where the buckets start and the slots after the first suffixes were scattered
are held by words, and each suffix is scattered into a slot inside the range. The loop over the keys
ends where the range does. -/
structure CountsInside (p : SortPlan) (left column : Nat) (before range : List UInt32)
    (rows : SortRows) (keyRow kept sizes : Array UInt32) : Prop where
  read : p.readKeys column before.length (before.length + range.length) rows.suffixes
    rows.keyRow = .ok keyRow
  size : keyRow.size = p.suffixCount
  keys : ∀ i, ∀ h : i < range.length, ∃ key, fetch keyRow (before.length + i) = .ok key ∧
    key.toNat = p.keyNat column range[i] ∧ key.toNat < p.keyTable.alphabet
  row : fetch (withColumn column rows.counts) column = .ok kept
  keptSize : kept.size = 0 ∨ kept.size = p.keyTable.alphabet
  counted : ∀ n ≤ range.length, ∃ counts,
    countKeys before.length (before.length + n) keyRow (p.clearRow kept) = .ok counts ∧
      HoldsWords counts p.keyTable.alphabet fun k =>
        (bucket (p.keyNat column) (range.take n) k).length
  all : countKeys before.length (before.length + range.length) keyRow (p.clearRow kept) =
    .ok sizes
  starts : HoldsWords (slots sizes) p.keyTable.alphabet (bucketStart (p.keyNat column) range)
  total : bucketStart (p.keyNat column) range p.keyTable.alphabet = range.length
  few : range.length < Position.wordLimit
  scattered : ∀ n ≤ range.length, ∃ taken buffer,
    (span before.length (before.length + n)).foldlM (scatterStep rows.suffixes keyRow)
        (slots sizes, rows.buffer) = .ok (taken, buffer) ∧
      buffer.size = p.suffixCount ∧
      HoldsWords taken p.keyTable.alphabet fun k =>
        bucketStart (p.keyNat column) range k +
          (bucket (p.keyNat column) (range.take n) k).length
  slot_lt : ∀ n, ∀ h : n < range.length,
    bucketStart (p.keyNat column) range (p.keyNat column range[n]) +
      (bucket (p.keyNat column) (range.take n) (p.keyNat column range[n])).length < range.length
  looped : ∃ sorted next,
    p.countingSort column before.length (before.length + range.length) rows = .ok sorted ∧
      p.Arranged sorted.suffixes ∧
      (List.range p.keyTable.alphabet).foldlM (p.sortBucket left column) (sorted, before.length) =
        .ok (next, before.length + range.length)

/-- Each suffix of the range is a position of the tape, and where the window that it starts lies in
one text, it has the place of a symbol of that text. -/
def ReportsInside (p : SortPlan) (range : List UInt32) : Prop :=
  ∀ s ∈ range, s.toNat < p.tape.size ∧ ∃ lodged, p.tape.lodging s.toNat p.depth = .ok lodged ∧
    ∀ place, lodged = some place → p.tape.place? s.toNat = .ok (some place) ∧
      p.tape.owner s.toNat = some place.text ∧ ∃ text, fetch p.tape.texts place.text = .ok text

/-- A call for the range between `before` and `after` has what it relies on, keeps to its rows
whichever way it sorts the range, and comes to an end with an arranged row. -/
structure KeepsToRows (p : SortPlan) (call : SortCall) (before range after : List UInt32) :
    Prop where
  bounds : p.InBounds call
  layout : call.rows.suffixes = (before ++ range ++ after).toArray
  first : before.length = call.min
  last : before.length + range.length = call.max
  keys : call.column < p.depth → p.ReadsKeys call.column
  insertion : call.column < p.depth → p.InsertsInside call.column before range call.rows
  counting : ∀ left, call.left = left + 1 →
    ∃ keyRow kept sizes, p.CountsInside left call.column before range call.rows keyRow kept sizes
  reporting : p.ReportsInside range
  ended : ∃ next, p.sortColumns call.left call.column call.min call.max call.rows = .ok next ∧
    p.Arranged next.suffixes

variable {p : SortPlan} {left column : Nat} {before range after : List UInt32} {rows : SortRows}

theorem holdsWords_tabulate {count : Nat} {f : Nat → Nat}
    (small : ∀ k < count, f k < Position.wordLimit) :
    HoldsWords (tabulate count fun k => (f k).toUInt32) count f where
  size := size_tabulate
  entry k inside := ⟨_, fetch_tabulate inside, Position.toNat_toUInt32 (small k inside)⟩

theorem readsKeys (ready : p.Ready) (inside : column < p.depth) : p.ReadsKeys column := by
  intro row arranged i below
  have present : i < row.size := arranged.size_eq.symm ▸ below
  have candidate := arranged.candidate (Array.getElem_mem present)
  exact ⟨_, _, fetch_of_lt present, keyAt_of_candidate ready inside candidate,
    keyNat_lt ready inside candidate⟩

theorem Arranged.exchange {row : Array UInt32} (arranged : p.Arranged row) {i j : Nat}
    (hi : i < p.suffixCount) (hj : j < p.suffixCount) :
    ∃ next, Checked.exchange row i j = .ok next ∧ p.Arranged next := by
  rw [← arranged.size_eq] at hi hj
  exact ⟨_, exchange_of_lt hi hj, arranged.of_perm (Array.swap_perm hi hj).toList⟩

theorem Arranged.sink (ready : p.Ready) (inside : column < p.depth) {row : Array UInt32}
    (arranged : p.Arranged row) (key : UInt32) (min : Nat) {j : Nat} (below : j < p.suffixCount) :
    ∃ next, p.sink column key min j row = .ok next ∧ p.Arranged next := by
  induction j generalizing row with
  | zero => exact ⟨row, rfl, arranged⟩
  | succ j ih =>
      have earlier : j < p.suffixCount := Nat.lt_of_succ_lt below
      obtain ⟨s, other, fetched, read, -⟩ := readsKeys ready inside row arranged j earlier
      obtain ⟨exchanged, swapped, still⟩ := arranged.exchange below earlier
      obtain ⟨next, sunk, arrangedNext⟩ := ih still earlier
      rw [SortPlan.sink, fetched, ok_bind, read, ok_bind, swapped, ok_bind, sunk, pure_eq_ok]
      split
      · exact ⟨row, rfl, arranged⟩
      · split
        · exact ⟨next, rfl, arrangedNext⟩
        · exact ⟨row, rfl, arranged⟩

theorem insertsInside (ready : p.Ready) (inside : column < p.depth)
    (arranged : p.Arranged rows.suffixes)
    (layout : rows.suffixes = (before ++ range ++ after).toArray) :
    p.InsertsInside column before range rows := by
  refine ⟨fun row arranged j below => arranged.exchange below (Nat.lt_of_succ_lt below),
    fun row arranged key j below => arranged.sink ready inside key _ below,
    fun n fits => ?_, ?_⟩
  · -- The rest of the range stands behind what was inserted, like everything that follows it.
    have parts : rows.suffixes =
        (before ++ range.take n ++ (range.drop n ++ after)).toArray := by
      rw [layout, ← List.append_assoc, List.append_assoc before (range.take n),
        List.take_append_drop]
    have inserted := insertionSort_append ready inside before (range.take n)
      (range.drop n ++ after) fun s member => arranged.candidate_of_layout parts member
    rw [List.length_take_of_le fits, ← parts] at inserted
    exact ⟨_, inserted, arranged_sortedRow ready inside arranged parts⟩
  · obtain ⟨suffixes, buffer, keyRow, counts, found⟩ := rows
    obtain rfl : suffixes = _ := layout
    exact ⟨_, _, splitShort_append ready inside before range after
      (fun s member => arranged.candidate_of_layout rfl member) buffer keyRow counts found,
      arranged_sortedRow ready inside arranged rfl⟩

/-- The next suffix is scattered into a slot inside the range. -/
theorem slot_lt {key : UInt32 → Nat} {count : Nat} {done rest : List UInt32} {s : UInt32}
    (below : ∀ t ∈ done ++ s :: rest, key t < count) :
    bucketStart key (done ++ s :: rest) (key s) + (bucket key done (key s)).length <
      (done ++ s :: rest).length := by
  have fits := bucketStart_add_le below (below s (by simp))
  have here : (bucket key (done ++ s :: rest) (key s)).length =
      (bucket key done (key s)).length + ((bucket key rest (key s)).length + 1) := by
    rw [bucket_append, bucket_cons_self, List.length_append, List.length_cons]
  omega

/-- The slots after some suffixes were scattered are no larger than the range. -/
theorem holdsWords_slotsAfter {done rest : List UInt32}
    (few : (done ++ rest).length < Position.wordLimit)
    (below : ∀ s ∈ done ++ rest, p.keyNat column s < p.keyTable.alphabet) :
    HoldsWords (p.slotsAfter column (done ++ rest) done) p.keyTable.alphabet fun k =>
      bucketStart (p.keyNat column) (done ++ rest) k +
        (bucket (p.keyNat column) done k).length := by
  refine holdsWords_tabulate fun k inside => ?_
  have fits := bucketStart_add_le below inside
  have parts : (bucket (p.keyNat column) (done ++ rest) k).length =
      (bucket (p.keyNat column) done k).length + (bucket (p.keyNat column) rest k).length := by
    rw [bucket_append, List.length_append]
  omega

theorem holdsWords_tally {done rest : List UInt32}
    (few : (done ++ rest).length < Position.wordLimit) :
    HoldsWords (p.tally column done) p.keyTable.alphabet fun k =>
      (bucket (p.keyNat column) done k).length := by
  refine holdsWords_tabulate fun k _ => ?_
  have sublist : (bucket (p.keyNat column) done k).length ≤ done.length := List.length_filter_le ..
  rw [List.length_append] at few
  omega

theorem countsInside (ready : p.Ready) (inside : column < p.depth)
    (sorts : p.Sorts left (column + 1)) (fits : p.Fits rows) (arranged : p.Arranged rows.suffixes)
    (layout : rows.suffixes = (before ++ range ++ after).toArray) :
    ∃ keyRow kept sizes, p.CountsInside left column before range rows keyRow kept sizes := by
  have candidates : ∀ s ∈ range, p.Candidate s := fun s member =>
    arranged.candidate_of_layout layout member
  have below : ∀ s ∈ range, p.keyNat column s < p.keyTable.alphabet :=
    fun s member => keyNat_lt ready inside (candidates s member)
  have few := fits.length_lt ready layout
  have size := fits.suffixes
  rw [layout] at size
  simp only [List.size_toArray, List.length_append] at size
  have split : ∀ n ≤ range.length, ∃ done rest, range = done ++ rest ∧ n = done.length :=
    fun n inRange => ⟨_, _, (List.take_append_drop n range).symm,
      (List.length_take_of_le inRange).symm⟩
  have roomInKeys : before.length + range.length ≤ rows.keyRow.size := by
    rw [fits.keyRow]
    omega
  have roomInBuffer : range.length ≤ rows.buffer.size := by
    rw [fits.buffer]
    omega
  obtain ⟨keysBefore, keysAfter, aligned, keysSize, read⟩ :=
    readKeys_append ready inside before range after candidates roomInKeys
  rw [← layout] at read
  obtain ⟨kept, -, row, keptSize, -⟩ :=
    store_withColumn fits.counts column (size_tally column range)
  have cleared := clearRow_eq keptSize
  refine ⟨_, kept, p.tally column range, read, keysSize.trans fits.keyRow, ?keys, row, keptSize,
    ?counted, ?all, ?starts, length_bucketSort below, few, ?scattered, ?slot_lt, ?looped⟩
  case keys =>
    intro i h
    have key : fetch (keysBefore ++ range.map (p.keyOf column) ++ keysAfter).toArray
        (before.length + i) = .ok (p.keyOf column range[i]) := by
      rw [fetch_middle aligned.symm (by simpa using h), List.getElem_map]
    exact ⟨_, key, toNat_keyOf, below _ (List.getElem_mem h)⟩
  case counted =>
    intro n inRange
    obtain ⟨done, rest, rfl, rfl⟩ := split n inRange
    have counted := countKeys_append ready inside keysBefore
      (rest.map (p.keyOf column) ++ keysAfter)
      fun s member => candidates s (List.mem_append_left rest member)
    rw [aligned, ← cleared] at counted
    rw [List.take_left]
    exact ⟨_, by simpa using counted, holdsWords_tally few⟩
  case all =>
    have counted := countKeys_append ready inside keysBefore keysAfter candidates
    rwa [aligned, ← cleared] at counted
  case starts =>
    rw [slots_tally_eq]
    exact @holdsWords_slotsAfter p column [] range few below
  case scattered =>
    intro n inRange
    obtain ⟨done, rest, rfl, rfl⟩ := split n inRange
    obtain ⟨behind, next, scattered, nextSize, -⟩ :=
      foldlM_scatterStep after keysAfter aligned few below roomInBuffer
    rw [List.take_left, layout]
    exact ⟨_, next, scattered, nextSize.trans fits.buffer, holdsWords_slotsAfter few below⟩
  case slot_lt =>
    intro n h
    obtain ⟨done, rest, rfl, rfl⟩ := split n (Nat.le_of_lt h)
    cases rest with
    | nil => simp at h
    | cons s rest => simpa using slot_lt below
  case looped =>
    obtain ⟨sorted, ran, sortedLayout, here, progress⟩ :=
      countingSort_ok ready inside candidates fits layout
    obtain ⟨-, next, -, looped, -, -, -⟩ := sortBuckets_ok sorts few candidates
      (List.range p.keyTable.alphabet) (fun k member => List.mem_range.mp member) before after
      sorted here (fits.of_progress progress) sortedLayout
    refine ⟨sorted, next, ran, ?_, ?_⟩
    · rw [sortedLayout]
      exact arranged_sortedRow ready inside arranged layout
    · rw [looped]
      have length := length_bucketSort below
      rw [bucketSort] at length
      rw [length]

theorem reportsInside {texts : List Text} (laid : p.tape.LaidOut texts)
    (candidates : ∀ s ∈ range, p.Candidate s) : p.ReportsInside range := by
  intro s member
  have candidate : s.toNat + p.depth < p.tape.size := candidates s member
  refine ⟨by omega, _, Tape.lodging_of_lt candidate laid.size_lt, fun place lodged => ?_⟩
  obtain ⟨placed, -⟩ := Option.filter_eq_some_iff.mp lodged
  obtain ⟨t, number, inText, position⟩ := laid.placeAt_eq_some.mp placed
  refine ⟨laid.place?_eq_some.mpr ⟨t, number, inText, position⟩, ?_, t, laid.fetch_text number⟩
  rw [Tape.owner_eq, placed, Option.map_some]

/-- A call that comes to an end keeps to its rows. -/
theorem InBounds.keepsToRows {texts : List Text} (laid : p.tape.LaidOut texts) (ready : p.Ready)
    {call : SortCall} (bounds : p.InBounds call) (ends : p.Ends call) :
    ∃ before range after, p.KeepsToRows call before range after := by
  have columns := bounds.columns
  have arranged := bounds.arranged
  obtain ⟨before, range, after, layout, first, last⟩ := bounds.exists_range
  have candidates : ∀ s ∈ range, p.Candidate s := fun s member =>
    arranged.candidate_of_layout layout member
  obtain ⟨sorted, next, ran, perm, nextLayout, -⟩ := sortColumns_sorts laid ready _ _ columns before
    range after call.rows candidates bounds.fits layout
  refine ⟨before, range, after, ⟨bounds, layout, first, last, readsKeys ready,
    fun inside => insertsInside ready inside arranged layout, fun left more => ?_,
    reportsInside laid candidates, ?_⟩⟩
  · rw [more] at columns
    exact countsInside ready (by omega) (sortColumns_sorts laid ready left _ (by omega)) bounds.fits
      arranged layout
  · obtain ⟨rows, ended⟩ := ends
    rw [last, first] at ran
    obtain rfl := Except.ok.inj (ran.symm.trans ended)
    exact ⟨next, ended, nextLayout ▸ arranged.replace layout perm⟩

end SortPlan

namespace SuffixEngine

open Checked

/-- The call with which a search starts: all columns of all positions in their order. -/
def firstCall (engine : SuffixEngine) : SortCall where
  left := engine.plan.depth
  column := 0
  min := 0
  max := engine.plan.suffixCount
  rows :=
    { engine.rows with
      suffixes := (Array.range engine.plan.suffixCount).map Nat.toUInt32
      found := #[] }

theorem search_eq_firstCall (engine : SuffixEngine) :
    engine.search = do
      let rows ← engine.plan.sortColumns engine.firstCall.left engine.firstCall.column
        engine.firstCall.min engine.firstCall.max engine.firstCall.rows
      return (rows.found.toList, { engine with rows }) := rfl

/-- A search of the one engine leaves the other one. -/
def Leaves (engine next : SuffixEngine) : Prop := ∃ found, engine.search = .ok (found, next)

theorem Serves.inBounds {engine : SuffixEngine} {texts : List Text} (serves : engine.Serves texts) :
    engine.plan.InBounds engine.firstCall where
  columns := Nat.zero_add _
  ordered := Nat.zero_le _
  inside := Nat.le_refl _
  arranged := SortPlan.arranged_range serves.laid.size_lt
  buffer := serves.buffer
  keyRow := serves.keyRow
  counts := serves.counts

/-- The first call of a search that comes to an end comes to an end, and so do all calls that follow
from it. -/
theorem Leaves.ends_of_reaches {engine next : SuffixEngine} (leaves : engine.Leaves next)
    {call : SortCall} (reaches : Relation.ReflTransGen engine.plan.Makes engine.firstCall call) :
    engine.plan.Ends call := by
  obtain ⟨found, searched⟩ := leaves
  rw [search_eq_firstCall] at searched
  obtain ⟨rows, ran, -⟩ := exists_of_bind_ok searched
  have first : engine.plan.Ends engine.firstCall := ⟨rows, ran⟩
  exact first.of_reaches reaches

theorem serves_of_leaves {engine used : SuffixEngine} {texts : List Text}
    (serves : engine.Serves texts) (searches : Relation.ReflTransGen Leaves engine used) :
    used.plan = engine.plan ∧ used.Serves texts := by
  induction searches with
  | refl => exact ⟨rfl, serves⟩
  | tail _ leaves ih =>
      obtain ⟨same, servesNow⟩ := ih
      obtain ⟨found, ran⟩ := leaves
      obtain ⟨next, searched, plan, servesNext⟩ := search_ok servesNow
      obtain ⟨-, rfl⟩ := Prod.mk.inj (Except.ok.inj (searched.symm.trans ran))
      exact ⟨plan.trans same, servesNext⟩

/-- However often an engine was searched, its next search comes to an end, and every call that the
search makes keeps to its rows. -/
theorem calls_keep_to_rows {texts : List Text} {tape : Tape} (made : Tape.ofTexts texts = .ok tape)
    {depth : Nat} (positive : 0 < depth) :
    ∃ engine, create tape depth = .ok engine ∧ ∀ used, Relation.ReflTransGen Leaves engine used →
      used.plan = { tape, depth, keyTable := .ofTape tape } ∧
        (∃ next, used.Leaves next) ∧
        ∀ call, Relation.ReflTransGen used.plan.Makes used.firstCall call →
          ∃ before range after, used.plan.KeepsToRows call before range after := by
  obtain ⟨engine, created, -, serves⟩ := create_serves (Tape.laidOut_of_ofTexts made) positive
  refine ⟨engine, created, fun used searches => ?_⟩
  obtain ⟨same, servesNow⟩ := serves_of_leaves serves searches
  obtain ⟨next, searched, -, -⟩ := search_ok servesNow
  obtain ⟨rank, embeds⟩ := servesNow.embeds
  have ready := SortPlan.ready_of_embeds servesNow.laid embeds
  have leaves : used.Leaves next := ⟨_, searched⟩
  refine ⟨same.trans (plan_of_create created), ⟨next, leaves⟩, fun call reaches => ?_⟩
  have bounds := servesNow.inBounds.of_reaches servesNow.laid ready reaches
  exact bounds.keepsToRows servesNow.laid ready (leaves.ends_of_reaches reaches)

/-- Two columns lead to the two windows of one content, which are then reported. -/
theorem calls_keep_to_rows_of_one_pair :
    let t : Text := { id := "first", symbols := #[7, 3, 7] }
    let u : Text := { id := "second", symbols := #[3, 7] }
    let tape : Tape :=
      { texts := #[t, u]
        cells := #[⟨7, some ⟨0, 0⟩⟩, ⟨3, some ⟨0, 1⟩⟩, ⟨7, some ⟨0, 2⟩⟩, Tape.boundary Tape.barrier,
          ⟨3, some ⟨1, 0⟩⟩, ⟨7, some ⟨1, 1⟩⟩, Tape.boundary Tape.barrier,
          Tape.boundary Tape.sentinel] }
    let plan : SortPlan := { tape, depth := 2, keyTable := .ofTape tape }
    let blank : Array UInt32 := #[0, 0, 0, 0, 0, 0]
    let sorted : SortRows := ⟨#[3, 1, 4, 0, 2, 5], blank, blank, #[], #[]⟩
    Tape.ofTexts [t, u] = .ok tape ∧ 0 < 2 ∧
      create tape 2 = .ok ⟨plan, ⟨#[], blank, blank, #[], #[]⟩⟩ ∧
      ∃ before range after, plan.KeepsToRows ⟨0, 2, 1, 3, sorted⟩ before range after := by
  intro t u tape plan blank sorted
  have made : Tape.ofTexts [t, u] = .ok tape := by rfl
  obtain ⟨engine, created, kept⟩ := calls_keep_to_rows made Nat.two_pos
  obtain rfl : ⟨plan, ⟨#[], blank, blank, #[], #[]⟩⟩ = engine := Except.ok.inj created
  have byFirst : plan.splitShort 0 0 6 ⟨#[0, 1, 2, 3, 4, 5], blank, blank, #[], #[]⟩ =
      .ok (sorted, [] ++ [(1, 3), (3, 6)]) := by cbv
  have bySecond : plan.splitShort 1 1 3 sorted = .ok (sorted, [] ++ [(1, 3)]) := by cbv
  have first : plan.Makes ⟨2, 0, 0, 6, ⟨#[0, 1, 2, 3, 4, 5], blank, blank, #[], #[]⟩⟩
      ⟨1, 1, 1, 3, sorted⟩ := .insertion (by decide) (by decide) byFirst rfl
  have second : plan.Makes ⟨1, 1, 1, 3, sorted⟩ ⟨0, 2, 1, 3, sorted⟩ :=
    .insertion (by decide) (by decide) bySecond rfl
  have start : firstCall ⟨plan, ⟨#[], blank, blank, #[], #[]⟩⟩ =
      ⟨2, 0, 0, 6, ⟨#[0, 1, 2, 3, 4, 5], blank, blank, #[], #[]⟩⟩ := by cbv
  obtain ⟨-, -, keeps⟩ := kept _ .refl
  rw [start] at keeps
  exact ⟨made, Nat.two_pos, created, keeps _ ((Relation.ReflTransGen.single first).tail second)⟩

end SuffixEngine

end SharedRuns
