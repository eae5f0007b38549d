import SharedRuns.Match.Basic
import SharedRuns.Tape

/-!
# Sorting the suffixes of a tape

A tape is sorted by keys that are ordered like its symbols. A small alphabet is its own keys. A
large and sparse one is replaced by ranks, the rank of a symbol being the number of smaller symbols
that occur, which keeps the number of keys within the number of cells.

A suffix is named by the position where it starts. Suffixes are sorted by their first `depth` keys,
one column of keys after another: sorting a range of suffixes by one column splits it into ranges
that agree on that column, and each of them with at least two suffixes is sorted by the next one. A
range that is left after the last column holds suffixes that begin with the same `depth` symbols,
and all pairs in it whose windows stay inside two texts of different names are reported.

A short range is sorted by insertion, a longer one by counting its keys. Both sorts are stable, so
that inside a range suffixes stay in the order of the tape.

A suffix engine keeps its rows from one search to the next; each search starts again from the
positions in their order, and so reports the same.
-/

namespace SharedRuns

/-- A key for each position of a tape; all keys are below `alphabet`. -/
structure TapeKeys where
  keys : Array UInt32
  alphabet : Nat

namespace TapeKeys

/-- Symbols below this number are used as keys whatever the size of the tape. -/
def directLimit : Nat := UInt16.size

/-- The first index in `low, …, low + count - 1` whose entry is not below `x`, or `low + count`, for
entries in ascending order. -/
def lowerBound (sorted : Array UInt32) (x : UInt32) (low count : Nat) : Nat :=
  if count = 0 then low
  else
    let half := count / 2
    match sorted[low + half]? with
    | none => low
    | some entry =>
      if entry < x then lowerBound sorted x (low + half + 1) (count - half - 1)
      else lowerBound sorted x low half
termination_by count
decreasing_by all_goals omega

/-- The different symbols in ascending order. -/
def distinct (symbols : Array Symbol) : Array Symbol :=
  ((symbols.toList.mergeSort fun x y => decide (x ≤ y)).eraseReps).toArray

/-- The symbols themselves as keys. -/
def direct (tape : Tape) : TapeKeys where
  keys := tape.symbols
  alphabet := tape.maximum.toNat + 1

/-- The ranks of the symbols as keys. -/
def ranked (tape : Tape) : TapeKeys :=
  let sorted := distinct tape.symbols
  { keys := tape.symbols.map fun x => (lowerBound sorted x 0 sorted.size).toUInt32
    alphabet := sorted.size }

/-- The keys of a tape: its symbols, unless there are too many that do not occur. -/
def ofTape (tape : Tape) : TapeKeys :=
  let count := tape.maximum.toNat + 1
  if count ≤ directLimit ∨ count ≤ tape.size then direct tape else ranked tape

end TapeKeys

/-- What a sort reads: the tape, its keys and the number of columns. -/
structure SortPlan where
  tape : Tape
  depth : Nat
  keyTable : TapeKeys
  /-- The length up to which ranges are sorted by insertion. -/
  insertionLimit : Nat := 32

/-- The rows that a sort works in, and the matches it has found. -/
structure SortRows where
  suffixes : Array UInt32
  /-- Receives the suffixes of a range in their new order. -/
  buffer : Array UInt32
  /-- The keys of the range that is being sorted. -/
  keyRow : Array UInt32
  /-- For each column the number of suffixes with each key, in the range last counted there. -/
  counts : Array (Array UInt32)
  found : Array Match

namespace SortPlan

open Checked

/-- The number of positions that leave room for `depth` symbols. -/
def suffixCount (p : SortPlan) : Nat := p.tape.size - p.depth

/-- The key of a suffix in a column. -/
def keyAt (p : SortPlan) (suffix : UInt32) (column : Nat) : Except Fault UInt32 :=
  fetch p.keyTable.keys (suffix.toNat + column)

/-- Moves the suffix at `j`, with key `key`, before all suffixes from `min` on with larger keys. -/
def sink (p : SortPlan) (column : Nat) (key : UInt32) (min : Nat) :
    (j : Nat) → Array UInt32 → Except Fault (Array UInt32)
  | 0, row => return row
  | j + 1, row => do
    if j + 1 ≤ min then return row
    else if key < (← p.keyAt (← fetch row j) column) then
      p.sink column key min j (← exchange row (j + 1) j)
    else return row

/-- Sorts the suffixes in a range by the keys of a column. -/
def insertionSort (p : SortPlan) (column min max : Nat) (row : Array UInt32) :
    Except Fault (Array UInt32) :=
  (span (min + 1) max).foldlM (fun row i => do
    let key ← p.keyAt (← fetch row i) column
    p.sink column key min i row) row

/-- The keys of the suffixes in a range. -/
def rangeKeys (p : SortPlan) (column min max : Nat) (row : Array UInt32) :
    Except Fault (List UInt32) :=
  (span min max).mapM fun i => do p.keyAt (← fetch row i) column

/-- The runs of at least two equal entries, as the ranges of their indices; the run at `start` has
`count` entries `key` already. -/
def runsFrom (start count : Nat) (key : UInt32) : List UInt32 → List (Nat × Nat)
  | [] => if 1 < count then [(start, start + count)] else []
  | next :: rest =>
    if next = key then runsFrom start (count + 1) key rest
    else if 1 < count then (start, start + count) :: runsFrom (start + count) 1 next rest
    else runsFrom (start + count) 1 next rest

/-- The runs of at least two equal entries in a list whose first index is `start`. -/
def runs (start : Nat) : List UInt32 → List (Nat × Nat)
  | [] => []
  | key :: rest => runsFrom start 1 key rest

/-- Writes the keys of the suffixes in a range into `keyRow`. -/
def readKeys (p : SortPlan) (column min max : Nat) (row keyRow : Array UInt32) :
    Except Fault (Array UInt32) :=
  (span min max).foldlM (fun keyRow i => do
    store keyRow i (← p.keyAt (← fetch row i) column)) keyRow

/-- The rows of counts with one for each column up to `column`. -/
def withColumn (column : Nat) (all : Array (Array UInt32)) : Array (Array UInt32) :=
  all ++ Array.replicate (column + 1 - all.size) #[]

/-- The row of a column, cleared. A row in which keys were counted before is filled with zeros, and
a new one gets a zero for each key. -/
def clearRow (p : SortPlan) (row : Array UInt32) : Array UInt32 :=
  if row.isEmpty then Array.replicate p.keyTable.alphabet 0 else row.map fun _ => 0

/-- Adds to `counts` the number of times that each key occurs in a range. -/
def countKeys (min max : Nat) (keyRow counts : Array UInt32) : Except Fault (Array UInt32) :=
  (span min max).foldlM (fun counts i => do
    let key := (← fetch keyRow i).toNat
    store counts key ((← fetch counts key) + 1)) counts

/-- For each key the number of suffixes with smaller keys: where the first suffix with it goes. -/
def slots (counts : Array UInt32) : Array UInt32 :=
  (counts.foldl (fun (slots, sum) count => (slots.push sum, sum + count)) (#[], (0 : UInt32))).1

/-- Writes the suffixes of a range into `buffer`, ordered by their keys. -/
def scatter (min max : Nat) (row keyRow slots buffer : Array UInt32) :
    Except Fault (Array UInt32) := do
  let (_, buffer) ← (span min max).foldlM (fun (slots, buffer) i => do
    let key := (← fetch keyRow i).toNat
    let slot ← fetch slots key
    let buffer ← store buffer slot.toNat (← fetch row i)
    return (← store slots key (slot + 1), buffer)) (slots, buffer)
  return buffer

/-- Copies the front of `buffer` back into the range. -/
def copyBack (min max : Nat) (buffer row : Array UInt32) : Except Fault (Array UInt32) :=
  (span 0 (max - min)).foldlM (fun row i => do store row (min + i) (← fetch buffer i)) row

/-- Sorts the suffixes in a range by the keys of a column, and keeps how often each key occurs. -/
def countingSort (p : SortPlan) (column min max : Nat) :
    SortRows → Except Fault SortRows
  | { suffixes, buffer, keyRow, counts, found } => do
    let keyRow ← p.readKeys column min max suffixes keyRow
    let counts := withColumn column counts
    let occurrences ← countKeys min max keyRow (p.clearRow (← fetch counts column))
    let buffer ← scatter min max suffixes keyRow (slots occurrences) buffer
    let suffixes ← copyBack min max buffer suffixes
    let counts ← store counts column occurrences
    return { suffixes, buffer, keyRow, counts, found }

/-- Adds the match of two suffixes, the first of which starts at `place₁` in `text₁`, if the second
one's window lies inside a text of another name. -/
def reportPair (p : SortPlan) (place₁ : Place) (text₁ : Text) (found : Array Match)
    (suffix : UInt32) : Except Fault (Array Match) := do
  match ← p.tape.lodging suffix.toNat p.depth with
  | none => return found
  | some place₂ =>
    if place₂.text = place₁.text then return found
    else
      let text₂ ← fetch p.tape.texts place₂.text
      return if text₁.SameId text₂ then found
        else found.push
          { a := { text := text₁, offset := place₁.offset, len := p.depth }
            b := { text := text₂, offset := place₂.offset, len := p.depth } }

/-- Adds the matches of all pairs of suffixes, by the first suffix and then by the second. -/
def reportPairs (p : SortPlan) : List UInt32 → Array Match → Except Fault (Array Match)
  | [], found => return found
  | suffix :: rest, found => do
    match ← p.tape.lodging suffix.toNat p.depth with
    | none => p.reportPairs rest found
    | some place =>
      let text ← fetch p.tape.texts place.text
      p.reportPairs rest (← rest.foldlM (p.reportPair place text) found)

/-- Adds the matches of the suffixes in a range. -/
def reportRange (p : SortPlan) (min max : Nat) :
    SortRows → Except Fault SortRows
  | { suffixes, buffer, keyRow, counts, found } => do
    let range ← Fault.within (slice? suffixes min max)
    let found ← p.reportPairs range.toList found
    return { suffixes, buffer, keyRow, counts, found }

/-- Sorts the short range by a column: the rows, and the ranges that remain to be sorted. -/
def splitShort (p : SortPlan) (column min max : Nat) :
    SortRows → Except Fault (SortRows × List (Nat × Nat))
  | { suffixes, buffer, keyRow, counts, found } => do
    let suffixes ← p.insertionSort column min max suffixes
    let keys ← p.rangeKeys column min max suffixes
    return ({ suffixes, buffer, keyRow, counts, found }, runs min keys)

/-- Sorts the suffixes in a range by the columns from `column` on, of which there are `left`, and
reports what agrees on all of them. -/
def sortColumns (p : SortPlan) :
    (left column min max : Nat) → SortRows → Except Fault SortRows
  | left, column, min, max, rows =>
    if max - min < 2 then return rows
    else match left with
      | 0 => p.reportRange min max rows
      | left + 1 =>
        if max - min ≤ p.insertionLimit then do
          let (rows, ranges) ← p.splitShort column min max rows
          ranges.foldlM (fun rows (start, stop) => p.sortColumns left (column + 1) start stop rows)
            rows
        else do
          let rows ← p.countingSort column min max rows
          let (rows, _) ← (List.range p.keyTable.alphabet).foldlM (fun (rows, start) key => do
            let count := (← fetch (← fetch rows.counts column) key).toNat
            if 1 < count then
              return (← p.sortColumns left (column + 1) start (start + count) rows, start + count)
            else return (rows, start + count)) (rows, min)
          return rows

end SortPlan

/-- A plan and the rows to carry it out in. -/
structure SuffixEngine where
  plan : SortPlan
  rows : SortRows

namespace SuffixEngine

/-- The engine of a tape for windows of `depth` symbols. -/
def create (tape : Tape) (depth : Nat) : Except Fault SuffixEngine :=
  if depth = 0 then .error .zeroLength
  else
    let plan : SortPlan := { tape, depth, keyTable := .ofTape tape }
    .ok
      { plan
        rows :=
          { suffixes := #[]
            buffer := Array.replicate plan.suffixCount 0
            keyRow := Array.replicate plan.suffixCount 0
            counts := #[]
            found := #[] } }

/-- The matches, in ascending order of their symbols and then in the order of the tape, and the
engine for further searches. -/
def search : SuffixEngine → Except Fault (List Match × SuffixEngine)
  | { plan, rows := { suffixes := _, buffer, keyRow, counts, found := _ } } => do
    let suffixes := (Array.range plan.suffixCount).map Nat.toUInt32
    let rows ← plan.sortColumns plan.depth 0 0 plan.suffixCount
      { suffixes, buffer, keyRow, counts, found := #[] }
    return (rows.found.toList, { plan, rows })

/-- The matches between the texts of a list. -/
def searchTexts (texts : List Text) (depth : Nat) : Except Fault (List Match) := do
  let tape ← Tape.ofTexts texts
  let engine ← create tape depth
  return (← engine.search).1

end SuffixEngine

end SharedRuns
