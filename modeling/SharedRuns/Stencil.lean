import SharedRuns.Basic

/-!
# Stencil models

A pattern is a list of offsets from a common start. A stencil model is a list of patterns with
equally many offsets each; sampling a text under a pattern gives the symbols at its offsets. In a
sorted model every sample is put in order, so that samples are compared as multisets.

The offsets of all patterns are stored back to back, and the width of a pattern, its largest
offset and one, is stored beside it. A pattern fits at a start if its width does, and then it can be
sampled there.

A gapped model has every pattern of `size` increasing offsets that starts at 0 and ends at
`width - 1`, in lexicographic order. The inner offsets of such a pattern are a combination of the
numbers between its ends; `advance` goes from one combination to the next. Offsets are words of 32
bits, and so is the last one: of a wider window only the low bits of `width - 1` are kept.
-/

namespace SharedRuns

/-- Why offsets do not form a model, or why no model has the wanted width. -/
inductive StencilFlaw where
  /-- A pattern would have no offsets. -/
  | noSize
  /-- The offsets are not a whole number of patterns. -/
  | uneven (offsets size : Nat)
  /-- There are more patterns than one byte can number. -/
  | tooManyPatterns (patterns : Nat)
  /-- A pattern has more offsets than positions. -/
  | narrow (pattern width size : Nat)
  /-- A window has no room for the samples. -/
  | noRoom (size width : Nat)
  /-- One sample was asked to span more than one position. -/
  | singleSample (width : Nat)
  /-- A window has room for more patterns than one byte can number. -/
  | tooManyPlacements (size width : Nat)
  deriving DecidableEq

/-- The number of patterns that one byte can number. -/
def maxPatterns : Nat := 256

/-- The wording of a flaw. -/
def StencilFlaw.message : StencilFlaw → String
  | .noSize => "stencil size must be positive"
  | .uneven offsets size =>
    toString offsets ++ " offsets do not split into patterns of " ++ toString size
  | .tooManyPatterns patterns =>
    toString patterns ++ " patterns, at most " ++ toString maxPatterns ++ " are addressable"
  | .narrow pattern width size =>
    "pattern " ++ toString pattern ++ " spans " ++ toString width ++ " positions but samples " ++
      toString size
  | .noRoom size width =>
    "cannot place " ++ toString size ++ " samples in a window of " ++ toString width
  | .singleSample width => "a single sample cannot span a window of " ++ toString width
  | .tooManyPlacements size width =>
    "size " ++ toString size ++ " in width " ++ toString width ++ " yields more than " ++
      toString maxPatterns ++ " patterns"

/-- The fault of a flawed model. -/
def StencilFlaw.fault (flaw : StencilFlaw) : Fault := .badStencil flaw.message

/-- A list of patterns of `size` offsets each. -/
structure Stencil where
  size : Nat
  /-- The offsets of the patterns, back to back. -/
  offsets : Array UInt32
  /-- The width of each pattern. -/
  widths : Array Nat
  /-- Whether samples are put in order. -/
  sorted : Bool
  deriving DecidableEq

namespace Stencil

/-- The number of positions that a pattern spans. -/
def patternWidth (pattern : List UInt32) : Nat :=
  (pattern.foldl (fun widest offset => max widest offset.toNat) 0) + 1

/-- `xs` cut into `count` lists of `size` entries. -/
def cut (size : Nat) : (count : Nat) → List α → List (List α)
  | 0, _ => []
  | count + 1, xs => xs.take size :: cut size count (xs.drop size)

/-- The model whose patterns are given back to back, `size` offsets each. -/
def ofOffsets (size : Nat) (offsets : Array UInt32) (sorted : Bool) :
    Except StencilFlaw Stencil :=
  if size = 0 then .error .noSize
  else if offsets.isEmpty ∨ offsets.size % size ≠ 0 then .error (.uneven offsets.size size)
  else
    let count := offsets.size / size
    if maxPatterns < count then .error (.tooManyPatterns count)
    else
      let widths := (cut size count offsets.toList).map patternWidth
      match widths.zipIdx.find? (fun w => w.1 < size) with
      | some (width, pattern) => .error (.narrow pattern width size)
      | none => .ok { size, offsets, widths := widths.toArray, sorted }

/-- The model of one pattern without gaps. -/
def contiguous (length : Nat) : Except StencilFlaw Stencil :=
  ofOffsets length ((Array.range length).map Nat.toUInt32) false

/-- The number of patterns. -/
def patternCount (m : Stencil) : Nat := m.widths.size

/-- The width of the widest pattern. -/
def widest (m : Stencil) : Nat := m.widths.foldl max 0

/-- The offsets of a pattern. -/
def pattern? (m : Stencil) (pattern : Nat) : Option (Array UInt32) :=
  slice? m.offsets (Position.mul pattern m.size) (Position.mul (pattern + 1) m.size)

/-- The width of a pattern. -/
def width? (m : Stencil) (pattern : Nat) : Option Nat := m.widths[pattern]?

/-- A sample as it is compared: in order, if the model says so. -/
def arrange (m : Stencil) (sample : List UInt32) : List UInt32 :=
  if m.sorted then sample.mergeSort (fun x y => decide (x ≤ y)) else sample

/-- The symbols under a pattern placed at `start`, arranged; none if one of them is not there. -/
def sample? (m : Stencil) (symbols : Array Symbol) (start pattern : Nat) :
    Option (List Symbol) := do
  let offsets ← m.pattern? pattern
  let sample ← offsets.toList.mapM fun offset => symbols[Position.add start offset.toNat]?
  return m.arrange sample

/-- A pattern at a start where it fits. -/
structure Placement where
  start : Nat
  pattern : Nat
  width : Nat
  deriving DecidableEq

/-- The patterns that fit at `start` in a list of `size` symbols. -/
def placementsAt (m : Stencil) (size start : Nat) : List Placement :=
  m.widths.toList.zipIdx.filterMap fun (width, pattern) =>
    if Window.fits start width size then some { start, pattern, width } else none

/-- All placements in a list of `size` symbols, by start and then by pattern. -/
def placements (m : Stencil) (size : Nat) : List Placement :=
  (List.range size).flatMap (m.placementsAt size)

/-- The `count` words from `first` on. -/
def ascending (first : UInt32) : (count : Nat) → List UInt32
  | 0 => []
  | count + 1 => first :: ascending (first + 1) count

/-- The next increasing combination of numbers up to `largest`; none after the last one. The entry
furthest to the right that has room moves up by one, and those behind it follow closely. -/
def advance (largest : UInt32) : List UInt32 → Option (List UInt32)
  | [] => none
  | x :: rest =>
    match advance largest rest with
    | some rest => some (x :: rest)
    | none =>
      if x < largest - rest.length.toUInt32 then some (ascending (x + 1) (rest.length + 1))
      else none

/-- The offsets in `found`, then the patterns from the one with inner offsets `inner` on. -/
def enumerate (size width : Nat) (last : UInt32) (inner : List UInt32) (found : Array UInt32) :
    Except StencilFlaw (Array UInt32) :=
  if maxPatterns * size ≤ found.size then .error (.tooManyPlacements size width)
  else
    let extended := found ++ (0 :: inner ++ [last]).toArray
    match advance (last - 1) inner with
    | some next => enumerate size width last next extended
    | none => .ok extended
termination_by maxPatterns * size - found.size
decreasing_by
  simp only [Array.size_append, List.size_toArray, List.length_append, List.length_cons]
  omega

/-- The model of all patterns with `size` offsets in a window of `width` positions. -/
def gapped (size width : Nat) (sorted : Bool) : Except StencilFlaw Stencil :=
  if size = 0 ∨ width < size then .error (.noRoom size width)
  else if size = 1 then
    if width ≠ 1 then .error (.singleSample width) else ofOffsets 1 #[0] sorted
  else do
    let last := (width - 1).toUInt32
    let inner := ascending 1 (size - 2).toUInt32.toNat
    let offsets ← enumerate size width last inner #[]
    ofOffsets size offsets sorted

end Stencil

end SharedRuns
