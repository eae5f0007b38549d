import SharedRuns.Basic

/-!
# Texts, their spans and their fingerprints

A fingerprint is a word of 32 bits computed from a run of symbols. Each symbol is mixed alone
(`mix`), absorbed into a running state (`absorb`), and the last state is avalanched. Every step
is invertible in each of its arguments, so runs of one length that differ in exactly one place
have different fingerprints. A corpus that is sampled often mixes each symbol once and fingerprints
the mixed values with `ofMixed`; `ofMixed_map_mix` says that this gives the same word.

A span says which characters of the source a symbol stands for. The spans of a text are given one
per symbol, in reading order: each covers at least one character, ends at an offset that a word of
32 bits can hold, and starts at or after the end of the one before it. `Span.check` tests this for
whole lists and names the first violation as a `SpanFlaw`.

A text is a list of symbols under a name. The name alone decides whether two texts are the same one:
engines never match a text with another of its name, and texts are ordered by name. Character
spans are optional; a text that has any has one for each symbol. Where texts are laid out one after
another, a position of the layout stands for a place: a text, known by its number, and an offset
in it.
-/

namespace SharedRuns

namespace Fingerprint

/-- The state before the first symbol. -/
def seed : UInt32 := 0x0bcaa747

/-- Rotation of a word towards its high end, for `0 < count < 32`. -/
def rotate (word count : UInt32) : UInt32 := (word <<< count) ||| (word >>> (32 - count))

/-- The mixed form of one symbol. -/
def mix (symbol : UInt32) : UInt32 := rotate (symbol * 0xcc9e2d51) 15 * 0x1b873593

/-- The running state after one more mixed symbol. -/
def absorb (state mixed : UInt32) : UInt32 := rotate (state ^^^ mixed) 13 * 5 + 0xe6546b64

/-- `word` with its high bits, shifted by `count`, folded onto its low ones. -/
def foldHigh (word count : UInt32) : UInt32 := word ^^^ (word >>> count)

/-- The last step, which lets every bit of the state reach every bit of the fingerprint. -/
def avalanche (state : UInt32) : UInt32 :=
  foldHigh (foldHigh (foldHigh state 16 * 0x85ebca6b) 13 * 0xc2b2ae35) 16

/-- The fingerprint of values that are already mixed. -/
def ofMixed (mixed : List UInt32) : UInt32 := avalanche (mixed.foldl absorb seed)

/-- The fingerprint of a run from a state of one's own choice. -/
def seeded (state : UInt32) (run : List Symbol) : UInt32 :=
  avalanche (run.foldl (fun s x => absorb s (mix x)) state)

/-- The fingerprint of a run. -/
def ofRun (run : List Symbol) : UInt32 := seeded seed run

end Fingerprint

/-- The characters `offset, …, offset + length - 1`. -/
structure Span where
  offset : UInt32
  length : UInt8
  deriving DecidableEq

/-- What is wrong with a list of spans, or with one that is to be appended. -/
inductive SpanFlaw where
  /-- The offsets and the lengths do not pair up. -/
  | unpaired (offsets lengths : Nat)
  /-- There is not one span for each symbol. -/
  | miscounted (spans symbols : Nat)
  /-- A span covers no character. -/
  | empty (index : Nat)
  /-- A span ends beyond the offsets of 32 bits. -/
  | overflow (index : Nat) (offset : UInt32)
  /-- A span starts before the one ahead of it ends. -/
  | overlap (index stop : Nat) (next : UInt32)
  /-- An appended symbol covers no character. -/
  | emptyAppended (index : Nat) (offset : UInt32)
  /-- An appended symbol starts before the one ahead of it ends. -/
  | precedes (offset : UInt32) (stop : Nat)
  /-- An appended symbol ends beyond the offsets of 32 bits. -/
  | overflowAppended (offset : UInt32)
  deriving DecidableEq

/-- The wording of a flaw. -/
def SpanFlaw.message : SpanFlaw → String
  | .unpaired offsets lengths =>
    toString offsets ++ " offsets but " ++ toString lengths ++ " lengths"
  | .miscounted spans symbols =>
    toString spans ++ " spans for " ++ toString symbols ++ " symbols"
  | .empty index => "span " ++ toString index ++ " has zero length"
  | .overflow index offset =>
    "span " ++ toString index ++ " at " ++ toString offset ++ " overflows the offset range"
  | .overlap index stop next =>
    "span " ++ toString index ++ " ends at " ++ toString stop ++ " after span " ++
      toString (index + 1) ++ " starts at " ++ toString next
  | .emptyAppended index offset =>
    "symbol " ++ toString index ++ " at offset " ++ toString offset ++ " has zero length"
  | .precedes offset stop =>
    "offset " ++ toString offset ++ " precedes end of previous span " ++ toString stop
  | .overflowAppended offset => "span at " ++ toString offset ++ " overflows the offset range"

namespace Span

/-- The offset just after the span. -/
def stop (s : Span) : Nat := s.offset.toNat + s.length.toNat

/-- The offset just after the span, as a word. -/
def endChar (s : Span) : UInt32 := s.offset + s.length.toUInt32

/-- Whether the end of the span is an offset of 32 bits. -/
def Representable (s : Span) : Prop := s.stop < Position.wordLimit

instance (s : Span) : Decidable s.Representable := inferInstanceAs (Decidable (_ < _))

/-- The first overlap of two spans that follow one another, the first span numbered `index`. -/
def findOverlap (index : Nat) : List Span → Option SpanFlaw
  | first :: next :: rest =>
    if next.offset.toNat < first.stop then some (.overlap index first.stop next.offset)
    else findOverlap (index + 1) (next :: rest)
  | _ => none

/-- The spans made of `offsets` and `lengths`, if they are spans for `size` symbols or there are
none at all. Of several violations the kind that is listed first in `SpanFlaw` is reported, and of
one kind the one at the smallest index. -/
def check (size : Nat) (offsets : Array UInt32) (lengths : Array UInt8) :
    Except SpanFlaw (Array Span) :=
  let spans := offsets.zipWith Span.mk lengths
  if offsets.size ≠ lengths.size then .error (.unpaired offsets.size lengths.size)
  else if offsets.size ≠ 0 ∧ offsets.size ≠ size then .error (.miscounted offsets.size size)
  else match spans.findIdx? (·.length = 0) with
    | some index => .error (.empty index)
    | none => match spans.toList.zipIdx.find? (fun s => ¬ s.1.Representable) with
      | some (s, index) => .error (.overflow index s.offset)
      | none => match findOverlap 0 spans.toList with
        | some flaw => .error flaw
        | none => .ok spans

end Span

/-- A named list of symbols, with optional spans and bytes that only the caller understands. -/
structure Text where
  id : String
  symbols : Array Symbol
  spans : Array Span := #[]
  metadata : List UInt8 := []

namespace Text

/-- The text without symbols that stands in where there is none. -/
def empty : Text := { id := "null", symbols := #[] }

/-- A text with spans, or without if both lists are empty. -/
def ofSpans (id : String) (symbols : Array Symbol) (offsets : Array UInt32)
    (lengths : Array UInt8) (metadata : List UInt8) : Except SpanFlaw Text := do
  let spans ← Span.check symbols.size offsets lengths
  return { id, symbols, spans, metadata }

/-- The number of symbols. -/
def size (t : Text) : Nat := t.symbols.size

/-- Whether the text has spans. -/
def hasSpans (t : Text) : Bool := !t.spans.isEmpty

/-- Whether two texts count as the same one. -/
def SameId (t u : Text) : Prop := t.id = u.id

instance (t u : Text) : Decidable (t.SameId u) := inferInstanceAs (Decidable (_ = _))

/-- The order of two texts, which is that of their names. -/
def order (t u : Text) : Ordering := compare t.id u.id

/-- The texts in the order of their names; texts of one name keep their order. -/
def sort (texts : List Text) : List Text :=
  texts.mergeSort fun t u => (t.order u).isLE

/-- The first character of symbol `i`. -/
def firstChar? (t : Text) (i : Nat) : Option UInt32 := t.spans[i]?.map Span.offset

/-- The number of characters of symbol `i`. -/
def length? (t : Text) (i : Nat) : Option UInt8 := t.spans[i]?.map Span.length

/-- The character just after symbol `i`. -/
def endChar? (t : Text) (i : Nat) : Option UInt32 := t.spans[i]?.map Span.endChar

/-- The window of `width` symbols from `start` on. -/
def window? (t : Text) (start width : Nat) : Option (Array Symbol) :=
  slice? t.symbols start (Position.add start width)

/-- The fingerprint of a window. -/
def windowFingerprint? (t : Text) (start width : Nat) : Option UInt32 :=
  (t.window? start width).map fun run => Fingerprint.ofRun run.toList

/-- The starts of the windows of `width` symbols, for a positive `width`. -/
def starts (t : Text) (width : Nat) : List Nat := List.range (t.size + 1 - width)

theorem mem_starts {t : Text} {width start : Nat} :
    start ∈ t.starts width ↔ Window.fits start width t.size = true := by
  simp only [starts, List.mem_range, Window.fits_iff]; omega

end Text

/-- An offset in the text of a number. -/
structure Place where
  text : Nat
  offset : Nat
  deriving DecidableEq

end SharedRuns
