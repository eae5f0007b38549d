import Std.Data.TreeMap
import SharedRuns.Json.Reader
import SharedRuns.Json.Value
import SharedRuns.Match.Basic
import SharedRuns.Text.Basic

/-!
# Texts and records as they are written

For people who look for a fault, a text shows its name in quotes, its size, and whether it has
spans, but not its symbols.

A record is written as a JSON object with one member for each of its six fields, in their order, on
one line; a list of records is written as that many lines. Records are also listed one on each line
as text, or counted for each pair of texts. Text may be coloured: names are magenta, offsets and
counts green, and lengths red and bold.
-/

namespace SharedRuns

namespace Text

/-- A character of a quoted name. -/
def quotedChar : Char → List Char
  | '"' => ['\\', '"']
  | '\\' => ['\\', '\\']
  | '\n' => ['\\', 'n']
  | '\r' => ['\\', 'r']
  | '\t' => ['\\', 't']
  | c => if c.toNat = 0 then ['\\', '0'] else [c]

/-- A name between quotes. -/
def quoted (name : String) : String :=
  String.ofList ('"' :: name.toList.flatMap quotedChar ++ ['"'])

/-- The text's name, size and whether it has spans. -/
def describe (t : Text) : String :=
  "SymbolSequence \x7b id: " ++ quoted t.id ++ ", len: " ++ toString t.size ++ ", spans: " ++
    toString t.hasSpans ++ " \x7d"

end Text

namespace Record

/-- The names under which the fields are written. -/
def fieldNames : List String := ["text_a", "offset_a", "len_a", "text_b", "offset_b", "len_b"]

/-- The fields of a record, by name. -/
def fields (r : Record) : List (String × Json.Scalar) :=
  fieldNames.zip
    [.text r.textA, .nat r.offsetA, .nat r.lenA, .text r.textB, .nat r.offsetB, .nat r.lenB]

/-- The record as an object on one line. -/
def toJson (r : Record) : String := Json.compact r.fields

/-- The records, one on each line. -/
def jsonLines (records : List Record) : String :=
  String.join (records.map fun r => r.toJson ++ "\n")

/-- The record that a JSON value writes. -/
def ofValue? (value : Json.Value) : Option Record := do
  match ← Json.fields? .refuse fieldNames value with
  | [some textA, some offsetA, some lenA, some textB, some offsetB, some lenB] =>
    return {
      textA := ← textA.text?, offsetA := ← offsetA.natBelow? Position.space
      lenA := ← lenA.natBelow? Position.space
      textB := ← textB.text?, offsetB := ← offsetB.natBelow? Position.space
      lenB := ← lenB.natBelow? Position.space }
  | _ => none

/-- The record that a text writes. -/
def ofJson? (text : String) : Option Record := do ofValue? (← Json.read? text)

end Record

namespace Listing

/-- The parts of a listing that have a colour of their own. -/
inductive Part where
  | name
  | number
  | length
  deriving DecidableEq

/-- The terminal's code that ends all colours. -/
def plain : String := "\x1b[0m"

/-- The terminal's codes for the colour of a part. -/
def Part.code : Part → String
  | .name => plain ++ "\x1b[35m"
  | .number => plain ++ "\x1b[32m"
  | .length => plain ++ "\x1b[1m\x1b[31m"

/-- A text in the colour of a part, if there is colour. -/
def paint (colored : Bool) (part : Part) (text : String) : String :=
  if colored then part.code ++ text ++ plain else text

/-- One window of a record. -/
def side (colored : Bool) (text : String) (offset len : Nat) : String :=
  paint colored .name text ++ ":" ++ paint colored .number (toString offset) ++ "+" ++
    paint colored .length (toString len)

/-- One record on a line of its own. -/
def line (colored : Bool) (r : Record) : String :=
  side colored r.textA r.offsetA r.lenA ++ "  " ++ side colored r.textB r.offsetB r.lenB ++ "\n"

/-- The records, one on each line. -/
def lines (colored : Bool) (records : List Record) : String :=
  String.join (records.map (line colored))

/-- How pairs of names are ordered. -/
def pairOrder : String × String → String × String → Ordering :=
  compareLex (compareOn Prod.fst) (compareOn Prod.snd)

/-- The number of records of each pair of texts, in the order of the pairs. -/
def countsByPair (records : List Record) : List ((String × String) × Nat) :=
  let counts : Std.TreeMap (String × String) Nat pairOrder :=
    records.foldl (fun counts r =>
      counts.alter (r.textA, r.textB) fun n => some (n.getD 0 + 1)) ∅
  counts.toList

/-- The number of records of one pair on a line of its own. -/
def countLine (colored : Bool) (entry : (String × String) × Nat) : String :=
  paint colored .name entry.1.1 ++ "  " ++ paint colored .name entry.1.2 ++ ":" ++
    paint colored .number (toString entry.2 ++ "\n")

/-- The number of records of each pair of texts, one pair on each line. -/
def counts (colored : Bool) (records : List Record) : String :=
  String.join ((countsByPair records).map (countLine colored))

end Listing

end SharedRuns
