import SharedRuns.ContentCode
import SharedRuns.Json.Reader
import SharedRuns.Json.Value
import SharedRuns.Text.Basic

/-!
# Corpus files

A corpus file is a JSON list of entries, each with the symbols of a text and, if wanted, its name
and its spans. Offsets and lengths of spans come together or not at all. An entry without a name is
named by the code of its symbols.

A file is read as a whole: text that is not a list of entries is refused before any entry is looked
at, and of the entries the first bad one is reported.
-/

namespace SharedRuns.Corpus

/-- An entry as it is written. -/
structure Entry where
  id : Option String
  symbols : List Symbol
  offsets : Option (List UInt32)
  lengths : Option (List UInt8)
  deriving DecidableEq

/-- Why a corpus file is refused. -/
inductive Flaw where
  /-- The file is not a list of entries. -/
  | unreadable
  /-- An entry has offsets without lengths, or lengths without offsets. -/
  | unpaired (index : Nat) (id : String)
  /-- The spans of an entry are not spans of its symbols. -/
  | badSpans (index : Nat) (id : String) (flaw : SpanFlaw)
  deriving DecidableEq

/-- An entry as it is named in messages. -/
def entryName (index : Nat) (id : String) : String :=
  "entry " ++ toString index ++ " (" ++ id ++ ")"

/-- The wording of a flaw, followed by that of its cause. -/
def Flaw.messages : Flaw → List String
  | .unreadable => ["Failed to parse corpus"]
  | .unpaired index id => [entryName index id ++ ": offsets and lengths must be given together"]
  | .badSpans index id flaw =>
    [entryName index id ++ " has invalid spans", (Fault.badSpan flaw.message).message]

/-- The names of an entry's fields. -/
def fieldNames : List String := ["id", "symbols", "offsets", "lengths"]

/-- A symbol or an offset. -/
def word? (value : Json.Value) : Option UInt32 :=
  (value.natBelow? UInt32.size).map Nat.toUInt32

/-- The length of a span. -/
def byte? (value : Json.Value) : Option UInt8 := (value.natBelow? UInt8.size).map Nat.toUInt8

/-- The entry that a value writes. -/
def Entry.ofValue? (value : Json.Value) : Option Entry := do
  match ← Json.fields? .refuse fieldNames value with
  | [id, some symbols, offsets, lengths] =>
    return {
      id := ← Json.Value.optional? Json.Value.text? id
      symbols := ← symbols.list? word?
      offsets := ← Json.Value.optional? (Json.Value.list? word?) offsets
      lengths := ← Json.Value.optional? (Json.Value.list? byte?) lengths }
  | _ => none

/-- The entries that a file writes. -/
def entries? (file : String) : Option (List Entry) := do
  (← Json.read? file).list? Entry.ofValue?

/-- The name of an entry's text. -/
def Entry.textId (e : Entry) : String := e.id.getD (ContentCode.ofSymbols e.symbols)

/-- The text of entry `index`. -/
def Entry.toText (e : Entry) (index : Nat) : Except Flaw Text :=
  let build (offsets : List UInt32) (lengths : List UInt8) : Except Flaw Text :=
    match Text.ofSpans e.textId e.symbols.toArray offsets.toArray lengths.toArray [] with
    | .ok t => .ok t
    | .error flaw => .error (.badSpans index e.textId flaw)
  match e.offsets, e.lengths with
  | some offsets, some lengths => build offsets lengths
  | none, none => build [] []
  | _, _ => .error (.unpaired index e.textId)

/-- The texts of entries, the first of which is numbered `index`. -/
def textsFrom (index : Nat) : List Entry → Except Flaw (List Text)
  | [] => return []
  | e :: rest => do return (← e.toText index) :: (← textsFrom (index + 1) rest)

/-- The texts of a corpus file. -/
def ofFile (file : String) : Except Flaw (List Text) :=
  match entries? file with
  | none => .error .unreadable
  | some entries => textsFrom 0 entries

end SharedRuns.Corpus
