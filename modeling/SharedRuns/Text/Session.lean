import SharedRuns.ContentCode
import SharedRuns.Text.Basic

/-!
# Building texts symbol by symbol

A builder takes symbols with their spans in reading order and refuses a symbol whose span would not
fit behind the ones before it; a refused symbol changes nothing. What was taken since the last reset
can be finished into a text at any time, and as often as wanted.

A caller keeps one builder and calls it again and again: symbols are appended in place, the builder
is reset and used anew, and texts are finished at any time. Each call is answered, and leaves the
builder to the next call in the state in which it was returned or gave up.
-/

namespace SharedRuns

/-- The symbols and spans taken so far, one span for each symbol. -/
structure TextBuilder where
  symbols : Array Symbol := #[]
  spans : Array Span := #[]
  /-- The offset just after the last span. -/
  lastStop : Nat := 0

namespace TextBuilder

/-- A builder that has taken nothing. -/
def empty : TextBuilder := {}

/-- The number of symbols taken. -/
def size (b : TextBuilder) : Nat := b.symbols.size

/-- Takes one more symbol, or says why its span does not fit. -/
def add (b : TextBuilder) (symbol : Symbol) (span : Span) : Except SpanFlaw TextBuilder :=
  if span.length = 0 then .error (.emptyAppended b.size span.offset)
  else if span.offset.toNat < b.lastStop then .error (.precedes span.offset b.lastStop)
  else if span.Representable then
    .ok { symbols := b.symbols.push symbol, spans := b.spans.push span, lastStop := span.stop }
  else .error (.overflowAppended span.offset)

/-- Forgets all symbols. -/
def reset (_ : TextBuilder) : TextBuilder := empty

/-- The text of the symbols taken, under a name and with metadata. -/
def finishTagged (b : TextBuilder) (id : String) (metadata : List UInt8) : Text :=
  { id, symbols := b.symbols, spans := b.spans, metadata }

/-- The text of the symbols taken, under a name. -/
def finish (b : TextBuilder) (id : String) : Text := b.finishTagged id []

/-- The text of the symbols taken, under the code of its content. -/
def finishUnnamed (b : TextBuilder) : Text :=
  b.finish (ContentCode.ofSymbols b.symbols.toList)

end TextBuilder

/-- A call of a builder. -/
inductive BuilderCall where
  | add (symbol : Symbol) (span : Span)
  | size
  | reset
  | finish (id : String)
  | finishTagged (id : String) (metadata : List UInt8)
  | finishUnnamed

/-- What a builder answers. -/
inductive BuilderAnswer where
  /-- A symbol was taken. -/
  | taken
  /-- A symbol was refused. -/
  | refused (flaw : SpanFlaw)
  /-- The number of symbols. -/
  | size (count : Nat)
  /-- All symbols were forgotten. -/
  | cleared
  /-- A finished text. -/
  | text (t : Text)

namespace TextBuilder

/-- Appends a symbol in place, field by field; what was changed before a refusal stays changed. -/
def append (symbol : Symbol) (span : Span) : ExceptT SpanFlaw (StateM TextBuilder) Unit := do
  let b ← get
  if span.length = 0 then throw (.emptyAppended b.size span.offset)
  if span.offset.toNat < b.lastStop then throw (.precedes span.offset b.lastStop)
  unless span.Representable do throw (.overflowAppended span.offset)
  modify fun b => { b with symbols := b.symbols.push symbol }
  modify fun b => { b with spans := b.spans.push span }
  modify fun b => { b with lastStop := span.stop }

/-- The answer to a call, and the builder after it. -/
def perform (b : TextBuilder) : BuilderCall → BuilderAnswer × TextBuilder
  | .add symbol span =>
    match (append symbol span).run.run b with
    | (.ok (), b) => (.taken, b)
    | (.error flaw, b) => (.refused flaw, b)
  | .size => (.size b.size, b)
  | .reset => (.cleared, b.reset)
  | .finish id => (.text (b.finish id), b)
  | .finishTagged id metadata => (.text (b.finishTagged id metadata), b)
  | .finishUnnamed => (.text b.finishUnnamed, b)

/-- In place a symbol is taken or refused as it is by a builder that is kept, and it is refused
before anything was changed. -/
theorem run_append (b : TextBuilder) (symbol : Symbol) (span : Span) :
    (append symbol span).run.run b =
      match b.add symbol span with
      | .ok extended => (.ok (), extended)
      | .error flaw => (.error flaw, b) := by
  rw [add]
  -- Each guard reads the builder as it was at first: nothing is modified between them.
  change (if span.length = 0 then throw _ else _ :
    ExceptT SpanFlaw (StateM TextBuilder) Unit).run.run b = _
  split
  · rfl
  change (if span.offset.toNat < b.lastStop then throw _ else _ :
    ExceptT SpanFlaw (StateM TextBuilder) Unit).run.run b = _
  split
  · rfl
  change (if span.Representable then _ else throw _ :
    ExceptT SpanFlaw (StateM TextBuilder) Unit).run.run b = _
  split
  · rfl
  · rfl

theorem perform_add (b : TextBuilder) (symbol : Symbol) (span : Span) :
    b.perform (.add symbol span) =
      match b.add symbol span with
      | .ok extended => (.taken, extended)
      | .error flaw => (.refused flaw, b) := by
  rw [perform, run_append]
  cases b.add symbol span <;> rfl

end TextBuilder

end SharedRuns
