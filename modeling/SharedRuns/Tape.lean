import SharedRuns.Basic
import SharedRuns.Text.Basic

/-!
# Tapes

A tape holds the symbols of many texts one after another, so that one number addresses a symbol of
the corpus:

    a₀ a₁ a₂ | b₀ b₁ | c₀ c₁ c₂ c₃ | $

Each text is followed by a barrier and the tape ends with a sentinel. Each cell knows its place, the
text and the offset it was taken from; barriers and the sentinel have none, and it is by their
place that they are known, since texts may hold the same symbols.
-/

namespace SharedRuns

/-- One position of a tape. -/
structure Cell where
  symbol : Symbol
  place : Option Place
  deriving DecidableEq

/-- Texts laid out one after another. -/
structure Tape where
  texts : Array Text
  cells : Array Cell

namespace Tape

/-- The symbol behind each text. -/
def barrier : Symbol := 1

/-- The symbol at the end of the tape. -/
def sentinel : Symbol := 0

/-- Texts and positions of a tape are numbered below this. -/
def limit : Nat := UInt32.size - 1

/-- A cell that belongs to no text. -/
def boundary (symbol : Symbol) : Cell := { symbol, place := none }

/-- The cells of text number `number` and the barrier behind it. -/
def block (t : Text) (number : Nat) : List Cell :=
  t.symbols.toList.zipIdx.map (fun (symbol, offset) =>
    Cell.mk symbol (some { text := number, offset })) ++ [boundary barrier]

/-- The number of cells of a tape of these texts. -/
def cellCount (texts : List Text) : Nat := texts.foldr (fun t count => t.size + 1 + count) 1

/-- The tape of the texts in their order. -/
def ofTexts (texts : List Text) : Except Fault Tape :=
  if limit ≤ texts.length then .error (.tooManyTexts texts.length)
  else if limit < cellCount texts then .error (.textTooLong (cellCount texts))
  else .ok
    { texts := texts.toArray
      cells := (texts.zipIdx.flatMap (fun (t, number) => block t number) ++
        [boundary sentinel]).toArray }

/-- The number of cells. -/
def size (tape : Tape) : Nat := tape.cells.size

/-- The symbols of all cells. -/
def symbols (tape : Tape) : Array Symbol := tape.cells.map Cell.symbol

/-- The largest symbol, or the barrier if that is larger. -/
def maximum (tape : Tape) : Symbol := tape.cells.foldl (fun m cell => max m cell.symbol) barrier

/-- The symbol at a position. -/
def symbol? (tape : Tape) (pos : Nat) : Except Fault Symbol := do
  return (← Checked.fetch tape.cells pos).symbol

/-- The place of a position. -/
def place? (tape : Tape) (pos : Nat) : Except Fault (Option Place) := do
  return (← Checked.fetch tape.cells pos).place

/-- The number of the text to which a position belongs. -/
def owner (tape : Tape) (pos : Nat) : Option Nat := do
  let cell ← tape.cells[pos]?
  let place ← cell.place
  return place.text

/-- The place of `pos` if the `width` positions from there on belong to one text. -/
def lodging (tape : Tape) (pos width : Nat) : Except Fault (Option Place) := do
  match ← tape.place? pos with
  | none => return none
  | some place =>
    let last := (pos + width - 1) % Position.space
    return if 0 < width ∧ tape.owner last = some place.text then some place else none

/-- Whether the `width` positions from `pos` on belong to one text. -/
def inOneText (tape : Tape) (pos width : Nat) : Except Fault Bool := do
  return (← tape.lodging pos width).isSome

end Tape

end SharedRuns
