import SharedRuns.Text.Basic

/-!
# Matches and their records

A match is a pair of windows of two texts that an engine found to agree. It has a direction, since
one text was searched for and the other one found; `Match.flip` turns it around. A record keeps
of a match the names and the numbers, not the texts.

The reference for all engines is `BruteForce.search`: every window of every text is compared with
every window of every later text of another name. Its cost is quadratic in the corpus, so it is only
meant for small ones.
-/

namespace SharedRuns

/-- The window of `len` symbols of `text` that starts at `offset`. -/
structure Side where
  text : Text
  offset : Nat
  len : Nat

/-- The symbols of the window. -/
def Side.symbols? (s : Side) : Option (Array Symbol) := s.text.window? s.offset s.len

/-- Two windows that agree. -/
structure Match where
  a : Side
  b : Side

/-- The same match seen from the other text. -/
def Match.flip (m : Match) : Match := { a := m.b, b := m.a }

@[simp] theorem Match.flip_flip (m : Match) : m.flip.flip = m := rfl

/-- The names and numbers of a match. -/
structure Record where
  textA : String
  offsetA : Nat
  lenA : Nat
  textB : String
  offsetB : Nat
  lenB : Nat
  deriving DecidableEq

/-- The record of a match. -/
def Match.record (m : Match) : Record where
  textA := m.a.text.id
  offsetA := m.a.offset
  lenA := m.a.len
  textB := m.b.text.id
  offsetB := m.b.offset
  lenB := m.b.len

namespace Record

/-- The record of the same match seen from the other text. -/
def flip (r : Record) : Record where
  textA := r.textB
  offsetA := r.offsetB
  lenA := r.lenB
  textB := r.textA
  offsetB := r.offsetA
  lenB := r.lenA

/-- Records are ordered by side `a`, then `b`; a side by its text, its offset and its length. -/
instance : Ord Record where
  compare := compareLex (compareOn textA) <| compareLex (compareOn offsetA) <|
    compareLex (compareOn lenA) <| compareLex (compareOn textB) <|
    compareLex (compareOn offsetB) (compareOn lenB)

instance : Std.TransOrd Record :=
  inferInstanceAs (Std.TransCmp (compareLex (compareOn textA) <| compareLex (compareOn offsetA) <|
    compareLex (compareOn lenA) <| compareLex (compareOn textB) <|
    compareLex (compareOn offsetB) (compareOn lenB)))

instance : Std.LawfulEqOrd Record where
  eq_of_compare {r s} h := by
    change compareLex _ _ r s = .eq at h
    simp only [compareLex_eq_eq, compareOn, Std.LawfulEqOrd.compare_eq_iff_eq] at h
    cases r; cases s; simp_all

/-- The records in ascending order. -/
def sort (records : List Record) : List Record :=
  records.mergeSort fun r s => (compare r s).isLE

/-- One window as text: name, offset and length. -/
def sideText (text : String) (offset len : Nat) : String :=
  text ++ ":" ++ toString offset ++ "+" ++ toString len

/-- The record as text: its two windows with two blanks between them. -/
def toText (r : Record) : String :=
  sideText r.textA r.offsetA r.lenA ++ "  " ++ sideText r.textB r.offsetB r.lenB

end Record

@[simp] theorem Match.record_flip (m : Match) : m.flip.record = m.record.flip := rfl

namespace BruteForce

/-- The match of two windows of `depth` symbols, if both fit and hold the same symbols. -/
def pair? (t u : Text) (offset₁ offset₂ depth : Nat) : Option Match :=
  match slice? t.symbols offset₁ (offset₁ + depth), slice? u.symbols offset₂ (offset₂ + depth) with
  | some run₁, some run₂ =>
    if run₁ = run₂ then
      some
        { a := { text := t, offset := offset₁, len := depth }
          b := { text := u, offset := offset₂, len := depth } }
    else none
  | _, _ => none

/-- The matches between two texts, by the start in `t` and then by the start in `u`. -/
def between (depth : Nat) (t u : Text) : List Match :=
  if t.SameId u then []
  else (t.starts depth).flatMap fun offset₁ =>
    (u.starts depth).filterMap fun offset₂ => pair? t u offset₁ offset₂ depth

/-- The matches of each text with each later one. -/
def allPairs (depth : Nat) : List Text → List Match
  | [] => []
  | t :: rest => rest.flatMap (between depth t) ++ allPairs depth rest

/-- Every pair of equal windows of `depth` symbols in two texts of different names, the text that
comes first as side `a`. -/
def search (texts : List Text) (depth : Nat) : Except Fault (List Match) :=
  if depth = 0 then .error .zeroLength else .ok (allPairs depth texts)

end BruteForce

end SharedRuns
