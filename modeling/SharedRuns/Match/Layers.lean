import SharedRuns.Match.Basic

/-!
# Layers that take matches

Engines hand their matches to a chain of layers. A layer counts what passes or turns it around; the
chain ends in an outlet that keeps records, keeps the symbols of both windows, or keeps nothing.
-/

namespace SharedRuns

/-- What lies between an engine and the end of the chain. -/
inductive Layer where
  /-- Counts the matches that pass. -/
  | count (seen : Nat)
  /-- Turns each match around. -/
  | invert
  deriving DecidableEq

/-- The end of a chain. -/
inductive Outlet where
  /-- Keeps nothing. -/
  | discard
  /-- Keeps the record of each match. -/
  | collect (records : List Record)
  /-- Keeps the symbols of the two windows of each match. -/
  | windows (seen : List (Array Symbol × Array Symbol))
  deriving DecidableEq

/-- The outlet after one more match; the symbols of a window that does not fit its text cannot be
kept. -/
def Outlet.take (m : Match) : Outlet → Except Fault Outlet
  | .discard => .ok .discard
  | .collect records => .ok (.collect (records ++ [m.record]))
  | .windows seen => do
    let a ← Fault.within m.a.symbols?
    let b ← Fault.within m.b.symbols?
    return .windows (seen ++ [(a, b)])

/-- Layers, the outermost first, and the outlet behind them. -/
structure LayerChain where
  layers : List Layer
  outlet : Outlet

namespace LayerChain

/-- Hands a match through the layers: the layers after it passed, and what reaches the outlet. -/
def pass (m : Match) : List Layer → List Layer × Match
  | [] => ([], m)
  | .count seen :: rest =>
    let (rest, out) := pass m rest
    (.count (seen + 1) :: rest, out)
  | .invert :: rest =>
    let (rest, out) := pass m.flip rest
    (.invert :: rest, out)

/-- The chain after one more match, and the fault of the outlet if it had one. The layers have
seen the match even then. -/
def take (c : LayerChain) (m : Match) : LayerChain × Option Fault :=
  let (layers, out) := pass m c.layers
  match c.outlet.take out with
  | .ok outlet => ({ layers, outlet }, none)
  | .error fault => ({ c with layers }, some fault)

/-- The counters, the outermost first. -/
def counts (c : LayerChain) : List Nat :=
  c.layers.filterMap fun
    | .count seen => some seen
    | .invert => none

/-- Sets counter `i` back to zero. -/
def resetCount (i : Nat) : List Layer → List Layer
  | [] => []
  | .invert :: rest => .invert :: resetCount i rest
  | .count seen :: rest =>
    match i with
    | 0 => .count 0 :: rest
    | i + 1 => .count seen :: resetCount i rest

/-- The chain with counter `i` set back to zero; a fault if there is no such counter. -/
def reset? (c : LayerChain) (i : Nat) : Except Fault LayerChain :=
  if i < c.counts.length then .ok { c with layers := resetCount i c.layers }
  else .error .outOfRange

/-- The records kept. -/
def records (c : LayerChain) : List Record :=
  match c.outlet with
  | .collect records => records
  | _ => []

/-- The symbols kept. -/
def windows (c : LayerChain) : List (Array Symbol × Array Symbol) :=
  match c.outlet with
  | .windows seen => seen
  | _ => []

end LayerChain

end SharedRuns
