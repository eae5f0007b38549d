import SharedRuns.Basic
import SharedRuns.Json.Reader
import SharedRuns.Json.Value
import SharedRuns.Shard.Crew

/-!
# Preferences

What a user has chosen for all runs, kept in a JSON file. A field that the file leaves out has its
default, and members that are no preferences are passed over. Without a file all fields have their
defaults.
-/

namespace SharedRuns

/-- The choices that are kept. -/
structure Preferences where
  /-- The number of workers, or 0 for as many as there are processors. -/
  workers : Nat := 0
  chunkSize : Nat := 16
  maxChain : Nat := 1000
  /-- The length of matches where none is given. -/
  matchLength : Nat := 6
  deriving DecidableEq

namespace Preferences

/-- The names of the fields. -/
def fieldNames : List String := ["workers", "chunk_size", "max_chain", "match_length"]

/-- The fields, by name. -/
def fields (p : Preferences) : List (String × Json.Scalar) :=
  fieldNames.zip [.nat p.workers, .nat p.chunkSize, .nat p.maxChain, .nat p.matchLength]

/-- The preferences on one line. -/
def compact (p : Preferences) : String := Json.compact p.fields

/-- The preferences as their file holds them. -/
def file (p : Preferences) : String := Json.pretty p.fields

/-- A field that has the given default. -/
def field? (fallback : Nat) (value : Option Json.Value) : Option Nat :=
  Json.Value.orDefault? (Json.Value.natBelow? Position.space) fallback value

/-- The preferences that a file holds. -/
def ofFile? (file : String) : Option Preferences := do
  let defaults : Preferences := {}
  match ← Json.fields? .pass fieldNames (← Json.read? file) with
  | [workers, chunkSize, maxChain, matchLength] =>
    return {
      workers := ← field? defaults.workers workers
      chunkSize := ← field? defaults.chunkSize chunkSize
      maxChain := ← field? defaults.maxChain maxChain
      matchLength := ← field? defaults.matchLength matchLength }
  | _ => none

/-- The preferences in a file, or the defaults if there is no file. -/
def load : Option String → Option Preferences
  | none => some {}
  | some file => ofFile? file

/-- The reason why a file is refused. -/
def unreadable : String := "Failed to parse config file"

/-- The number of workers to start on a machine with that many processors. -/
def workersOn (p : Preferences) (processors : Nat) : Nat :=
  if p.workers = 0 then processors else p.workers

/-- The settings of a sharded engine on a machine with that many processors. -/
def settings (p : Preferences) (processors : Nat) : ShardSettings where
  workers := p.workersOn processors
  chunkSize := p.chunkSize
  maxChain := p.maxChain

end Preferences

end SharedRuns
