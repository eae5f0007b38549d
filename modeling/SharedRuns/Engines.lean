import SharedRuns.Index
import SharedRuns.Match.Basic
import SharedRuns.Match.Multiset
import SharedRuns.Shard.Engine
import SharedRuns.SuffixSort

/-!
# Matching a whole corpus

Each engine as it is run on all texts of a corpus. The indices are filled first and then asked for
each text, so that every match is found from both sides; `runsOnline` asks for each text before it
is added and finds each match once. The engines that compare one length are checked against one
another by their canonical match sets.
-/

namespace SharedRuns.Engines

/-- The records of matches. -/
def records (found : List Match) : List Record := found.map Match.record

/-- A visitor that keeps the records of all matches. -/
def keepRecords : Visitor (Array Record) := fun m kept => (.ok (), kept.push m.record)

/-- Runs of one length, every text asked for after all were added. -/
def runs (texts : List Text) (length : Nat) : Except Fault (List Record) := do
  let index ← texts.foldlM RunIndex.add (← RunIndex.create length)
  return records (texts.flatMap index.search)

/-- Runs of one length, every text asked for before it is added. -/
def runsOnline (texts : List Text) (length : Nat) : Except Fault (List Record) := do
  let (_, found) ← texts.foldlM (fun (index, found) t => do
    return (← index.add t, found ++ index.search t)) (← RunIndex.create length, [])
  return records found

/-- Stencil samples, every text asked for after all were added. -/
def samples (texts : List Text) (model : Stencil) : Except Fault (List Record) := do
  let index ← texts.foldlM SampleIndex.add { model }
  return records (← texts.mapM index.search).flatten

/-- Stencil samples, by a sharded engine. -/
def sharded (texts : List Text) (model : Stencil) (settings : ShardSettings) :
    Except Fault (List Record) := do
  match ShardEngine.create settings with
  | .error flaw => .error flaw.fault
  | .ok engine =>
    let run := engine.search texts model keepRecords #[]
    let _ ← run.result
    return run.out.toList

/-- Runs of one length, by sorting. -/
def radix (texts : List Text) (depth : Nat) : Except Fault (List Record) := do
  return records (← SuffixEngine.searchTexts texts depth)

/-- Runs of one length, by comparing everything. -/
def bruteForce (texts : List Text) (depth : Nat) : Except Fault (List Record) := do
  return records (← BruteForce.search texts depth)

/-- How an engine's match set compares with the reference. -/
structure Verdict where
  matchCount : Nat
  differences : List MatchMultiset.Difference
  repeats : Bool

/-- Whether an engine found the matches of the reference, each once. -/
def Verdict.agrees (v : Verdict) : Bool := v.differences.isEmpty && !v.repeats

/-- The verdict on records, both sets being canonical. -/
def judge (reference : MatchMultiset) (found : List Record) : Verdict :=
  let set := MatchMultiset.ofRecords true found
  { matchCount := set.total
    differences := set.difference reference
    repeats := set.hasRepeats }

/-- The verdicts on the engines that compare runs, and the number of matches of the reference. -/
structure Comparison where
  online : Verdict
  radix : Verdict
  referenceCount : Nat

/-- Compares the engines on one corpus. -/
def compare (texts : List Text) (length : Nat) : Except Fault Comparison := do
  let online ← runsOnline texts length
  let sorted ← radix texts length
  let reference := MatchMultiset.ofRecords true (← bruteForce texts length)
  return {
    online := judge reference online
    radix := judge reference sorted
    referenceCount := reference.total }

end SharedRuns.Engines
