import Std.Data.TreeMap
import SharedRuns.Match.Basic

/-!
# Multisets of matches

A match set counts how often each match was reported, where a match is known by the names and
offsets of its two sides (`RecordKey`), not by their lengths. A canonical set turns each key so that
the smaller name comes first, which makes engines comparable that report a match in one direction
and engines that report it in the other or in both. `MatchMultiset.difference` lists the keys on
which two sets disagree.
-/

namespace SharedRuns

/-- The names and offsets by which a match is counted. -/
structure RecordKey where
  textA : String
  textB : String
  offsetA : Nat
  offsetB : Nat
  deriving DecidableEq

namespace RecordKey

/-- Keys are ordered by their two names, then by their two offsets. -/
instance : Ord RecordKey where
  compare := compareLex (compareOn textA) <| compareLex (compareOn textB) <|
    compareLex (compareOn offsetA) (compareOn offsetB)

instance : Std.TransOrd RecordKey :=
  inferInstanceAs (Std.TransCmp (compareLex (compareOn textA) <| compareLex (compareOn textB) <|
    compareLex (compareOn offsetA) (compareOn offsetB)))

instance : Std.LawfulEqOrd RecordKey where
  eq_of_compare {k l} h := by
    change compareLex _ _ k l = .eq at h
    simp only [compareLex_eq_eq, compareOn, Std.LawfulEqOrd.compare_eq_iff_eq] at h
    cases k; cases l; simp_all

/-- The key of the match seen from the other text. -/
def swap (k : RecordKey) : RecordKey :=
  { textA := k.textB, textB := k.textA, offsetA := k.offsetB, offsetB := k.offsetA }

/-- The key turned so that the smaller name comes first. -/
def oriented (k : RecordKey) : RecordKey := if k.textB < k.textA then k.swap else k

/-- The key of a record. -/
def ofRecord (r : Record) : RecordKey :=
  { textA := r.textA, textB := r.textB, offsetA := r.offsetA, offsetB := r.offsetB }

end RecordKey

/-- How often each key was inserted; only keys that were inserted are listed. -/
structure MatchMultiset where
  counts : Std.TreeMap RecordKey Nat := ∅
  /-- Whether both directions of a match count as one key. -/
  canonical : Bool := false

namespace MatchMultiset

/-- The set without matches. -/
def empty (canonical : Bool) : MatchMultiset := { canonical }

/-- The key under which the set counts `k`. -/
def place (s : MatchMultiset) (k : RecordKey) : RecordKey := if s.canonical then k.oriented else k

/-- Counts one more record. -/
def insert (s : MatchMultiset) (r : Record) : MatchMultiset :=
  { s with counts := s.counts.alter (s.place (.ofRecord r)) fun n => some (n.getD 0 + 1) }

/-- The set of the records of a list. -/
def ofRecords (canonical : Bool) (records : List Record) : MatchMultiset :=
  records.foldl insert (empty canonical)

/-- How often a key was inserted. -/
def count (s : MatchMultiset) (k : RecordKey) : Nat := s.counts.getD (s.place k) 0

/-- The number of insertions. -/
def total (s : MatchMultiset) : Nat := s.counts.foldl (fun sum _ n => sum + n) 0

/-- The number of different keys. -/
def distinct (s : MatchMultiset) : Nat := s.counts.size

/-- Whether nothing was inserted. -/
def isEmpty (s : MatchMultiset) : Bool := s.counts.isEmpty

/-- Whether some key was inserted more than once. -/
def hasRepeats (s : MatchMultiset) : Bool := s.counts.any fun _ n => 1 < n

/-- A key on which two sets disagree, with the numbers of the one and of the other. -/
structure Difference where
  key : RecordKey
  mine : Nat
  theirs : Nat
  deriving DecidableEq

/-- The keys on which the sets disagree, in ascending order. -/
def difference (s t : MatchMultiset) : List Difference :=
  let changed := s.counts.toList.filterMap fun (key, mine) =>
    let theirs := t.counts.getD key 0
    if theirs = mine then none else some { key, mine, theirs }
  let missing := t.counts.toList.filterMap fun (key, theirs) =>
    if s.counts.contains key then none else some { key, mine := 0, theirs }
  (changed ++ missing).mergeSort fun d e => (compare d.key e.key).isLE

end MatchMultiset

end SharedRuns
