import SharedRuns.Shard.Crew
import SharedRuns.Shard.Layout

/-!
# Linking and reading

In the first phase of a run each worker claims positions of the layout and puts the link of every
posting there in front of the chain of its bin.

In the second phase each worker claims bins and walks their chains. A chain with fewer than two
postings has no pairs; one that reaches the longest permitted length is passed over. The postings of
any other chain are compared with one another, the newest first, and each pair with equal samples in
two texts of different names is reported from both sides.

The arena is only read in this phase, so what a bin reports is a function of the arena: `readBin`.
-/

namespace SharedRuns

/-- The memory of the linking phase: the arena, and how many links were put into it. -/
structure LinkMemory where
  arena : Arena
  linked : Nat := 0

namespace ShardPlan

/-- Puts one link in front of its chain. -/
def pushLink (job : Job) : Work LinkMemory Unit
  | { arena, linked } =>
    if arena.Admits job then (.ok (), { arena := arena.push job, linked := linked + 1 })
    else (.error (.ofFault .outOfRange), { arena, linked })

/-- Links the postings at a position. -/
def linkAt (p : ShardPlan) (pos : Nat) : Work LinkMemory Unit := do
  let jobs ← Work.ofExcept (p.jobsAt pos)
  jobs.forM pushLink

/-- Links the postings of the positions from `start` up to `stop`. -/
def linkRange (p : ShardPlan) (start stop : Nat) : Work LinkMemory Unit :=
  (span start stop).forM p.linkAt

end ShardPlan

/-- Takes the matches of a run. It keeps what it likes in its memory, and it may stop the worker
that calls it. -/
abbrev Visitor (σ : Type) := Match → Work σ Unit

/-- What became of the bins that were read. -/
structure Tally where
  /-- Bins whose postings were compared. -/
  binsRead : Nat := 0
  /-- Bins whose chain was passed over. -/
  degenerateBins : Nat := 0
  /-- Pairs of postings that match. -/
  pairs : Nat := 0
  deriving DecidableEq

namespace Tally

/-- The tally of a bin with fewer than two postings. -/
def sparse : Tally := {}

/-- The tally of a bin that was passed over. -/
def degenerate : Tally := { degenerateBins := 1 }

/-- The tally of a bin with that many matching pairs. -/
def read (pairs : Nat) : Tally := { binsRead := 1, pairs }

/-- The tally of two sets of bins together. -/
def add (t u : Tally) : Tally where
  binsRead := t.binsRead + u.binsRead
  degenerateBins := t.degenerateBins + u.degenerateBins
  pairs := t.pairs + u.pairs

end Tally

/-- The memory of the reading phase: that of the visitor, and the tally of the bins read. -/
structure ReadMemory (σ : Type) where
  out : σ
  tally : Tally := {}

/-- What reading a bin reports, as matches from one side, and its tally. -/
structure BinReading where
  pairs : List Match
  tally : Tally

/-- The calls of the visitor for a bin: each match, and at once its inverse. -/
def BinReading.calls (r : BinReading) : List Match := r.pairs.flatMap fun m => [m, m.flip]

/-- What reading several bins reports. -/
structure RangeReading where
  calls : List Match
  tally : Tally

/-- What reading bins one after another reports. -/
def RangeReading.ofBins (bins : List BinReading) : RangeReading where
  calls := bins.flatMap BinReading.calls
  tally := bins.foldl (fun tally r => tally.add r.tally) {}

namespace ShardPlan

/-- The match of two postings, if their texts have different names and their samples are equal. -/
def Posting.match? (x y : Posting) : Option Match :=
  if x.place.text = y.place.text ∨ x.text.SameId y.text ∨ x.sample ≠ y.sample then none
  else some { a := x.side, b := y.side }

/-- The matches of each posting with each later one. -/
def matchesAmong : List Posting → List Match
  | [] => []
  | x :: rest => rest.filterMap x.match? ++ matchesAmong rest

/-- Reads one bin. -/
def readBin (p : ShardPlan) (a : Arena) (bin : Nat) : Except Fault BinReading := do
  let postings ← (← a.chain p.maxChain bin).mapM p.postingOf
  if postings.length < 2 then return { pairs := [], tally := .sparse }
  else if p.maxChain ≤ postings.length then return { pairs := [], tally := .degenerate }
  else
    let pairs := matchesAmong postings
    return { pairs, tally := .read pairs.length }

/-- Reads the bins from `start` up to `stop`. -/
def readRange (p : ShardPlan) (a : Arena) (start stop : Nat) : Except Fault RangeReading := do
  return .ofBins (← (span start stop).mapM (p.readBin a))

/-- Calls the visitor. -/
def call (visit : Visitor σ) (m : Match) : Work (ReadMemory σ) Unit
  | { out, tally } =>
    let (result, out) := visit m out
    (result, { out, tally })

/-- Calls the visitor with a match seen from both sides. -/
def callBoth (visit : Visitor σ) (m : Match) : Work (ReadMemory σ) Unit := do
  call visit m
  call visit m.flip

/-- Adds to the tally. -/
def count (t : Tally) : Work (ReadMemory σ) Unit
  | { out, tally } => (.ok (), { out, tally := tally.add t })

/-- Reports the matches of one bin. -/
def visitBin (p : ShardPlan) (a : Arena) (visit : Visitor σ) (bin : Nat) :
    Work (ReadMemory σ) Unit := do
  let reading ← Work.ofExcept (p.readBin a bin)
  reading.pairs.forM (callBoth visit)
  count reading.tally

/-- Reports the matches of the bins from `start` up to `stop`. -/
def visitRange (p : ShardPlan) (a : Arena) (visit : Visitor σ) (start stop : Nat) :
    Work (ReadMemory σ) Unit :=
  (span start stop).forM (p.visitBin a visit)

end ShardPlan

end SharedRuns
