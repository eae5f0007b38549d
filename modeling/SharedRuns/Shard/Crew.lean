import SharedRuns.Basic

/-!
# Workers and their claims

The settings of a sharded engine say how many workers share a run, how many positions or bins one of
them takes at a time, and from which length on a chain of postings is passed over.

The workers of a phase share a cursor. A worker claims the range between the cursor and a chunk
further on, works on it, and claims again until nothing is left. The cursor is a word: it moves by a
whole chunk at every claim, also at one that finds nothing.

A worker may be stopped by what it calls. It then raises the abort flag, at which the others claim
no more, and the phase fails with the first worker that was stopped.

`Crew.run` lets the workers take turns, each until it finds nothing to claim. That is one of the
orders in which they may run, and with one worker the only one.
-/

namespace SharedRuns

/-- The settings of a sharded engine. -/
structure ShardSettings where
  workers : Nat := 16
  /-- How many positions or bins a worker claims at a time. -/
  chunkSize : Nat := 16
  /-- Chains of this length or longer are passed over. -/
  maxChain : Nat := 1000
  deriving DecidableEq

/-- Why settings cannot be met. -/
inductive SettingsFlaw where
  | noWorkers
  | noChunk
  | shortChain (maxChain : Nat)
  deriving DecidableEq

/-- The wording of a flaw. -/
def SettingsFlaw.message : SettingsFlaw → String
  | .noWorkers => "at least one worker is required"
  | .noChunk => "chunk size must be positive"
  | .shortChain maxChain => "max chain " ++ toString maxChain ++ " cannot hold a pair"

/-- The fault of flawed settings. -/
def SettingsFlaw.fault (flaw : SettingsFlaw) : Fault := .badSettings flaw.message

/-- Refuses settings that cannot be met. -/
def ShardSettings.check (s : ShardSettings) : Except SettingsFlaw Unit :=
  if s.workers = 0 then .error .noWorkers
  else if s.chunkSize = 0 then .error .noChunk
  else if s.maxChain < 2 then .error (.shortChain s.maxChain)
  else .ok ()

/-- What a worker was stopped with. -/
inductive Payload where
  /-- Words of the program's own text. -/
  | literal (words : String)
  /-- Words put together as the program ran. -/
  | text (words : String)
  /-- Anything else: it carries no words. -/
  | unreadable
  deriving DecidableEq

/-- The message under which a stopped worker is reported. -/
def Payload.message : Payload → String
  | .literal words => words
  | .text words => words
  | .unreadable => "worker panicked"

/-- A fault as a payload. -/
def Payload.ofFault (fault : Fault) : Payload := .text fault.message

/-- Work on a memory of type `σ`, which may be stopped; what was done before then stays done. -/
abbrev Work (σ α : Type) := ExceptT Payload (StateM σ) α

/-- A computation that touches no memory, as work. -/
def Work.ofExcept (x : Except Fault α) : Work σ α := fun s =>
  match x with
  | .ok a => (.ok a, s)
  | .error fault => (.error (.ofFault fault), s)

/-- Where the next claim of a phase starts, and whether a worker was stopped. -/
structure Cursor where
  next : Nat := 0
  aborted : Bool := false
  deriving DecidableEq

/-- The cursor as a phase begins, wherever an earlier phase left it. -/
def Cursor.rewind : Cursor → Cursor
  | { next := _, aborted := _ } => { next := 0, aborted := false }

/-- Claims the next range of `0, …, limit - 1`, as its start and the end before which it stops. -/
def Cursor.claim (chunkSize limit : Nat) (c : Cursor) : Option (Nat × Nat) × Cursor :=
  if c.aborted then (none, c)
  else
    let start := c.next
    let c := { c with next := Position.add start chunkSize }
    if limit ≤ start then (none, c)
    else (some (start, min (Position.add start chunkSize) limit), c)

/-- The memory of a phase: the cursor, what the work acts on, and the first failure. -/
structure Crew (σ : Type) where
  cursor : Cursor := {}
  memory : σ
  failure : Option Fault := none

namespace Crew

/-- One worker claims and works, at most `rounds` times, until it finds nothing or is stopped. -/
def workLoop (chunkSize limit : Nat) (phase : Phase) (work : Nat → Nat → Work σ Unit)
    (worker : Nat) : (rounds : Nat) → Crew σ → Crew σ
  | 0, crew => crew
  | rounds + 1, { cursor, memory, failure } =>
    match cursor.claim chunkSize limit with
    | (none, cursor) => { cursor, memory, failure }
    | (some (start, stop), cursor) =>
      match work start stop memory with
      | (.ok (), memory) =>
        workLoop chunkSize limit phase work worker rounds { cursor, memory, failure }
      | (.error payload, memory) =>
        { cursor := { cursor with aborted := true }
          memory
          failure := failure.or (some (.workerStopped phase worker payload.message)) }

/-- The workers of a phase one after another. A worker that is never stopped claims at most `limit`
ranges that hold something. -/
def run (workers chunkSize limit : Nat) (phase : Phase) (work : Nat → Nat → Work σ Unit)
    (cursor : Cursor) (memory : σ) : Crew σ :=
  (List.range workers).foldl (fun crew worker =>
    workLoop chunkSize limit phase work worker (limit + 1) crew)
    { cursor := cursor.rewind, memory }

end Crew

end SharedRuns
