import SharedRuns.Shard.Engine

/-!
# Interleaved workers

The engine lets its workers take turns, but the storage of a run is made for workers that run at the
same time. Here a team of workers is a shared memory and, for each worker, the task it is at; a step
lets one worker do its next atomic action, whichever worker that is. An action moves the cursor,
exchanges a head, stores a link, or calls the visitor. A team has finished when no worker has an
action left.

The actions are those that the engine's own workers are made of: `Cursor.claim`, `Arena.setHead`,
`Arena.setNext`, and the calls that `ShardPlan.readRange` lists. `Interleaving.Run` says how a whole
run may end: all workers link, and when they have finished all of them read. `Interleaving.Search`
is what a caller sees of it.
-/

namespace SharedRuns.Interleaving

/-- A shared memory and the task of each worker. -/
structure Team (σ τ : Type) where
  memory : σ
  tasks : List τ

/-- The next atomic action of a worker: the memory and the task after it, or nothing when the worker
has finished. -/
abbrev Act (σ τ : Type) := σ → τ → Option (σ × τ)

/-- One worker does its next action. -/
inductive Step (act : Act σ τ) : Team σ τ → Team σ τ → Prop where
  | act {team : Team σ τ} {worker : Nat} {task task' : τ} {memory' : σ}
      (at_work : team.tasks[worker]? = some task)
      (acts : act team.memory task = some (memory', task')) :
      Step act team { memory := memory', tasks := team.tasks.set worker task' }

/-- Any number of actions, of any workers in any order. -/
inductive Steps (act : Act σ τ) : Team σ τ → Team σ τ → Prop where
  | refl (team : Team σ τ) : Steps act team team
  | tail {start middle stop : Team σ τ} (before : Steps act start middle)
      (last : Step act middle stop) : Steps act start stop

/-- No worker has an action left. -/
def Finished (act : Act σ τ) (team : Team σ τ) : Prop :=
  ∀ task ∈ team.tasks, act team.memory task = none

/-- From `start` the team may finish as `stop`. -/
def Completes (act : Act σ τ) (start stop : Team σ τ) : Prop :=
  Steps act start stop ∧ Finished act stop

/-- A team of workers that are at the same task. -/
def Team.uniform (workers : Nat) (memory : σ) (task : τ) : Team σ τ :=
  { memory, tasks := List.replicate workers task }

/-- A worker that does nothing but claim, with the ranges it was given so far. -/
structure Claimer where
  ranges : List (Nat × Nat) := []
  finished : Bool := false

/-- Claims the next range; at the first claim that finds nothing the worker has finished. -/
def Claimer.act (chunkSize limit : Nat) : Act Cursor Claimer := fun cursor worker =>
  if worker.finished then none
  else
    match cursor.claim chunkSize limit with
    | (some range, cursor) => some (cursor, { worker with ranges := worker.ranges ++ [range] })
    | (none, cursor) => some (cursor, { worker with finished := true })

/-- A worker that pushes links: before the next one, or with a link that is the head of its chain
but has not been tied to the old head, `behind`, yet. -/
inductive Pusher where
  | ready (jobs : List Job)
  | untied (job : Job) (behind : Link) (jobs : List Job)

/-- Exchanges a head, or stores the link behind. -/
def Pusher.act : Act Arena Pusher := fun arena worker =>
  match worker with
  | .ready [] => none
  | .ready (job :: jobs) =>
    some (arena.setHead job.bin job.link, .untied job (arena.head job.bin) jobs)
  | .untied job behind jobs => some (arena.setNext job.link behind, .ready jobs)

/-- What the workers of the linking phase share. -/
structure LinkingMemory where
  cursor : Cursor := {}
  arena : Arena
  /-- Links counted by workers that have finished. -/
  linked : Nat := 0

/-- A worker of the linking phase, with the number of links it has pushed itself. -/
inductive Linker where
  | claiming (own : Nat)
  | pushing (own : Nat) (pusher : Pusher)
  | finished

/-- The links that a step of a pusher completes. -/
def Pusher.completes : Pusher → Nat
  | .ready _ => 0
  | .untied _ _ _ => 1

/-- Claims a range, does the next action of pushing its links, or goes back to claiming. A worker
that cannot sample a position raises the abort flag and has finished. -/
def Linker.act (p : ShardPlan) : Act LinkingMemory Linker := fun s worker =>
  match worker with
  | .claiming own =>
    match s.cursor.claim p.chunkSize p.layout.size with
    | (none, cursor) => some ({ s with cursor, linked := s.linked + own }, .finished)
    | (some (start, stop), cursor) =>
      match p.jobs start stop with
      | .ok jobs => some ({ s with cursor }, .pushing own (.ready jobs))
      | .error _ => some ({ s with cursor := { cursor with aborted := true } }, .finished)
  | .pushing own pusher =>
    match pusher.act s.arena with
    | some (arena, pusher') => some ({ s with arena }, .pushing (own + pusher.completes) pusher')
    | none => some (s, .claiming own)
  | .finished => none

/-- What the workers of the reading phase share: the cursor, the calls of a visitor that stops
nobody, and what workers that have finished have tallied. -/
structure ReadingMemory where
  cursor : Cursor := {}
  calls : List Match := []
  tally : Tally := {}

/-- A worker of the reading phase, with its own tally. -/
inductive Reader where
  | claiming (own : Tally)
  | calling (own : Tally) (calls : List Match)
  | finished

/-- Claims a range of bins, makes the next call for them, or goes back to claiming. -/
def Reader.act (p : ShardPlan) (arena : Arena) : Act ReadingMemory Reader := fun s worker =>
  match worker with
  | .claiming own =>
    match s.cursor.claim p.chunkSize binCount with
    | (none, cursor) => some ({ s with cursor, tally := s.tally.add own }, .finished)
    | (some (start, stop), cursor) =>
      match p.readRange arena start stop with
      | .ok reading => some ({ s with cursor }, .calling (own.add reading.tally) reading.calls)
      | .error _ => some ({ s with cursor := { cursor with aborted := true } }, .finished)
  | .calling own (m :: calls) => some ({ s with calls := s.calls ++ [m] }, .calling own calls)
  | .calling own [] => some (s, .claiming own)
  | .finished => none

/-- How a run of `workers` workers may end, from an arena whose chains are empty: with these calls
of the visitor, this number of links and this tally. -/
def Run (p : ShardPlan) (workers : Nat) (arena : Arena) (calls : List Match) (postings : Nat)
    (tally : Tally) : Prop :=
  ∃ linked : Team LinkingMemory Linker, ∃ read : Team ReadingMemory Reader,
    Completes (Linker.act p) (Team.uniform workers { arena } (.claiming 0)) linked ∧
    Completes (Reader.act p linked.memory.arena)
      (Team.uniform workers {} (.claiming {})) read ∧
    linked.memory.linked = postings ∧ read.memory.calls = calls ∧ read.memory.tally = tally

/-- How a search may end when its workers interleave: with this result and these calls. A corpus
that is refused is refused before any worker acts. -/
def Search (engine : ShardEngine) (texts : List Text) (model : Stencil)
    (result : Except Fault ShardStats) (calls : List Match) : Prop :=
  match ShardEngine.checkCorpus texts model with
  | .error fault => result = .error fault ∧ calls = []
  | .ok () =>
    let engine := engine.layOut texts model
    ∃ postings tally,
      Run (engine.plan texts model) engine.settings.workers engine.arena calls postings tally ∧
        result = .ok { texts := texts.length, symbols := engine.layout.size, postings, tally }

end SharedRuns.Interleaving
