import SharedRuns.Proofs.Interleaving.Run

/-!
# Workers that take turns

An engine lets a worker claim and work until it finds nothing, and then the next one. A crew that
works so does what a team does whose workers act one after another, each through to its end
(`Simulates.run`). So what an engine does is one of the ways in which its workers may interleave
(`search_of_turns`).
-/

namespace SharedRuns.Interleaving

open Checked ShardPlan.Serves

section

variable {σ τ : Type} {act : Act σ τ} {memory middle memory' : σ} {task between task' : τ}

/-- One worker acts any number of times, while the others wait. -/
inductive Turn (act : Act σ τ) : σ → τ → σ → τ → Prop where
  | done (memory : σ) (task : τ) : Turn act memory task memory task
  | act {memory middle memory' : σ} {task between task' : τ}
      (first : act memory task = some (middle, between))
      (later : Turn act middle between memory' task') : Turn act memory task memory' task'

theorem Turn.trans (first : Turn act memory task middle between)
    (later : Turn act middle between memory' task') : Turn act memory task memory' task' := by
  induction first with
  | done => exact later
  | act acts _ ih => exact .act acts (ih later)

/-- Where a worker of a team has its turn, the team does these steps. -/
theorem Turn.steps (turn : Turn act memory task memory' task') {tasks : List τ} {worker : Nat}
    (at_work : tasks[worker]? = some task) :
    Steps act { memory, tasks } { memory := memory', tasks := tasks.set worker task' } := by
  induction turn generalizing tasks with
  | done memory task =>
      obtain ⟨inside, rfl⟩ := List.getElem?_eq_some_iff.mp at_work
      rw [List.set_getElem_self]
      exact .refl _
  | act acts _ ih =>
      have inside := (List.getElem?_eq_some_iff.mp at_work).1
      have later := ih (List.getElem?_set_self inside)
      rw [List.set_set] at later
      exact later.head (.act at_work acts)

theorem Steps.trans {start middle stop : Team σ τ} (first : Steps act start middle)
    (later : Steps act middle stop) : Steps act start stop := by
  induction later with
  | refl => exact first
  | tail _ last ih => exact .tail ih last

/-- After the turn of a worker, one more has finished and one less has begun. -/
theorem Turn.steps_of_uniform (turn : Turn act memory task memory' task') (finished waiting : Nat) :
    Steps act
      { memory, tasks := List.replicate finished task' ++ List.replicate (waiting + 1) task }
      { memory := memory'
        tasks := List.replicate (finished + 1) task' ++ List.replicate waiting task } := by
  have at_work : (List.replicate finished task' ++ List.replicate (waiting + 1) task)[finished]? =
      some task := by
    simp
  have grown : List.replicate (finished + 1) task' ++ List.replicate waiting task =
      List.replicate finished task' ++ task' :: List.replicate waiting task := by
    rw [List.replicate_succ', List.append_assoc, List.singleton_append]
  have after := turn.steps at_work
  rw [List.set_append_right _ _ (by simp), List.length_replicate, Nat.sub_self] at after
  rw [grown]
  exact after

end

section

variable {σ τ μ : Type} {act : Act σ τ} {chunkSize limit : Nat} {work : Nat → Nat → Work μ Unit}
  {start last : τ} {Idle : Cursor → μ → σ → Prop} {Busy : Cursor → μ → σ → τ → Prop}

/-- The turn of a crew's worker is the turn of a worker of a team. `Idle` relates what the crew and
the team share between two turns, and `Busy` what they share while a worker has its turn. -/
structure Simulates (act : Act σ τ) (chunkSize limit : Nat) (work : Nat → Nat → Work μ Unit)
    (start last : τ) (Idle : Cursor → μ → σ → Prop) (Busy : Cursor → μ → σ → τ → Prop) : Prop where
  begins : ∀ {cursor shared memory}, Idle cursor shared memory → Busy cursor shared memory start
  stops : ∀ {cursor cursor' shared memory task}, Busy cursor shared memory task →
    cursor.claim chunkSize limit = (none, cursor') →
      ∃ memory', act memory task = some (memory', last) ∧ Idle cursor' shared memory'
  works : ∀ {cursor cursor' shared memory task first stop}, Busy cursor shared memory task →
    cursor.claim chunkSize limit = (some (first, stop), cursor') → stop ≤ limit →
      ∃ shared' memory' task', work first stop shared = (.ok (), shared') ∧
        Turn act memory task memory' task' ∧ Busy cursor' shared' memory' task'

namespace Simulates

variable (sim : Simulates act chunkSize limit work start last Idle Busy) (positive : 0 < chunkSize)
  {workers : Nat} (room : limit + workers * chunkSize ≤ Position.space)

include sim positive room

/-- The turn of one worker. -/
theorem workLoop {unfinished done rounds : Nat} {c : Cursor} {shared : μ} {memory : σ} {task : τ}
    (cursor : c.HandedOut chunkSize limit workers (unfinished + 1) done)
    (enough : limit - done < rounds) (busy : Busy c shared memory task) (phase : Phase)
    (worker : Nat) :
    let after := Crew.workLoop chunkSize limit phase work worker rounds
      { cursor := c, memory := shared }
    ∃ memory', Turn act memory task memory' last ∧ Idle after.cursor after.memory memory' ∧
      after.failure = none ∧ after.cursor.HandedOut chunkSize limit workers unfinished limit := by
  induction rounds generalizing c shared memory task done with
  | zero => exact absurd enough (Nat.not_lt_zero _)
  | succ rounds ih =>
      obtain ⟨c', found, rfl, after⟩ | ⟨stop, c', found, more, inside, after⟩ :=
        cursor.claim positive room
      · obtain ⟨memory', acts, idle⟩ := sim.stops busy found
        simp only [Crew.workLoop, found]
        exact ⟨memory', .act acts (.done _ _), idle, trivial, after⟩
      · obtain ⟨shared', memory', task', worked, turn, busy'⟩ := sim.works busy found inside
        simp only [Crew.workLoop, found, worked]
        have fewer : limit - stop < rounds := by omega
        obtain ⟨memory'', later, idle⟩ := ih after fewer busy'
        exact ⟨memory'', turn.trans later, idle⟩

/-- The turns of all workers that are left. -/
theorem foldl_workLoop (phase : Phase) (left : List Nat) (finished : Nat) {done : Nat}
    {crew : Crew μ} {memory : σ}
    (cursor : crew.cursor.HandedOut chunkSize limit workers left.length done)
    (running : crew.failure = none) (idle : Idle crew.cursor crew.memory memory) :
    let after := left.foldl (fun crew worker =>
      Crew.workLoop chunkSize limit phase work worker (limit + 1) crew) crew
    ∃ memory', Steps act
        { memory, tasks := List.replicate finished last ++ List.replicate left.length start }
        { memory := memory', tasks := List.replicate (finished + left.length) last } ∧
      Idle after.cursor after.memory memory' ∧ after.failure = none := by
  induction left generalizing finished done crew memory with
  | nil =>
      refine ⟨memory, ?_, idle, running⟩
      rw [List.length_nil, List.replicate_zero, List.append_nil]
      exact .refl _
  | cons worker rest ih =>
      obtain ⟨c, shared, failure⟩ := crew
      obtain rfl : failure = none := running
      have enough : limit - done < limit + 1 := Nat.lt_succ_of_le (Nat.sub_le _ _)
      obtain ⟨between, turn, idle', running', cursor'⟩ :=
        sim.workLoop positive room cursor enough (sim.begins idle) phase worker
      obtain ⟨memory', later, after⟩ := ih (finished + 1) cursor' running' idle'
      have count : finished + (worker :: rest).length = finished + 1 + rest.length := by
        rw [List.length_cons, Nat.add_right_comm, Nat.add_assoc]
      rw [count]
      exact ⟨memory', (turn.steps_of_uniform finished rest.length).trans later, after⟩

/-- A phase of a crew, from the team's start to its end. -/
theorem run (ends : ∀ memory, act memory last = none) (phase : Phase) (cursor : Cursor)
    (shared : μ) {memory : σ} (idle : Idle {} shared memory) :
    let after := Crew.run workers chunkSize limit phase work cursor shared
    ∃ stop, Completes act (.uniform workers memory start) stop ∧
      Idle after.cursor after.memory stop.memory ∧ after.failure = none := by
  let crew : Crew μ := { memory := shared }
  have handedOut : crew.cursor.HandedOut chunkSize limit workers (List.range workers).length 0 := by
    rw [List.length_range]
    exact .start positive
  obtain ⟨memory', steps, after⟩ :=
    sim.foldl_workLoop positive room phase (List.range workers) 0 handedOut rfl idle
  rw [List.length_range, List.replicate_zero, List.nil_append, Nat.zero_add] at steps
  refine ⟨{ memory := memory', tasks := List.replicate workers last }, ⟨steps, ?_⟩, after⟩
  · intro task member
    rw [List.eq_of_mem_replicate member]
    exact ends memory'

end Simulates

end

section

variable {p : ShardPlan} {texts : List Text} {arena : Arena} {workers : Nat}

theorem Linker.turn_push (jobs : List Job) (s : LinkingMemory) (own : Nat) :
    Turn (Linker.act p) s (.pushing own (.ready jobs))
      { s with arena := s.arena.pushAll jobs } (.claiming (own + jobs.length)) := by
  induction jobs generalizing s own with
  | nil => exact .act rfl (.done _ _)
  | cons job rest ih =>
      have later := ih { s with arena := s.arena.push job } (own + 1)
      rw [Nat.add_right_comm, Nat.add_assoc] at later
      exact .act rfl (.act rfl later)

theorem Reader.turn_call (calls : List Match) (s : ReadingMemory) (own : Tally) :
    Turn (Reader.act p arena) s (.calling own calls) { s with calls := s.calls ++ calls }
      (.claiming own) := by
  induction calls generalizing s with
  | nil =>
      rw [List.append_nil]
      exact .act rfl (.done _ _)
  | cons found rest ih =>
      have later := ih { s with calls := s.calls ++ [found] }
      rw [List.append_assoc, List.singleton_append] at later
      exact .act rfl later

/-- While a worker has its turn, it has not yet added its own links to the common number. -/
theorem Linker.simulates (serves : p.Serves texts) :
    Simulates (Linker.act p) p.chunkSize p.layout.size p.linkRange (.claiming 0) .finished
      (fun cursor shared memory => memory = ⟨cursor, shared.arena, shared.linked⟩ ∧
        ∀ job ∈ allJobs p.model texts, shared.arena.Admits job)
      (fun cursor shared memory task => ∃ own linked, task = .claiming own ∧
        memory = ⟨cursor, shared.arena, linked⟩ ∧ linked + own = shared.linked ∧
        ∀ job ∈ allJobs p.model texts, shared.arena.Admits job) where
  begins := by
    rintro cursor shared memory ⟨rfl, admits⟩
    exact ⟨0, shared.linked, rfl, rfl, rfl, admits⟩
  stops := by
    rintro cursor cursor' ⟨arena, _⟩ memory task ⟨own, linked, rfl, rfl, rfl, admits⟩ none
    exact ⟨_, by simp only [Linker.act, none], rfl, admits⟩
  works := by
    rintro cursor cursor' ⟨arena, _⟩ memory task first stop ⟨own, linked, rfl, rfl, rfl, admits⟩
      claimed inside
    let jobs := (span first stop).flatMap (jobsOf p.model texts)
    have found : p.jobs first stop = .ok jobs := serves.jobs_eq inside
    have linkedAll : p.linkRange first stop { arena, linked := linked + own } =
        (.ok (), { arena := arena.pushAll jobs, linked := linked + own + jobs.length }) := by
      have positions : ∀ pos ∈ span first stop, pos < ShardEngine.symbolCount texts :=
        fun pos member => Nat.lt_of_lt_of_le (mem_span.mp member).2 (serves.size_layout ▸ inside)
      refine ShardPlan.forM_linkAt
        (fun pos member => serves.jobsAt_eq_jobsOf (positions pos member))
        (fun job member => admits job ?_) _
      obtain ⟨pos, inSpan, inJobs⟩ := List.mem_flatMap.mp member
      rw [← flatMap_jobsOf]
      exact List.mem_flatMap.mpr ⟨pos, List.mem_range.mpr (positions pos inSpan), inJobs⟩
    refine ⟨_, _, _, linkedAll, .act ?_ (Linker.turn_push jobs ⟨cursor', arena, linked⟩ own),
      own + jobs.length, linked, rfl, rfl, (Nat.add_assoc _ _ _).symm, ?_⟩
    · simp only [Linker.act, claimed, found]
    · intro job member
      rw [Arena.Admits, Arena.size_heads_pushAll, Arena.size_links_pushAll]
      exact admits job member

/-- While a worker has its turn, it has not yet added its own tally to the common one. -/
theorem Reader.simulates {reading : Nat → BinReading}
    (read : ∀ bin < binCount, p.readBin arena bin = .ok (reading bin)) :
    Simulates (Reader.act p arena) p.chunkSize binCount (p.visitRange arena Visitor.keep)
      (.claiming {}) .finished
      (fun cursor shared memory => memory = ⟨cursor, shared.out, shared.tally⟩)
      (fun cursor shared memory task => ∃ own tally, task = .claiming own ∧
        memory = ⟨cursor, shared.out, tally⟩ ∧ tally.add own = shared.tally) where
  begins := by
    rintro cursor shared memory rfl
    exact ⟨{}, shared.tally, rfl, rfl, rfl⟩
  stops := by
    rintro cursor cursor' ⟨out, _⟩ memory task ⟨own, tally, rfl, rfl, rfl⟩ none
    exact ⟨_, by simp only [Reader.act, none], rfl⟩
  works := by
    rintro cursor cursor' ⟨out, _⟩ memory task first stop ⟨own, tally, rfl, rfl, rfl⟩ claimed inside
    let taken := RangeReading.ofBins ((span first stop).map reading)
    have found : p.readRange arena first stop = .ok taken := readRange_eq read inside
    have visited : p.visitRange arena Visitor.keep first stop { out, tally := tally.add own } =
        (.ok (), { out := out ++ taken.calls, tally := (tally.add own).add taken.tally }) := by
      obtain ⟨counted, ran, whole⟩ := ShardPlan.forM_visitBin
        (fun bin member => read bin (Nat.lt_of_lt_of_le (mem_span.mp member).2 inside))
        Visitor.keep (tally.add own) (Visitor.willing_keep.forM_eq _ out)
      obtain rfl := whole rfl
      rw [Visitor.outAfter_keep, ← calls_ofBins_map, foldl_tally, ← tally_ofBins_map] at ran
      exact ran
    refine ⟨_, _, _, visited,
      .act ?_ (Reader.turn_call taken.calls ⟨cursor', out, tally⟩ (own.add taken.tally)),
      own.add taken.tally, tally, rfl, rfl, (add_assoc tally own taken.tally).symm⟩
    simp only [Reader.act, claimed, found]

end

open ShardEngine

/-- The phases of an engine that keeps all calls fail nowhere, and are a run of its workers. -/
theorem Prepared.run_of_turns {p : ShardPlan} {texts : List Text} {arena : Arena}
    {settings : ShardSettings} (h : Prepared p texts settings.workers arena) (cursor : Cursor) :
    let linking := link settings p cursor arena
    let reading := read settings p linking.cursor linking.memory.arena Visitor.keep []
    linking.failure = none ∧ reading.failure = none ∧
      Run p settings.workers arena reading.memory.out linking.memory.linked
        reading.memory.tally := by
  intro linking reading
  obtain ⟨linked, completes, ⟨afterLinking, -⟩, linkingOk⟩ :=
    (Linker.simulates h.serves).run h.positive h.room_linking (fun _ => rfl) .linking cursor
      { arena } ⟨rfl, h.distinct.admits⟩
  have built : linked.memory.arena = linking.memory.arena :=
    congrArg LinkingMemory.arena afterLinking
  obtain ⟨-, held, -, readBin⟩ := h.readBin_of_completes completes
  rw [built] at readBin
  obtain ⟨stop, readAll, afterReading, readingOk⟩ :=
    (Reader.simulates readBin).run h.positive h.room_reading (fun _ => rfl) .reading linking.cursor
      { out := [] } rfl
  refine ⟨linkingOk, readingOk, linked, stop, completes, built ▸ readAll,
    congrArg LinkingMemory.linked afterLinking, congrArg ReadingMemory.calls afterReading,
    congrArg ReadingMemory.tally afterReading⟩

/-- What an engine does whose workers take turns is one of the things that it may do when they
interleave. -/
theorem search_of_turns {size : Nat} {offsets : Array UInt32} {sorted : Bool} {m : Stencil}
    (made : Stencil.ofOffsets size offsets sorted = .ok m) {settings : ShardSettings}
    {engine : ShardEngine} (ready : Ready settings engine) {texts : List Text}
    (room : max (symbolCount texts) binCount + (settings.workers + 1) * settings.chunkSize ≤
      Position.space) :
    let run := engine.search texts m Visitor.keep []
    Search engine texts m run.result run.out := by
  simp only [Search]
  cases taken : checkCorpus texts m with
  | error fault =>
      rw [search_refused taken]
      exact ⟨rfl, rfl⟩
  | ok =>
      have prepared :=
        prepared_of_ready ready (Stencil.accepted_of_ofOffsets made) taken room
      obtain ⟨_, _, layout, arena, cursor⟩ := engine
      obtain rfl := ready.settings_eq
      obtain ⟨linkingOk, readingOk, run⟩ := prepared.run_of_turns cursor
      simp only [plan, layOut] at linkingOk readingOk run
      simp only [search, taken, plan, layOut, linkingOk, readingOk]
      exact ⟨_, _, run, rfl⟩

end SharedRuns.Interleaving
