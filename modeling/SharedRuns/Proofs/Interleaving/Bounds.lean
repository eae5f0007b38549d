import SharedRuns.Proofs.Interleaving.Linking
import SharedRuns.Proofs.Shard.Bounds

/-!
# Workers that interleave keep to their arrays

Between the exchange of a head and its store the cell of a link holds something stale, which may be
a link of another corpus. Nobody follows a chain then: workers that link do not, and when all of
them have finished no store is due. So what holds of workers that take turns holds of workers that
interleave (`keepsInside`): those that link exchange heads and store links within
the arena, those that read meet links of postings, and no worker is stopped. The argument does not
ask in which order ranges are given out, nor how often, since a cursor may wrap around.
-/

namespace SharedRuns.Interleaving

open ShardPlan ShardPlan.Serves

variable {p : ShardPlan} {texts : List Text} {a a' : Arena} {entered : Link → Prop}

namespace Pusher

/-- The jobs that are begun or waiting. -/
def pending : Pusher → List Job
  | .ready jobs => jobs
  | .untied job _ jobs => job :: jobs

/-- The store of a link is due. -/
def Owes (w : Pusher) (link : Link) : Prop := ∃ behind, (link, behind) ∈ w.due

theorem not_owes_ready {jobs : List Job} {link : Link} : ¬ (ready jobs).Owes link := by
  rintro ⟨behind, member⟩
  exact Multiset.notMem_zero _ member

theorem owes_untied {job : Job} {behind link : Link} {jobs : List Job} :
    (untied job behind jobs).Owes link ↔ link = job.link := by
  simp [Owes, due]

end Pusher

/-- Workers push links of postings, and what they are to store leads on through entered links. -/
structure PushersInside (p : ShardPlan) (texts : List Text) (entered : Link → Prop) (a : Arena)
    (pushers : Multiset Pusher) : Prop where
  holds : p.Holds texts a entered fun link => ∃ w ∈ pushers, w.Owes link
  onward : ∀ w ∈ pushers, ∀ d ∈ w.due, Arena.Onward entered d.2
  posted : ∀ w ∈ pushers, ∀ job ∈ w.pending, job ∈ allJobs p.model texts

namespace PushersInside

variable {w w' : Pusher} {others pushers : Multiset Pusher} {jobs jobs' : List Job}

/-- Workers that have pushed nothing yet. -/
theorem of_tied (tied : p.Tied texts a) (idle : ∀ w ∈ pushers, w = .ready []) :
    ∃ entered, PushersInside p texts entered a pushers := by
  obtain ⟨entered, holds⟩ := tied
  refine ⟨entered, holds.mono fun _ => False.elim, fun w member d isDue => ?_,
    fun w member job waiting => ?_⟩
  · rw [idle w member] at isDue
    exact absurd isDue (Multiset.notMem_zero d)
  · rw [idle w member] at waiting
    cases waiting

/-- When all workers have pushed their links, no store is due. -/
theorem tied (inside : PushersInside p texts entered a pushers)
    (idle : ∀ w ∈ pushers, w = .ready []) : p.Tied texts a := by
  refine ⟨entered, inside.holds.mono fun link => ?_⟩
  rintro ⟨w, member, owes⟩
  rw [idle w member] at owes
  exact Pusher.not_owes_ready owes

/-- A worker with no store due may be given other links of postings. -/
theorem hand (inside : PushersInside p texts entered a (.ready jobs ::ₘ others))
    (posted : ∀ job ∈ jobs', job ∈ allJobs p.model texts) :
    PushersInside p texts entered a (.ready jobs' ::ₘ others) := by
  obtain ⟨holds, onward, posted'⟩ := inside
  simp only [Multiset.mem_cons, forall_eq_or_imp] at onward posted'
  refine ⟨holds.mono fun link => ?_, ?_, ?_⟩
  · simp only [Multiset.mem_cons, exists_eq_or_imp, Pusher.not_owes_ready, false_or, imp_self]
  · exact Multiset.forall_mem_cons.mpr onward
  · exact Multiset.forall_mem_cons.mpr ⟨posted, posted'.2⟩

/-- An action of one worker: it exchanges a head, or it stores what another exchange left due. -/
theorem act (inside : PushersInside p texts entered a (w ::ₘ others)) (serves : p.Serves texts)
    (acts : w.act a = some (a', w')) :
    ∃ entered', PushersInside p texts entered' a' (w' ::ₘ others) := by
  obtain ⟨holds, onward, posted⟩ := inside
  simp only [Multiset.mem_cons, forall_eq_or_imp] at onward posted
  cases w with
  | ready waiting =>
      cases waiting with
      | nil => cases acts
      | cons job rest =>
          obtain ⟨rfl, rfl⟩ := Prod.mk.inj (Option.some.inj acts)
          refine ⟨_, serves.holds_setHead holds (posted.1 job List.mem_cons_self) ?_ ?_,
            Multiset.forall_mem_cons.mpr ⟨?_, ?_⟩, Multiset.forall_mem_cons.mpr posted⟩
          · exact ⟨_, Multiset.mem_cons_self _ _, Pusher.owes_untied.mpr rfl⟩
          · simp only [Multiset.mem_cons, exists_eq_or_imp, Pusher.not_owes_ready, false_or]
            exact fun link => .inr
          · intro d member
            rw [Multiset.mem_singleton.mp member]
            exact (holds.closed.heads job.bin).mono fun _ => .inr
          · exact fun v member d isDue => (onward.2 v member d isDue).mono fun _ => .inr
  | untied job behind rest =>
      obtain ⟨rfl, rfl⟩ := Prod.mk.inj (Option.some.inj acts)
      refine ⟨entered, holds.setNext (onward.1 _ (Multiset.mem_singleton_self _)) fun link => ?_,
        Multiset.forall_mem_cons.mpr ⟨?_, onward.2⟩, Multiset.forall_mem_cons.mpr ⟨?_, posted.2⟩⟩
      · simp only [Multiset.mem_cons, exists_eq_or_imp, Pusher.owes_untied, Pusher.not_owes_ready,
          false_or]
        exact id
      · exact fun d member => absurd member (Multiset.notMem_zero d)
      · exact fun job' member => posted.1 job' (List.mem_cons_of_mem _ member)

end PushersInside

namespace Linker

/-- No worker was stopped, and all keep to the arena. -/
def Inside (p : ShardPlan) (texts : List Text) (s : LinkingMemory) (tasks : Multiset Linker) :
    Prop :=
  s.cursor.aborted = false ∧
    ∃ entered, PushersInside p texts entered s.arena (tasks.map Linker.pusher)

theorem preserves_inside (serves : p.Serves texts) :
    Preserves (Linker.act p) (Inside p texts) := by
  rintro s s' w w' acts others ⟨running, entered, inside⟩
  rw [Multiset.map_cons] at inside
  rw [Inside, Multiset.map_cons]
  cases w with
  | claiming own =>
      simp only [Linker.act] at acts
      rcases claimed : s.cursor.claim p.chunkSize p.layout.size with ⟨_ | ⟨start, stop⟩, cursor⟩
      · rw [claimed] at acts
        obtain ⟨rfl, rfl⟩ := Prod.mk.inj (Option.some.inj acts)
        exact ⟨(Crew.aborted_of_claim claimed).trans running, entered, inside⟩
      · simp only [claimed, serves.jobs_eq (Crew.stop_le_of_claim claimed)] at acts
        obtain ⟨rfl, rfl⟩ := Prod.mk.inj (Option.some.inj acts)
        refine ⟨(Crew.aborted_of_claim claimed).trans running, entered, inside.hand ?_⟩
        intro job member
        obtain ⟨pos, -, here⟩ := List.mem_flatMap.mp member
        exact mem_allJobs_of_mem_jobsOf here
  | pushing own pusher =>
      simp only [Linker.act] at acts
      split at acts
      · next arena pusher' pushed =>
        obtain ⟨rfl, rfl⟩ := Prod.mk.inj (Option.some.inj acts)
        exact ⟨running, inside.act serves pushed⟩
      · next idle =>
        obtain ⟨rfl, rfl⟩ := Prod.mk.inj (Option.some.inj acts)
        simp only [Linker.pusher, Pusher.eq_ready_of_act_eq_none idle] at inside
        exact ⟨running, entered, inside⟩
  | finished => cases acts

/-- Linking begins inside, on an arena on which no store is due. -/
theorem inside_of_steps (serves : p.Serves texts) (tied : p.Tied texts a) {workers : Nat}
    {team : Team LinkingMemory Linker}
    (steps : Steps (Linker.act p) (.uniform workers { arena := a } (.claiming 0)) team) :
    Inside p texts team.memory team.tasks := by
  refine steps.preserves (preserves_inside serves) ⟨rfl, PushersInside.of_tied tied ?_⟩
  intro w member
  obtain ⟨task, inTeam, rfl⟩ := Multiset.mem_map.mp member
  rw [List.eq_of_mem_replicate (Multiset.mem_coe.mp inTeam)]
  rfl

theorem tied_of_completes (serves : p.Serves texts) (tied : p.Tied texts a) {workers : Nat}
    {team : Team LinkingMemory Linker}
    (completes : Completes (Linker.act p) (.uniform workers { arena := a } (.claiming 0)) team) :
    p.Tied texts team.memory.arena := by
  obtain ⟨-, entered, inside⟩ := inside_of_steps serves tied completes.1
  refine inside.tied fun w member => ?_
  obtain ⟨task, inTeam, rfl⟩ := Multiset.mem_map.mp member
  rw [eq_finished_of_act_eq_none (completes.2 task inTeam)]
  rfl

end Linker

theorem Reader.preserves_running (serves : p.Serves texts) (tied : p.Tied texts a) :
    Preserves (Reader.act p a) fun s _ => s.cursor.aborted = false := by
  rintro s s' w w' acts others running
  cases w with
  | claiming own =>
      simp only [Reader.act] at acts
      rcases claimed : s.cursor.claim p.chunkSize binCount with ⟨_ | ⟨start, stop⟩, cursor⟩
      · rw [claimed] at acts
        obtain ⟨rfl, rfl⟩ := Prod.mk.inj (Option.some.inj acts)
        exact (Crew.aborted_of_claim claimed).trans running
      · obtain ⟨reading, read⟩ := serves.exists_readRange tied start (Crew.stop_le_of_claim claimed)
        simp only [claimed, read] at acts
        obtain ⟨rfl, rfl⟩ := Prod.mk.inj (Option.some.inj acts)
        exact (Crew.aborted_of_claim claimed).trans running
  | calling own calls =>
      cases calls with
      | nil =>
          obtain ⟨rfl, rfl⟩ := Prod.mk.inj (Option.some.inj acts)
          exact running
      | cons found calls =>
          obtain ⟨rfl, rfl⟩ := Prod.mk.inj (Option.some.inj acts)
          exact running
  | finished => cases acts

/-- A run of interleaved workers keeps to its arrays: what a worker that links is about to push has
a bin and a cell, the chains that are left for reading are readable, and nobody is stopped. -/
structure KeepsInside (p : ShardPlan) (arena : Arena) (workers : Nat) : Prop where
  linking : ∀ team : Team LinkingMemory Linker,
    Steps (Linker.act p) (.uniform workers { arena } (.claiming 0)) team →
      team.memory.cursor.aborted = false ∧
        ∀ w ∈ team.tasks, ∀ job ∈ w.pusher.pending, team.memory.arena.Admits job
  reading : ∀ linked : Team LinkingMemory Linker,
    Completes (Linker.act p) (.uniform workers { arena } (.claiming 0)) linked →
      (∀ bin < binCount, p.Readable linked.memory.arena bin) ∧
        ∀ team : Team ReadingMemory Reader,
          Steps (Reader.act p linked.memory.arena) (.uniform workers {} (.claiming {})) team →
            team.memory.cursor.aborted = false

theorem keepsInside (serves : p.Serves texts) (tied : p.Tied texts a) (workers : Nat) :
    KeepsInside p a workers where
  linking team steps := by
    obtain ⟨running, entered, inside⟩ := Linker.inside_of_steps serves tied steps
    refine ⟨running, fun w member job waiting => ?_⟩
    have among : w.pusher ∈ (team.tasks : Multiset Linker).map Linker.pusher :=
      Multiset.mem_map_of_mem _ member
    exact serves.admits inside.holds (inside.posted _ among job waiting)
  reading linked completes := by
    have after := Linker.tied_of_completes serves tied completes
    exact ⟨fun bin inside => serves.readable after inside,
      fun team steps => steps.preserves (Reader.preserves_running serves after) rfl⟩

end SharedRuns.Interleaving
