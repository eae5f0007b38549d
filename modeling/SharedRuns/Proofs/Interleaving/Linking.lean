import SharedRuns.Proofs.Interleaving.Claiming
import SharedRuns.Proofs.Interleaving.Pushing
import SharedRuns.Proofs.Shard.Linking

/-!
# Linking by workers that interleave

While workers link, the links of all positions that have been given out are either in the arena, in
the order in which their heads were exchanged, or still waiting with some worker. When all workers
have finished, the arena holds the links of all postings, in some order
(`Linker.exists_order_of_completes`).
-/

namespace SharedRuns.Interleaving

open Checked ShardPlan.Serves

namespace Linker

/-- The links that a worker has counted and not yet added to the common number. -/
@[simp] def own : Linker → Nat
  | .claiming own => own
  | .pushing own _ => own
  | .finished => 0

/-- What a worker is pushing. -/
@[simp] def pusher : Linker → Pusher
  | .claiming _ => .ready []
  | .pushing _ pusher => pusher
  | .finished => .ready []

/-- The claims that find nothing and are still to come from a worker. -/
@[simp] def unfinished : Linker → Nat
  | .claiming _ => 1
  | .pushing _ _ => 1
  | .finished => 0

/-- A bound on the actions of a worker before it claims something again. -/
@[simp] def rank : Linker → Nat
  | .claiming _ => 1
  | .pushing _ pusher => pusher.rank + 2
  | .finished => 0

end Linker

/-- The links of the positions before `done` are in the arena, in some order, or wait with a worker,
and those in the arena were counted when they were stored. -/
structure LinkersAt (p : ShardPlan) (texts : List Text) (start : Arena) (workers rank : Nat)
    (s : LinkingMemory) (tasks : Multiset Linker) (done : Nat) (order : List Job) : Prop where
  cursor : s.cursor.HandedOut p.chunkSize p.layout.size workers
    (tasks.map Linker.unfinished).sum done
  pushing : Pushing start s.arena order (tasks.map Linker.pusher)
  jobs : (order : Multiset Job) + (tasks.bind fun w => (w.pusher.jobs : Multiset Job)) =
    ((span 0 done).flatMap (jobsOf p.model texts) : List Job)
  counted : s.linked + (tasks.map Linker.own).sum + (tasks.map fun w => w.pusher.completes).sum =
    order.length
  rank_eq : 2 * ((span done p.layout.size).flatMap (jobsOf p.model texts)).length +
    2 * (p.layout.size - done) + (tasks.map Linker.rank).sum = rank

namespace LinkersAt

variable {p : ShardPlan} {texts : List Text} {start : Arena} {workers rank done : Nat}
  {s : LinkingMemory} {w : Linker} {others tasks : Multiset Linker} {order : List Job}

/-- The links that were exchanged and those that a worker still has are some of all links. -/
theorem distinct (h : LinkersAt p texts start workers rank s (w ::ₘ others) done order)
    (serves : p.Serves texts) (all : start.Distinct (allJobs p.model texts)) :
    start.Distinct (order ++ w.pusher.jobs) := by
  refine all.of_subperm (Multiset.coe_le.mp ?_)
  calc ((order ++ w.pusher.jobs : List Job) : Multiset Job)
      ≤ (order : Multiset Job) + (w ::ₘ others).bind fun w => (w.pusher.jobs : Multiset Job) := by
        rw [← Multiset.coe_add, Multiset.cons_bind, ← add_assoc]
        exact Multiset.le_add_right _ _
    _ = ((span 0 done).flatMap (jobsOf p.model texts) : List Job) := h.jobs
    _ ≤ (allJobs p.model texts : List Job) := by
        rw [← flatMap_jobsOf, ← serves.size_layout, ← span_zero,
          span_append (Nat.zero_le done) h.cursor.done_le, List.flatMap_append, ← Multiset.coe_add]
        exact Multiset.le_add_right _ _

variable {own stop : Nat} {c : Cursor} {pusher pusher' : Pusher} {a : Arena}

/-- A worker finds nothing more to claim. -/
theorem finish (h : LinkersAt p texts start workers rank s (.claiming own ::ₘ others) done order)
    (after : c.HandedOut p.chunkSize p.layout.size workers
      (others.map Linker.unfinished).sum done) :
    ∃ lower < rank, LinkersAt p texts start workers lower
      { s with cursor := c, linked := s.linked + own } (.finished ::ₘ others) done order := by
  obtain ⟨-, pushing, jobs, counted, rfl⟩ := h
  refine ⟨_, ?_, ?_, by simpa using pushing, by simpa using jobs, ?_, rfl⟩
  · simp
  · simpa using after
  · simp only [Multiset.map_cons, Multiset.sum_cons, Linker.own, Linker.pusher] at counted ⊢
    omega

/-- A worker claims the positions up to `stop`. -/
theorem take (h : LinkersAt p texts start workers rank s (.claiming own ::ₘ others) done order)
    (more : done < stop) (inside : stop ≤ p.layout.size)
    (after : c.HandedOut p.chunkSize p.layout.size workers
      ((others.map Linker.unfinished).sum + 1) stop) :
    ∃ lower < rank, LinkersAt p texts start workers lower { s with cursor := c }
      (.pushing own (.ready ((span done stop).flatMap (jobsOf p.model texts))) ::ₘ others)
      stop order := by
  obtain ⟨-, pushing, jobs, counted, rfl⟩ := h
  rw [Multiset.map_cons] at pushing
  refine ⟨_, ?_, ?_, by simpa using pushing.hand _, ?_, ?_, rfl⟩
  · rw [span_append (Nat.le_of_lt more) inside]
    simp only [Multiset.map_cons, Multiset.sum_cons, Linker.rank, Pusher.rank, List.flatMap_append,
      List.length_append]
    omega
  · simpa [Nat.add_comm 1] using after
  · rw [span_append (Nat.zero_le done) (Nat.le_of_lt more), List.flatMap_append, ← Multiset.coe_add,
      ← jobs]
    simp only [Multiset.cons_bind, Linker.pusher, Pusher.jobs, Multiset.coe_nil, zero_add]
    rw [add_assoc, add_comm (Multiset.bind _ _)]
  · simpa [Pusher.completes] using counted

/-- A worker does the next action of pushing its links. -/
theorem push
    (h : LinkersAt p texts start workers rank s (.pushing own pusher ::ₘ others) done order)
    (serves : p.Serves texts) (all : start.Distinct (allJobs p.model texts))
    (acts : pusher.act s.arena = some (a, pusher')) :
    ∃ lower < rank, ∃ order', LinkersAt p texts start workers lower { s with arena := a }
      (.pushing (own + pusher.completes) pusher' ::ₘ others) done order' := by
  have distinct := h.distinct serves all
  obtain ⟨cursor, pushing, jobs, counted, rfl⟩ := h
  rw [Multiset.map_cons] at pushing
  obtain ⟨order', pushing', jobs', longer, less⟩ := pushing.act distinct acts
  refine ⟨_, ?_, order', ?_, ?_, ?_, ?_, rfl⟩
  · simp only [Multiset.map_cons, Multiset.sum_cons, Linker.rank, Linker.pusher] at less ⊢
    omega
  · simpa using cursor
  · simpa using pushing'
  · rw [← jobs]
    simp only [Multiset.cons_bind, Linker.pusher, ← add_assoc]
    rw [Multiset.coe_add, jobs', Multiset.coe_add]
    rfl
  · simp only [Multiset.map_cons, Multiset.sum_cons, Linker.own, Linker.pusher] at counted ⊢
    omega

/-- A worker that has pushed its links goes back to claiming. -/
theorem back (h : LinkersAt p texts start workers rank s (.pushing own (.ready []) ::ₘ others) done
    order) :
    ∃ lower < rank,
      LinkersAt p texts start workers lower s (.claiming own ::ₘ others) done order := by
  obtain ⟨cursor, pushing, jobs, counted, rfl⟩ := h
  refine ⟨_, ?_, by simpa using cursor, by simpa using pushing, by simpa using jobs,
    by simpa using counted, rfl⟩
  simp [Pusher.rank]

end LinkersAt

namespace Linker

section

variable (p : ShardPlan) (texts : List Text) (start : Arena) (workers : Nat)

/-- What the workers have linked, up to any position and in any order. -/
def Inv (rank : Nat) (s : LinkingMemory) (tasks : Multiset Linker) : Prop :=
  ∃ done order, LinkersAt p texts start workers rank s tasks done order

theorem inv_start (positive : 0 < p.chunkSize) :
    ∃ rank, Inv p texts start workers rank { arena := start }
      (Multiset.replicate workers (.claiming 0)) := by
  refine ⟨_, 0, [], ?_, ?_, ?_, ?_, rfl⟩
  · simpa using Cursor.HandedOut.start positive
  · rw [Multiset.map_replicate]
    exact .refl fun _ member => ⟨[], Multiset.eq_of_mem_replicate member⟩
  · rw [bind_replicate_of_nil rfl, span_of_le (Nat.le_refl 0)]
    rfl
  · simp [Pusher.completes]

end

variable {p : ShardPlan} {texts : List Text} {start : Arena} {workers : Nat}

theorem descends (serves : p.Serves texts) (positive : 0 < p.chunkSize)
    (room : p.layout.size + workers * p.chunkSize ≤ Position.space)
    (all : start.Distinct (allJobs p.model texts)) :
    Descends (Linker.act p) (Inv p texts start workers) := by
  rintro s s' w w' acts others rank ⟨done, order, inv⟩
  cases w with
  | claiming own =>
      have cursor := inv.cursor
      simp only [Multiset.map_cons, Multiset.sum_cons, unfinished, Nat.add_comm 1] at cursor
      obtain ⟨c, found, -, after⟩ | ⟨stop, c, found, more, inside, after⟩ :=
        cursor.claim positive room
      · simp only [Linker.act, found] at acts
        obtain ⟨rfl, rfl⟩ := Prod.mk.inj (Option.some.inj acts)
        obtain ⟨lower, less, next⟩ := inv.finish after
        exact ⟨lower, less, done, order, next⟩
      · simp only [Linker.act, found, serves.jobs_eq inside] at acts
        obtain ⟨rfl, rfl⟩ := Prod.mk.inj (Option.some.inj acts)
        obtain ⟨lower, less, next⟩ := inv.take more inside after
        exact ⟨lower, less, stop, order, next⟩
  | pushing own pusher =>
      cases step : pusher.act s.arena with
      | none =>
          obtain rfl := Pusher.eq_ready_of_act_eq_none step
          obtain ⟨rfl, rfl⟩ := Prod.mk.inj (Option.some.inj acts)
          obtain ⟨lower, less, next⟩ := inv.back
          exact ⟨lower, less, done, order, next⟩
      | some after =>
          simp only [Linker.act, step] at acts
          obtain ⟨rfl, rfl⟩ := Prod.mk.inj (Option.some.inj acts)
          obtain ⟨lower, less, order', next⟩ := inv.push serves all step
          exact ⟨lower, less, done, order', next⟩
  | finished => cases acts

theorem eq_finished_of_act_eq_none {s : LinkingMemory} {w : Linker}
    (idle : Linker.act p s w = none) : w = .finished := by
  cases w with
  | claiming own =>
      simp only [Linker.act] at idle
      split at idle
      · cases idle
      · split at idle <;> cases idle
  | pushing own pusher =>
      simp only [Linker.act] at idle
      split at idle <;> cases idle
  | finished => rfl

variable (serves : p.Serves texts) (positive : 0 < p.chunkSize)
  (room : p.layout.size + workers * p.chunkSize ≤ Position.space)
  (all : start.Distinct (allJobs p.model texts))

include serves positive room all

theorem exists_completes : ∃ stop,
    Completes (Linker.act p) (.uniform workers { arena := start } (.claiming 0)) stop := by
  obtain ⟨rank, before⟩ := inv_start p texts start workers positive
  exact Interleaving.exists_completes (descends serves positive room all) before

/-- When all workers have finished, the links of all postings are in the arena, in the order in
which their heads were exchanged. -/
theorem exists_order_of_completes (some : 0 < workers) {stop : Team LinkingMemory Linker}
    (completes :
      Completes (Linker.act p) (.uniform workers { arena := start } (.claiming 0)) stop) :
    ∃ order : List Job, order.Perm (allJobs p.model texts) ∧
      stop.memory.arena = start.pushAll order ∧
      stop.memory.linked = (postings p.model texts).length := by
  obtain ⟨rank, before⟩ := inv_start p texts start workers positive
  obtain ⟨rank, done, order, cursor, pushing, jobs, counted, -⟩ :=
    completes.1.keeps (descends serves positive room all) before
  rw [completes.tasks_eq fun _ => eq_finished_of_act_eq_none] at cursor pushing jobs counted
  simp only [Multiset.map_replicate, Multiset.sum_replicate, unfinished, nsmul_zero] at cursor
  obtain rfl := cursor.done_eq some
  rw [Multiset.map_replicate] at pushing
  rw [bind_replicate_of_nil rfl, add_zero, Multiset.coe_eq_coe, span_zero, serves.size_layout,
    flatMap_jobsOf] at jobs
  refine ⟨order, jobs, pushing.eq_pushAll fun _ member => Multiset.eq_of_mem_replicate member, ?_⟩
  rw [← List.length_map (CorpusPosting.job p.model), ← allJobs, ← jobs.length_eq, ← counted]
  simp [Pusher.completes]

end Linker

end SharedRuns.Interleaving
