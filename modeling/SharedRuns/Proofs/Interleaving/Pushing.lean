import SharedRuns.Proofs.Interleaving.Team
import SharedRuns.Proofs.Shard.Chains

/-!
# Links that are pushed at the same time

Between the exchange of a head and the store of the old one a chain is in two pieces, and the cell
that joins them holds something stale. Workers that push at the same time leave many such cells.
What keeps is the arena as it will be once the stores that are due are done (`Arena.Due`): it is the
arena into which the links were put one after another, in the order in which their heads were
exchanged. An exchange puts one more link into it, and a store does not change it (`Pushing.act`).
-/

namespace SharedRuns

/-- The arena becomes `full` when the stores that are due are done: for each link in `due`, that of
the link that comes behind it. -/
structure Arena.Due (a full : Arena) (due : Multiset (Link × Link)) : Prop where
  heads : a.heads = full.heads
  size : a.links.size = full.links.size
  stored : ∀ i, (∀ d ∈ due, d.1.toNat ≠ i) → a.links[i]? = full.links[i]?
  unstored : ∀ d ∈ due, full.links[d.1.toNat]? = some d.2

namespace Arena.Due

variable {a full : Arena} {due : Multiset (Link × Link)} {job : Job} {link behind : Link}

theorem refl (a : Arena) : a.Due a 0 where
  heads := rfl
  size := rfl
  stored _ _ := rfl
  unstored _ member := absurd member (Multiset.notMem_zero _)

theorem eq (h : a.Due full 0) : a = full := by
  obtain ⟨heads, links⟩ := a
  obtain ⟨heads', links'⟩ := full
  obtain rfl : heads = heads' := h.heads
  obtain rfl : links = links' :=
    Array.ext_getElem? fun i => h.stored i fun d member => absurd member (Multiset.notMem_zero d)
  rfl

/-- Exchanging a head puts a link into the arena, with its store due. -/
theorem setHead (h : a.Due full due) (admits : full.Admits job)
    (apart : ∀ d ∈ due, d.1 ≠ job.link) :
    (a.setHead job.bin job.link).Due (full.push job) ((job.link, a.head job.bin) ::ₘ due) where
  heads := congrArg (·.setIfInBounds job.bin job.link) h.heads
  size := h.size.trans size_links_push.symm
  stored i others := by
    have other : job.link.toNat ≠ i :=
      others (job.link, a.head job.bin) (Multiset.mem_cons_self _ _)
    rw [links_push, Array.getElem?_setIfInBounds_ne other]
    exact h.stored i fun d member => others d (Multiset.mem_cons_of_mem member)
  unstored d member := by
    obtain rfl | earlier := Multiset.mem_cons.mp member
    · have same : full.head job.bin = a.head job.bin := by rw [head, head, h.heads]
      rw [links_push, Array.getElem?_setIfInBounds_self_of_lt admits.2, same]
    · have other : job.link.toNat ≠ d.1.toNat := fun same =>
        apart d earlier (UInt32.toNat_inj.mp same).symm
      rw [links_push, Array.getElem?_setIfInBounds_ne other]
      exact h.unstored d earlier

/-- Storing what is due brings nothing new. -/
theorem setNext (h : a.Due full ((link, behind) ::ₘ due)) :
    (a.setNext link behind).Due full due where
  heads := h.heads
  size := Array.size_setIfInBounds.trans h.size
  stored i others := by
    show (a.links.setIfInBounds link.toNat behind)[i]? = _
    by_cases here : link.toNat = i
    · subst here
      have there := h.unstored _ (Multiset.mem_cons_self _ _)
      have inside : link.toNat < a.links.size :=
        h.size ▸ (Array.getElem?_eq_some_iff.mp there).1
      rw [Array.getElem?_setIfInBounds_self_of_lt inside, there]
    · rw [Array.getElem?_setIfInBounds_ne here]
      refine h.stored i fun d member => ?_
      obtain rfl | earlier := Multiset.mem_cons.mp member
      · exact here
      · exact others d earlier
  unstored d member := h.unstored d (Multiset.mem_cons_of_mem member)

end Arena.Due

namespace Interleaving

namespace Pusher

/-- The store that is due, if any: a link with the one behind it. -/
def due : Pusher → Multiset (Link × Link)
  | .ready _ => 0
  | .untied job behind _ => {(job.link, behind)}

/-- The links that are still to be pushed. -/
def jobs : Pusher → List Job
  | .ready jobs => jobs
  | .untied _ _ jobs => jobs

/-- The number of actions that are left. -/
def rank : Pusher → Nat
  | .ready jobs => 2 * jobs.length
  | .untied _ _ jobs => 2 * jobs.length + 1

theorem eq_ready_of_act_eq_none {a : Arena} {pusher : Pusher} (idle : pusher.act a = none) :
    pusher = .ready [] := by
  cases pusher with
  | ready jobs =>
      cases jobs with
      | nil => rfl
      | cons => cases idle
  | untied => cases idle

@[simp] theorem bind_due_ready (jobs : List Job) (others : Multiset Pusher) :
    (ready jobs ::ₘ others).bind due = others.bind due := by
  simp [due]

@[simp] theorem bind_due_untied (job : Job) (behind : Link) (jobs : List Job)
    (others : Multiset Pusher) :
    (untied job behind jobs ::ₘ others).bind due = (job.link, behind) ::ₘ others.bind due := by
  simp [due]

theorem bind_due_of_ready {pushers : Multiset Pusher}
    (ready : ∀ pusher ∈ pushers, ∃ jobs, pusher = .ready jobs) : pushers.bind due = 0 := by
  refine Multiset.eq_zero_of_forall_notMem fun d member => ?_
  obtain ⟨pusher, inTeam, isDue⟩ := Multiset.mem_bind.mp member
  obtain ⟨jobs, rfl⟩ := ready pusher inTeam
  exact Multiset.notMem_zero d isDue

end Pusher

/-- Workers have exchanged heads for the links in `order`. Once the stores that are due are done,
the arena is the one into which these links were put one after another. -/
structure Pushing (start a : Arena) (order : List Job) (pushers : Multiset Pusher) : Prop where
  due : a.Due (start.pushAll order) (pushers.bind Pusher.due)
  exchanged : ∀ d ∈ pushers.bind Pusher.due, d.1 ∈ order.map Job.link

namespace Pushing

variable {start a a' : Arena} {order jobs : List Job} {pusher pusher' : Pusher}
  {others pushers : Multiset Pusher}

theorem refl (ready : ∀ pusher ∈ pushers, ∃ jobs, pusher = .ready jobs) :
    Pushing start start [] pushers := by
  have none := Pusher.bind_due_of_ready ready
  constructor
  · exact none ▸ .refl start
  · exact fun d member => absurd (none ▸ member) (Multiset.notMem_zero d)

/-- A worker with no store due may be given other links. -/
theorem hand (h : Pushing start a order (.ready jobs ::ₘ others)) (jobs' : List Job) :
    Pushing start a order (.ready jobs' ::ₘ others) := by
  obtain ⟨due, exchanged⟩ := h
  rw [Pusher.bind_due_ready] at due exchanged
  constructor
  · rwa [Pusher.bind_due_ready]
  · rwa [Pusher.bind_due_ready]

/-- An action of one worker: an exchange appends its link to the order, a store leaves it. -/
theorem act (h : Pushing start a order (pusher ::ₘ others))
    (distinct : start.Distinct (order ++ pusher.jobs))
    (acts : pusher.act a = some (a', pusher')) :
    ∃ order', Pushing start a' order' (pusher' ::ₘ others) ∧
      order' ++ pusher'.jobs = order ++ pusher.jobs ∧
      order'.length = order.length + pusher'.completes ∧ pusher'.rank + 1 = pusher.rank := by
  obtain ⟨due, exchanged⟩ := h
  cases pusher with
  | ready waiting =>
      cases waiting with
      | nil => cases acts
      | cons job rest =>
          obtain ⟨rfl, rfl⟩ := Prod.mk.inj (Option.some.inj acts)
          have admits : (start.pushAll order).Admits job := by
            rw [Arena.Admits, Arena.size_heads_pushAll, Arena.size_links_pushAll]
            exact distinct.admits job (by simp [Pusher.jobs])
          have apart : job.link ∉ order.map Job.link := by
            have nodup := distinct.nodup
            simp only [Pusher.jobs, List.map_append, List.map_cons, List.nodup_append] at nodup
            exact fun member => nodup.2.2 _ member _ List.mem_cons_self rfl
          rw [Pusher.bind_due_ready] at due exchanged
          refine ⟨order ++ [job], ⟨?_, ?_⟩, by simp [Pusher.jobs], by simp [Pusher.completes], ?_⟩
          · rw [Arena.pushAll_concat, Pusher.bind_due_untied]
            exact due.setHead admits fun d member same => apart (same ▸ exchanged d member)
          · intro d member
            rw [Pusher.bind_due_untied] at member
            obtain rfl | earlier := Multiset.mem_cons.mp member
            · simp
            · rw [List.map_append]
              exact List.mem_append_left _ (exchanged d earlier)
          · simp [Pusher.rank, Nat.mul_succ]
  | untied job behind rest =>
      obtain ⟨rfl, rfl⟩ := Prod.mk.inj (Option.some.inj acts)
      rw [Pusher.bind_due_untied] at due exchanged
      refine ⟨order, ⟨?_, ?_⟩, rfl, rfl, rfl⟩
      · rw [Pusher.bind_due_ready]
        exact due.setNext
      · rw [Pusher.bind_due_ready]
        exact fun d member => exchanged d (Multiset.mem_cons_of_mem member)

/-- When every worker has pushed its links, so the links are in the arena. -/
theorem eq_pushAll (h : Pushing start a order pushers)
    (ready : ∀ pusher ∈ pushers, pusher = .ready []) : a = start.pushAll order :=
  (Pusher.bind_due_of_ready (fun pusher member => ⟨[], ready pusher member⟩) ▸ h.due).eq

end Pushing

end Interleaving

end SharedRuns
