import SharedRuns.Proofs.Interleaving.Pushing

/-!
# Chains built by workers that interleave

A set of links is distributed over workers, and each of them pushes its own links one after another.
The order in which the heads are exchanged is a merge of the workers' own orders, and it alone
decides what the chains are: when all stores are done, the arena is the one into which the links
were put in this order. So every chain comes to an end and lists the links of its bin, each once,
whatever the cells held before (`chains_of_pushers`). For one worker the order is its own.
-/

namespace SharedRuns.Interleaving

/-- The links in `order` were exchanged, the others of `all` wait with some worker. A worker without
others has its links exchanged in their order. -/
structure PushersAt (start : Arena) (all : List Job) (rank : Nat) (a : Arena)
    (pushers : Multiset Pusher) (order : List Job) : Prop where
  pushing : Pushing start a order pushers
  jobs : (order : Multiset Job) + (pushers.bind fun w => (w.jobs : Multiset Job)) =
    (all : Multiset Job)
  alone : ∀ w, pushers = {w} → order ++ w.jobs = all
  rank_eq : (pushers.map Pusher.rank).sum = rank

namespace PushersAt

variable {start a a' : Arena} {all order : List Job} {rank : Nat} {w w' : Pusher}
  {others pushers : Multiset Pusher}

/-- The links that were exchanged and those that a worker still has are some of all links. -/
theorem distinct (h : PushersAt start all rank a (w ::ₘ others) order)
    (distinct : start.Distinct all) : start.Distinct (order ++ w.jobs) := by
  refine distinct.of_subperm (Multiset.coe_le.mp ?_)
  rw [← h.jobs, ← Multiset.coe_add, Multiset.cons_bind, ← add_assoc]
  exact Multiset.le_add_right _ _

theorem act (h : PushersAt start all rank a (w ::ₘ others) order) (distinct : start.Distinct all)
    (acts : w.act a = some (a', w')) :
    ∃ lower < rank, ∃ order', PushersAt start all lower a' (w' ::ₘ others) order' := by
  obtain ⟨order', pushing, same, -, less⟩ := h.pushing.act (h.distinct distinct) acts
  obtain ⟨-, jobs, alone, rfl⟩ := h
  refine ⟨_, ?_, order', pushing, ?_, ?_, rfl⟩
  · simp only [Multiset.map_cons, Multiset.sum_cons]
    omega
  · rw [← jobs, Multiset.cons_bind, Multiset.cons_bind, ← add_assoc, ← add_assoc, Multiset.coe_add,
      Multiset.coe_add, same]
  · intro v single
    obtain ⟨rfl, rfl⟩ := (Multiset.singleton_eq_cons_iff _).mp single.symm
    rw [same]
    exact alone w rfl

/-- When no worker has a link left, the links are in the arena in the order of the exchanges. -/
theorem eq_pushAll (h : PushersAt start all rank a pushers order)
    (ready : ∀ w ∈ pushers, w = .ready []) : order.Perm all ∧ a = start.pushAll order := by
  refine ⟨?_, h.pushing.eq_pushAll ready⟩
  have none : (pushers.bind fun w => (w.jobs : Multiset Job)) = 0 := by
    refine Multiset.eq_zero_of_forall_notMem fun job member => ?_
    obtain ⟨w, inTeam, waiting⟩ := Multiset.mem_bind.mp member
    rw [ready w inTeam] at waiting
    exact Multiset.notMem_zero job waiting
  rw [← Multiset.coe_eq_coe, ← h.jobs, none, add_zero]

end PushersAt

/-- What the workers have pushed, in any order. -/
def Pusher.Inv (start : Arena) (all : List Job) (rank : Nat) (a : Arena)
    (pushers : Multiset Pusher) : Prop :=
  ∃ order, PushersAt start all rank a pushers order

theorem Pusher.descends {start : Arena} {all : List Job} (distinct : start.Distinct all) :
    Descends Pusher.act (Pusher.Inv start all) := by
  rintro a a' w w' acts others rank ⟨order, inv⟩
  obtain ⟨lower, less, order', next⟩ := inv.act distinct acts
  exact ⟨lower, less, order', next⟩

theorem Pusher.inv_start (start : Arena) (batches : List (List Job)) :
    ∃ rank, Pusher.Inv start batches.flatten rank start (batches.map Pusher.ready) := by
  refine ⟨_, [], .refl ?_, ?_, ?_, rfl⟩
  · intro w member
    obtain ⟨jobs, -, rfl⟩ := List.mem_map.mp member
    exact ⟨jobs, rfl⟩
  · rw [Multiset.coe_bind, Multiset.coe_nil, zero_add, List.flatMap_map, List.flatten_eq_flatMap]
    rfl
  · intro w single
    obtain ⟨jobs, rfl, rfl⟩ := List.map_eq_singleton_iff.mp (Multiset.coe_eq_singleton.mp single)
    exact (List.flatten_singleton ..).symm

/-- However workers that push links interleave, they can go on to an end. Then the chain of each bin
comes to an end too, and lists the links of the bin, each once; if one worker pushed them all, the
last one first. -/
theorem chains_of_pushers {start : Arena} {batches : List (List Job)}
    (distinct : start.Distinct batches.flatten) (cleared : ∀ bin, start.head bin = chainEnd) :
    let team : Team Arena Pusher := { memory := start, tasks := batches.map .ready }
    (∀ middle, Steps Pusher.act team middle → ∃ stop, Completes Pusher.act middle stop) ∧
      ∀ stop, Completes Pusher.act team stop → ∀ bin < start.heads.size,
        ∃ links, stop.memory.Leads (stop.memory.head bin) links ∧
          (∀ room, stop.memory.chain room bin = .ok (links.take room)) ∧
          links.Nodup ∧ (∀ link, link ∈ links ↔ { link, bin } ∈ batches.flatten) ∧
          ∀ jobs, batches = [jobs] →
            links = ((jobs.filter fun job => job.bin = bin).map Job.link).reverse := by
  intro team
  have descends := Pusher.descends distinct
  obtain ⟨rank, before⟩ := Pusher.inv_start start batches
  constructor
  · intro middle steps
    obtain ⟨lower, kept⟩ := Steps.keeps steps descends before
    exact exists_completes descends kept
  · rintro stop ⟨steps, finished⟩ bin inside
    obtain ⟨lower, order, kept⟩ := Steps.keeps steps descends before
    obtain ⟨perm, arena⟩ := kept.eq_pushAll fun w member =>
      Pusher.eq_ready_of_act_eq_none (finished w member)
    have exchanged := distinct.of_subperm perm.subperm
    have leads := Arena.leads_pushAll exchanged cleared bin
    have present : bin < (start.pushAll order).heads.size := by rwa [Arena.size_heads_pushAll]
    rw [arena]
    refine ⟨Arena.chainOf order bin, leads, fun room => Arena.chain_of_leads present leads,
      Arena.nodup_chainOf exchanged.nodup bin,
      fun link => Arena.mem_chainOf.trans perm.mem_iff, ?_⟩
    rintro jobs rfl
    obtain ⟨w, single⟩ := List.length_eq_one_iff.mp steps.length_tasks
    have idle := Pusher.eq_ready_of_act_eq_none (finished w (by simp [single]))
    have own := kept.alone w (by rw [single, Multiset.coe_singleton])
    rw [idle, Pusher.jobs, List.append_nil, List.flatten_singleton] at own
    rw [own, Arena.chainOf, List.map_reverse]
    rfl

/-- Two workers exchange the head of one bin before either of them stores what was behind. The cells
hold links to one another and to no cell at first. -/
theorem chains_of_two_pushers :
    let start : Arena := { heads := #[chainEnd, chainEnd], links := #[2, 0, 0, 9] }
    let batches : List (List Job) := [[⟨0, 1⟩, ⟨3, 0⟩], [⟨2, 1⟩]]
    ∃ stop, start.Distinct batches.flatten ∧ (∀ bin, start.head bin = chainEnd) ∧
      Completes Pusher.act { memory := start, tasks := batches.map .ready } stop ∧
      1 < start.heads.size ∧
      ∃ links, stop.memory.Leads (stop.memory.head 1) links ∧ links.Nodup ∧
        ∀ link, link ∈ links ↔ link = 0 ∨ link = 2 := by
  intro start batches
  have distinct : start.Distinct batches.flatten := ⟨by decide, by decide, by decide⟩
  have cleared (bin : Nat) : start.head bin = chainEnd := by
    match bin with
    | 0 => rfl
    | 1 => rfl
    | bin + 2 => rfl
  let team : Team Arena Pusher := { memory := start, tasks := batches.map .ready }
  have completes : Completes Pusher.act team (team.follow Pusher.act [0, 1, 1, 0, 0, 0]) :=
    ⟨steps_follow team _, by decide⟩
  have two : 1 < start.heads.size := by decide
  obtain ⟨links, leads, -, nodup, members, -⟩ :=
    (chains_of_pushers distinct cleared).2 _ completes 1 two
  exact ⟨_, distinct, cleared, completes, two, links, leads, nodup,
    fun link => (members link).trans (by simp [batches])⟩

end SharedRuns.Interleaving
