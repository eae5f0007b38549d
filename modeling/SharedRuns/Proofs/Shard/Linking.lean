import SharedRuns.Proofs.Postings
import SharedRuns.Proofs.Shard.Chains
import SharedRuns.Proofs.Shard.Corpus
import SharedRuns.Proofs.Shard.Crew

/-!
# What the linking phase leaves in the arena

The linking phase puts the links of all postings into the arena, in the order of the postings
(`ShardPlan.Serves.forM_linkAt_range`). Since links are numbered without repetition, the chain of
each bin then lists the postings of the bin, the newest first, whatever the arena held before
(`ShardPlan.Serves.chain_jobs`).
-/

namespace SharedRuns

open Checked

/-- Going through the entries with their numbers is going through the numbers. -/
theorem flatMap_zipIdx {α β : Type} (xs : List α) (f : α × Nat → List β) :
    xs.zipIdx.flatMap f =
      (List.range xs.length).flatMap fun i => xs[i]?.toList.flatMap fun x => f (x, i) := by
  induction xs using List.reverseRecOn with
  | nil => rfl
  | append_singleton earlier x ih =>
      rw [List.zipIdx_append, List.flatMap_append, ih, List.length_append, List.length_singleton,
        List.range_succ, List.flatMap_append]
      congr 1
      · refine List.flatMap_congr fun i member => ?_
        rw [List.getElem?_append_left (List.mem_range.mp member)]
      · simp

namespace ShardPlan

section

variable {p : ShardPlan} {arena : Arena} {jobs : List Job}

theorem forM_pushLink (admits : ∀ job ∈ jobs, arena.Admits job) (linked : Nat) :
    jobs.forM pushLink { arena, linked } =
      (.ok (), { arena := arena.pushAll jobs, linked := linked + jobs.length }) := by
  induction jobs generalizing arena linked with
  | nil => rfl
  | cons job rest ih =>
      rw [List.forall_mem_cons] at admits
      have first : pushLink job { arena, linked } =
          (.ok (), { arena := arena.push job, linked := linked + 1 }) := if_pos admits.1
      have others : ∀ j ∈ rest, (arena.push job).Admits j := by
        intro j member
        rw [Arena.Admits, Arena.size_heads_push, Arena.size_links_push]
        exact admits.2 j member
      rw [Work.forM_cons, Work.bind_of_ok first, ih others, List.length_cons, Nat.add_right_comm,
        Nat.add_assoc]
      rfl

theorem linkAt_ok {pos : Nat} (found : p.jobsAt pos = .ok jobs)
    (admits : ∀ job ∈ jobs, arena.Admits job) (linked : Nat) :
    p.linkAt pos { arena, linked } =
      (.ok (), { arena := arena.pushAll jobs, linked := linked + jobs.length }) := by
  have known : (Work.ofExcept (p.jobsAt pos) : Work LinkMemory (List Job)) { arena, linked } =
      (.ok jobs, { arena, linked }) := by
    rw [found]
    rfl
  rw [linkAt, Work.bind_of_ok known, forM_pushLink admits]

/-- Positions are linked one after another. -/
theorem forM_linkAt {positions : List Nat} {jobs : Nat → List Job}
    (found : ∀ pos ∈ positions, p.jobsAt pos = .ok (jobs pos))
    (admits : ∀ job ∈ positions.flatMap jobs, arena.Admits job) (linked : Nat) :
    positions.forM p.linkAt { arena, linked } =
      (.ok (), { arena := arena.pushAll (positions.flatMap jobs)
                 linked := linked + (positions.flatMap jobs).length }) := by
  induction positions generalizing arena linked with
  | nil => rfl
  | cons pos rest ih =>
      rw [List.forall_mem_cons] at found
      rw [List.flatMap_cons, List.forall_mem_append] at admits
      have first := linkAt_ok found.1 admits.1 linked
      have others : ∀ job ∈ rest.flatMap jobs, (arena.pushAll (jobs pos)).Admits job := by
        intro job member
        rw [Arena.Admits, Arena.size_heads_pushAll, Arena.size_links_pushAll]
        exact admits.2 job member
      rw [Work.forM_cons, Work.bind_of_ok first, ih found.2 others, List.flatMap_cons,
        List.length_append, Nat.add_assoc, Arena.pushAll, Arena.pushAll, ← List.foldl_append]
      rfl

end

namespace Serves

variable {p : ShardPlan} {texts : List Text} {arena : Arena}

/-- The jobs of all postings, in their order. -/
def allJobs (m : Stencil) (texts : List Text) : List Job :=
  (postings m texts).map (CorpusPosting.job m)

/-- The jobs of the postings at a position of the layout. -/
def jobsOf (m : Stencil) (texts : List Text) (pos : Nat) : List Job :=
  (spots 0 texts)[pos]?.toList.flatMap fun s =>
    (postingsAt m s.1 s.2 pos).map (CorpusPosting.job m)

theorem flatMap_jobsOf (m : Stencil) (texts : List Text) :
    (List.range (ShardEngine.symbolCount texts)).flatMap (jobsOf m texts) = allJobs m texts := by
  rw [allJobs, postings, List.map_flatMap, flatMap_zipIdx, length_spots]
  rfl

theorem jobsAt_eq_jobsOf (serves : p.Serves texts) {pos : Nat}
    (inside : pos < ShardEngine.symbolCount texts) :
    p.jobsAt pos = .ok (jobsOf p.model texts pos) := by
  rw [← length_spots 0] at inside
  obtain ⟨⟨t, place⟩, spot⟩ : ∃ s, (spots 0 texts)[pos]? = some s :=
    ⟨_, List.getElem?_eq_getElem inside⟩
  rw [serves.jobsAt_eq spot, jobsOf, spot, Option.toList_some, List.flatMap_singleton]

theorem jobs_eq (serves : p.Serves texts) {first stop : Nat} (inside : stop ≤ p.layout.size) :
    p.jobs first stop = .ok ((span first stop).flatMap (jobsOf p.model texts)) := by
  have found : (span first stop).mapM p.jobsAt =
      .ok ((span first stop).map (jobsOf p.model texts)) := by
    refine mapM_ok fun pos member => serves.jobsAt_eq_jobsOf ?_
    rw [← serves.size_layout]
    exact Nat.lt_of_lt_of_le (mem_span.mp member).2 inside
  rw [jobs, found, ok_bind, pure_eq_ok, List.flatMap_def]

/-- An arena that was prepared for the corpus has a bin and a cell of its own for each posting. -/
theorem distinct (serves : p.Serves texts) (heads : arena.heads.size = binCount)
    (cells : ShardEngine.symbolCount texts * p.model.patternCount ≤ arena.links.size) :
    arena.Distinct (allJobs p.model texts) where
  admits job member := by
    obtain ⟨x, inCorpus, rfl⟩ := List.mem_map.mp member
    refine ⟨?_, ?_⟩
    · rw [heads]
      exact binNumber_lt _
    · rw [serves.toNat_link inCorpus]
      exact Nat.lt_of_lt_of_le (SharedRuns.link_lt inCorpus) cells
  real job member := by
    obtain ⟨x, inCorpus, rfl⟩ := List.mem_map.mp member
    intro atEnd
    have less := serves.link_lt inCorpus
    rw [← serves.toNat_link inCorpus, atEnd] at less
    exact Nat.lt_irrefl _ less
  nodup := by
    rw [allJobs, List.map_map, List.Nodup, List.pairwise_map]
    refine postings_ascending.imp_of_mem ?_
    intro x y memberX memberY less same
    have numbers : x.link p.model = y.link p.model := by
      rw [← serves.toNat_link memberX, ← serves.toNat_link memberY]
      exact congrArg UInt32.toNat same
    omega

/-- All positions are linked without a fault. -/
theorem forM_linkAt_range (serves : p.Serves texts)
    (distinct : arena.Distinct (allJobs p.model texts)) (linked : Nat) :
    (List.range p.layout.size).forM p.linkAt { arena, linked } =
      (.ok (), { arena := arena.pushAll (allJobs p.model texts)
                 linked := linked + (postings p.model texts).length }) := by
  have size := serves.size_layout
  have found : ∀ pos ∈ List.range p.layout.size, p.jobsAt pos = .ok (jobsOf p.model texts pos) :=
    fun pos member => serves.jobsAt_eq_jobsOf (size ▸ List.mem_range.mp member)
  have all := flatMap_jobsOf p.model texts
  rw [← size] at all
  have linkedAll := forM_linkAt found (all ▸ distinct.admits) linked
  rw [all] at linkedAll
  rw [linkedAll, allJobs, List.length_map]

/-- After postings were linked, the chain of a bin leads to the bin's postings, the newest first. -/
theorem chain_jobs {m : Stencil} {xs : List CorpusPosting}
    (distinct : arena.Distinct (xs.map (CorpusPosting.job m)))
    (heads : arena.heads.size = binCount) (cleared : ∀ bin, arena.head bin = chainEnd)
    (room : Nat) {bin : Nat} (inside : bin < binCount) :
    (arena.pushAll (xs.map (CorpusPosting.job m))).chain room bin =
      .ok (((bucket (CorpusPosting.bin m) xs bin).reverse.map fun x => (x.job m).link).take
        room) := by
  have present : bin < (arena.pushAll (xs.map (CorpusPosting.job m))).heads.size := by
    rwa [Arena.size_heads_pushAll, heads]
  have links : Arena.chainOf (xs.map (CorpusPosting.job m)) bin =
      (bucket (CorpusPosting.bin m) xs bin).reverse.map fun x => (x.job m).link := by
    rw [Arena.chainOf, bucket, List.filter_map, ← List.map_reverse, List.map_map]
    rfl
  rw [← links]
  exact Arena.chain_of_leads present (Arena.leads_pushAll distinct cleared bin)

end Serves

end ShardPlan

end SharedRuns
