import Mathlib.Data.List.Induction
import Mathlib.Data.List.Perm.Subperm
import SharedRuns.Proofs.Checked
import SharedRuns.Proofs.SuffixSort.Buckets
import SharedRuns.Shard.Layout

/-!
# Chains as lists

A chain stands for the list of links that are met when it is followed (`Arena.Leads`). A link that
is put in front of a chain changes no other chain, since only its own cell is written and no other
chain comes through that cell. So after any number of links that differ from one another, the chain
of each bin lists the links of the bin, the newest first (`Arena.leads_pushAll`). What the cells
held before is never met.
-/

namespace SharedRuns.Arena

/-- Following the chain from a link on meets these links, each with a cell, and comes to its end. -/
inductive Leads (a : Arena) : Link → List Link → Prop
  | done : a.Leads chainEnd []
  | step {link next : Link} {rest : List Link} (real : link ≠ chainEnd)
      (cell : a.links[link.toNat]? = some next) (more : a.Leads next rest) :
      a.Leads link (link :: rest)

variable {a : Arena} {link : Link} {links : List Link}

/-- A chain is followed to its end, or until there is no room. -/
theorem follow_of_leads (leads : a.Leads link links) (room : Nat) :
    a.follow room link = .ok (links.take room) := by
  induction leads generalizing room with
  | done => cases room <;> rfl
  | @step link next rest real cell more ih =>
      cases room with
      | zero => rfl
      | succ room =>
          have fetched : Checked.fetch a.links link.toNat = .ok next := by
            rw [Checked.fetch, cell, Fault.within_some]
          rw [follow, if_neg real, fetched, Checked.ok_bind, ih, Checked.ok_bind]
          rfl

section

variable {job : Job}

theorem links_push : (a.push job).links = a.links.setIfInBounds job.link.toNat (a.head job.bin) :=
  rfl

theorem heads_push : (a.push job).heads = a.heads.setIfInBounds job.bin job.link := rfl

@[simp] theorem size_links_push : (a.push job).links.size = a.links.size := by
  rw [links_push, Array.size_setIfInBounds]

@[simp] theorem size_heads_push : (a.push job).heads.size = a.heads.size := by
  rw [heads_push, Array.size_setIfInBounds]

theorem head_push_of_ne {bin : Nat} (other : bin ≠ job.bin) :
    (a.push job).head bin = a.head bin := by
  simp [head, heads_push, other.symm]

theorem head_push_self (admits : a.Admits job) : (a.push job).head job.bin = job.link := by
  simp [head, heads_push, admits.1]

/-- A chain that does not come through the new link stays as it was. -/
theorem Leads.push (leads : a.Leads link links) (apart : job.link ∉ links) :
    (a.push job).Leads link links := by
  induction leads with
  | done => exact .done
  | @step link next rest real cell more ih =>
      rw [List.mem_cons, not_or] at apart
      have other : job.link.toNat ≠ link.toNat := fun same => apart.1 (UInt32.toNat_inj.mp same)
      refine .step real ?_ (ih apart.2)
      rw [links_push, Array.getElem?_setIfInBounds_ne other, cell]

/-- The new link leads to the chain in front of which it was put. -/
theorem Leads.push_front (admits : a.Admits job) (real : job.link ≠ chainEnd)
    (leads : a.Leads (a.head job.bin) links) (apart : job.link ∉ links) :
    (a.push job).Leads job.link (job.link :: links) := by
  refine .step real ?_ (leads.push apart)
  rw [links_push, Array.getElem?_setIfInBounds_self_of_lt admits.2]

end

/-- The links of a bin, the newest first. -/
def chainOf (jobs : List Job) (bin : Nat) : List Link :=
  (bucket Job.bin jobs bin).reverse.map Job.link

theorem mem_chainOf {jobs : List Job} {bin : Nat} :
    link ∈ chainOf jobs bin ↔ { link, bin } ∈ jobs := by
  simp only [chainOf, List.mem_map, List.mem_reverse, mem_bucket]
  constructor
  · rintro ⟨job, ⟨member, rfl⟩, rfl⟩
    exact member
  · exact fun member => ⟨_, ⟨member, rfl⟩, rfl⟩

theorem nodup_chainOf {jobs : List Job} (nodup : (jobs.map Job.link).Nodup) (bin : Nat) :
    (chainOf jobs bin).Nodup := by
  rw [chainOf, List.map_reverse, List.nodup_reverse]
  exact nodup.sublist (List.filter_sublist.map Job.link)

/-- The arena after links were put into it one after another. -/
def pushAll (a : Arena) (jobs : List Job) : Arena := jobs.foldl (fun a job => a.push job) a

theorem pushAll_concat (jobs : List Job) (job : Job) :
    a.pushAll (jobs ++ [job]) = (a.pushAll jobs).push job := by
  rw [pushAll, List.foldl_append]
  rfl

@[simp] theorem size_links_pushAll (jobs : List Job) :
    (a.pushAll jobs).links.size = a.links.size := by
  induction jobs using List.reverseRecOn with
  | nil => rfl
  | append_singleton earlier job ih => rw [pushAll_concat, size_links_push, ih]

@[simp] theorem size_heads_pushAll (jobs : List Job) :
    (a.pushAll jobs).heads.size = a.heads.size := by
  induction jobs using List.reverseRecOn with
  | nil => rfl
  | append_singleton earlier job ih => rw [pushAll_concat, size_heads_push, ih]

/-- Jobs that can be done one after another: each has its bin and a cell of its own. -/
structure Distinct (a : Arena) (jobs : List Job) : Prop where
  admits : ∀ job ∈ jobs, a.Admits job
  real : ∀ job ∈ jobs, job.link ≠ chainEnd
  nodup : (jobs.map Job.link).Nodup

/-- Some of the jobs, in any order, can be done one after another too. -/
theorem Distinct.of_subperm {jobs some : List Job} (distinct : a.Distinct jobs)
    (among : List.Subperm some jobs) : a.Distinct some where
  admits job member := distinct.admits job (among.subset member)
  real job member := distinct.real job (among.subset member)
  nodup := by
    obtain ⟨same, perm, sublist⟩ := among
    exact (perm.map Job.link).nodup_iff.mp (distinct.nodup.sublist (sublist.map Job.link))

/-- If all chains were empty, the chain of each bin lists its links, the newest first. -/
theorem leads_pushAll {jobs : List Job} (distinct : a.Distinct jobs)
    (cleared : ∀ bin, a.head bin = chainEnd) (bin : Nat) :
    (a.pushAll jobs).Leads ((a.pushAll jobs).head bin) (chainOf jobs bin) := by
  induction jobs using List.reverseRecOn generalizing bin with
  | nil =>
      rw [pushAll, List.foldl_nil, cleared]
      exact .done
  | append_singleton earlier job ih =>
      obtain ⟨admits, real, nodup⟩ := distinct
      rw [List.map_append, List.nodup_append] at nodup
      have before := ih ⟨fun j member => admits j (List.mem_append_left _ member),
        fun j member => real j (List.mem_append_left _ member), nodup.1⟩
      have apart : ∀ bin, job.link ∉ chainOf earlier bin := by
        intro bin member
        exact nodup.2.2 _ (List.mem_map_of_mem (mem_chainOf.mp member)) _ (by simp) rfl
      have admitted : (a.pushAll earlier).Admits job := by
        have here := admits job (by simp)
        rwa [Admits, size_heads_pushAll, size_links_pushAll]
      rw [pushAll_concat]
      by_cases same : bin = job.bin
      · subst same
        have chain : chainOf (earlier ++ [job]) job.bin = job.link :: chainOf earlier job.bin := by
          simp [chainOf, bucket_concat_self]
        rw [head_push_self admitted, chain]
        exact .push_front admitted (real job (by simp)) (before job.bin) (apart job.bin)
      · have chain : chainOf (earlier ++ [job]) bin = chainOf earlier bin := by
          rw [chainOf, bucket_concat_of_ne same, chainOf]
        rw [head_push_of_ne same, chain]
        exact (before bin).push (apart bin)

theorem fetch_head {bin : Nat} (present : bin < a.heads.size) :
    Checked.fetch a.heads bin = .ok (a.head bin) := by
  rw [Checked.fetch_of_lt present, head, Array.getD_eq_getD_getElem?,
    Array.getElem?_eq_getElem present, Option.getD_some]

theorem chain_of_leads {room bin : Nat} (present : bin < a.heads.size)
    (leads : a.Leads (a.head bin) links) : a.chain room bin = .ok (links.take room) := by
  rw [chain, fetch_head present, Checked.ok_bind, follow_of_leads leads]

@[simp] theorem size_heads_prepare (cells : Nat) : (a.prepare cells).heads.size = a.heads.size :=
  Array.size_replicate

theorem head_prepare (cells bin : Nat) : (a.prepare cells).head bin = chainEnd := by
  simp only [head, prepare, Array.getD_eq_getD_getElem?, Array.getElem?_replicate]
  split <;> rfl

theorem le_size_links_prepare (cells : Nat) : cells ≤ (a.prepare cells).links.size := by
  show cells ≤ (a.links ++ Array.replicate (cells - a.links.size) chainEnd).size
  rw [Array.size_append, Array.size_replicate]
  omega

end SharedRuns.Arena
