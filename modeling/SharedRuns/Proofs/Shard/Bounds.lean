import SharedRuns.Proofs.Shard.Engine

/-!
# A search of the sharded engine keeps to its arrays

A chain is followed through cells of the arena, and each link on it is looked up in the layout. That
no access leaves its array does not depend on the order in which the links were put into the arena,
nor on each of them being put there once: a cursor that wraps around hands out positions again, and
a chain may then run in a circle. What is kept is that chains lead through links of postings only
(`ShardPlan.Holds`). Each of these has a cell and a place where its pattern fits. So workers are
stopped by their visitor and by nothing else (`ShardEngine.stopped_of_search`).
-/

namespace SharedRuns

open Checked

namespace Arena

/-- The end of a chain, or a link that was put into one. -/
def Onward (entered : Link → Prop) (link : Link) : Prop := link = chainEnd ∨ entered link

/-- The chains of an arena lead from one entered link to another, each with a cell. What stands in
the cell of a link whose store is due is of no account. -/
structure Closed (a : Arena) (entered due : Link → Prop) : Prop where
  heads : ∀ bin, Onward entered (a.head bin)
  cells : ∀ link, entered link → link.toNat < a.links.size
  behind : ∀ link next, entered link → ¬ due link → a.links[link.toNat]? = some next →
    Onward entered next

/-- No store is due. -/
def NoneDue (_ : Link) : Prop := False

variable {a : Arena} {entered entered' due due' : Link → Prop} {link next : Link} {job : Job}

theorem Onward.mono (onward : Onward entered link) (more : ∀ l, entered l → entered' l) :
    Onward entered' link :=
  onward.imp_right (more link)

/-- Before a run no link has been entered, whatever the cells hold. -/
theorem closed_prepare (a : Arena) (cells : Nat) :
    (a.prepare cells).Closed (fun _ => False) NoneDue where
  heads bin := .inl (head_prepare cells bin)
  cells _ never := never.elim
  behind _ _ never := never.elim

theorem head_setHead_self_or (a : Arena) (bin other : Nat) (link : Link) :
    (a.setHead bin link).head other = link ∨ (a.setHead bin link).head other = a.head other := by
  show (a.heads.setIfInBounds bin link).getD other chainEnd = link ∨
    (a.heads.setIfInBounds bin link).getD other chainEnd = a.heads.getD other chainEnd
  simp only [Array.getD_eq_getD_getElem?, Array.getElem?_setIfInBounds]
  split
  · split
    · exact .inl rfl
    · next same outside =>
      subst same
      exact .inr (by rw [Array.getElem?_eq_none (Nat.le_of_not_lt outside)])
  · exact .inr rfl

/-- A link becomes the head of a chain, and its store is due. -/
theorem Closed.setHead (closed : a.Closed entered due) (cell : job.link.toNat < a.links.size)
    (now : due' job.link) (still : ∀ l, due l → due' l) :
    (a.setHead job.bin job.link).Closed (fun l => l = job.link ∨ entered l) due' where
  heads bin := by
    rcases head_setHead_self_or a job.bin bin job.link with new | old
    · exact .inr (.inl new)
    · rw [old]
      exact (closed.heads bin).mono fun _ => .inr
  cells link member := by
    rcases member with rfl | earlier
    · exact cell
    · exact closed.cells link earlier
  behind link next member undue stored := by
    rcases member with rfl | earlier
    · exact absurd now undue
    · exact (closed.behind link next earlier (fun isDue => undue (still link isDue)) stored).mono
        fun _ => .inr

/-- A store that is due is done. Another one may be due for the same link. -/
theorem Closed.setNext (closed : a.Closed entered due) (onward : Onward entered next)
    (others : ∀ l, due l → l = link ∨ due' l) : (a.setNext link next).Closed entered due' where
  heads := closed.heads
  cells l member := Nat.lt_of_lt_of_eq (closed.cells l member) Array.size_setIfInBounds.symm
  behind l next' member undue stored := by
    change (a.links.setIfInBounds link.toNat next)[l.toNat]? = some next' at stored
    by_cases here : link.toNat = l.toNat
    · rw [here, Array.getElem?_setIfInBounds_self_of_lt (closed.cells l member)] at stored
      exact Option.some.inj stored ▸ onward
    · rw [Array.getElem?_setIfInBounds_ne here] at stored
      refine closed.behind l next' member (fun isDue => ?_) stored
      rcases others l isDue with rfl | still
      · exact here rfl
      · exact undue still

theorem Closed.push (closed : a.Closed entered NoneDue) (cell : job.link.toNat < a.links.size) :
    (a.push job).Closed (fun l => l = job.link ∨ entered l) NoneDue := by
  have untied : (a.setHead job.bin job.link).Closed (fun l => l = job.link ∨ entered l)
      (fun l => l = job.link) := closed.setHead cell rfl fun _ => False.elim
  exact untied.setNext ((closed.heads job.bin).mono fun _ => .inr) fun _ => .inl

/-- Following a chain meets entered links only, and does not fault. -/
theorem Closed.follow (closed : a.Closed entered NoneDue) (room : Nat)
    (onward : Onward entered link) :
    ∃ links, a.follow room link = .ok links ∧ ∀ l ∈ links, entered l := by
  induction room generalizing link with
  | zero => exact ⟨[], rfl, nofun⟩
  | succ room ih =>
      by_cases done : link = chainEnd
      · exact ⟨[], by rw [Arena.follow, if_pos done]; rfl, nofun⟩
      · have member : entered link := onward.resolve_left done
        have cell := closed.cells link member
        obtain ⟨links, followed, met⟩ := ih
          (closed.behind link _ member id (Array.getElem?_eq_getElem cell))
        refine ⟨link :: links, ?_, List.forall_mem_cons.mpr ⟨member, met⟩⟩
        rw [Arena.follow, if_neg done, fetch_of_lt cell, ok_bind, followed]
        rfl

theorem Closed.chain (closed : a.Closed entered NoneDue) (room : Nat) {bin : Nat}
    (present : bin < a.heads.size) :
    ∃ links, a.chain room bin = .ok links ∧ ∀ l ∈ links, entered l := by
  rw [Arena.chain, fetch_head present, ok_bind]
  exact closed.follow room (closed.heads bin)

end Arena

namespace ShardPlan

/-- The link of a posting of the corpus. -/
def Posted (p : ShardPlan) (texts : List Text) (link : Link) : Prop :=
  ∃ x ∈ postings p.model texts, (x.job p.model).link = link

/-- The arena has a bin and a cell for each posting of the corpus, and its chains lead through links
of postings. -/
structure Holds (p : ShardPlan) (texts : List Text) (a : Arena) (entered due : Link → Prop) :
    Prop where
  heads : a.heads.size = binCount
  room : ShardEngine.symbolCount texts * p.model.patternCount ≤ a.links.size
  closed : a.Closed entered due
  posted : ∀ link, entered link → p.Posted texts link

/-- No store is due, so that the chains can be followed. -/
def Tied (p : ShardPlan) (texts : List Text) (a : Arena) : Prop :=
  ∃ entered, p.Holds texts a entered Arena.NoneDue

/-- A payload with which a visitor stops a worker. -/
def Raises {σ : Type} (visit : Visitor σ) (payload : Payload) : Prop :=
  ∃ found seen, (visit found seen).1 = .error payload

/-- The chain of a bin can be followed, its links lead to patterns that fit in their texts, and so
the bin can be read. -/
structure Readable (p : ShardPlan) (a : Arena) (bin : Nat) : Prop where
  chain : ∃ links, a.chain p.maxChain bin = .ok links ∧
    ∀ link ∈ links, ∃ held, p.postingOf link = .ok held ∧
      Window.fits held.place.offset held.width held.text.size = true
  read : ∃ reading, p.readBin a bin = .ok reading

variable {σ : Type} {p : ShardPlan} {texts : List Text} {a : Arena}
  {entered due due' : Link → Prop} {job : Job} {behind : Link}

/-- Once the arena was prepared, it has room for the corpus and no chain. -/
theorem tied_prepare (heads : a.heads.size = binCount) :
    p.Tied texts (a.prepare (ShardEngine.symbolCount texts * p.model.patternCount)) :=
  ⟨_, (Arena.size_heads_prepare _).trans heads, Arena.le_size_links_prepare _,
    Arena.closed_prepare _ _, fun _ never => never.elim⟩

theorem posted_of_mem_allJobs (member : job ∈ Serves.allJobs p.model texts) :
    p.Posted texts job.link := by
  obtain ⟨x, inCorpus, rfl⟩ := List.mem_map.mp member
  exact ⟨x, inCorpus, rfl⟩

theorem Holds.posted_or (holds : p.Holds texts a entered due)
    (member : job ∈ Serves.allJobs p.model texts) (link : Link)
    (known : link = job.link ∨ entered link) : p.Posted texts link := by
  rcases known with rfl | earlier
  · exact posted_of_mem_allJobs member
  · exact holds.posted link earlier

/-- A store may be thought due that is not. -/
theorem Holds.mono (holds : p.Holds texts a entered due) (more : ∀ l, due l → due' l) :
    p.Holds texts a entered due' where
  heads := holds.heads
  room := holds.room
  closed :=
    { holds.closed with
      behind := fun link next member undue =>
        holds.closed.behind link next member fun isDue => undue (more link isDue) }
  posted := holds.posted

theorem Holds.setNext (holds : p.Holds texts a entered due) {link : Link}
    (onward : Arena.Onward entered behind) (others : ∀ l, due l → l = link ∨ due' l) :
    p.Holds texts (a.setNext link behind) entered due' where
  heads := holds.heads
  room := holds.room.trans_eq Array.size_setIfInBounds.symm
  closed := holds.closed.setNext onward others
  posted := holds.posted

namespace Serves

theorem mem_allJobs_of_mem_jobsOf {m : Stencil} {pos : Nat} (member : job ∈ jobsOf m texts pos) :
    job ∈ allJobs m texts := by
  obtain ⟨⟨t, place⟩, spot, member⟩ := List.mem_flatMap.mp member
  obtain ⟨x, here, rfl⟩ := List.mem_map.mp member
  obtain ⟨rfl, rfl, rfl, inside, fits⟩ := mem_postingsAt.mp here
  exact List.mem_map_of_mem (mem_postings.mpr ⟨Option.mem_toList.mp spot, inside, fits⟩)

variable (serves : p.Serves texts)

include serves

theorem admits (holds : p.Holds texts a entered due) (member : job ∈ allJobs p.model texts) :
    a.Admits job :=
  (serves.distinct holds.heads holds.room).admits job member

theorem holds_setHead (holds : p.Holds texts a entered due)
    (member : job ∈ allJobs p.model texts) (now : due' job.link) (still : ∀ l, due l → due' l) :
    p.Holds texts (a.setHead job.bin job.link) (fun l => l = job.link ∨ entered l) due' where
  heads := Array.size_setIfInBounds.trans holds.heads
  room := holds.room
  closed := holds.closed.setHead (serves.admits holds member).2 now still
  posted := holds.posted_or member

theorem tied_push (tied : p.Tied texts a) (member : job ∈ allJobs p.model texts) :
    p.Tied texts (a.push job) := by
  obtain ⟨entered, holds⟩ := tied
  exact ⟨_, Arena.size_heads_push.trans holds.heads,
    holds.room.trans_eq Arena.size_links_push.symm,
    holds.closed.push (serves.admits holds member).2, holds.posted_or member⟩

/-- The link of a posting leads back to it. -/
theorem exists_postingOf {link : Link} (posted : p.Posted texts link) :
    ∃ held, p.postingOf link = .ok held ∧
      Window.fits held.place.offset held.width held.text.size = true := by
  obtain ⟨x, inCorpus, rfl⟩ := posted
  exact ⟨_, serves.postingOf_eq inCorpus, Window.fits_iff.mpr (mem_postings.mp inCorpus).2.2⟩

theorem readable (tied : p.Tied texts a) {bin : Nat} (inside : bin < binCount) :
    p.Readable a bin := by
  obtain ⟨entered, holds⟩ := tied
  obtain ⟨links, followed, met⟩ := holds.closed.chain p.maxChain (holds.heads ▸ inside)
  have lookedUp : ∀ link ∈ links, ∃ held, p.postingOf link = .ok held ∧
      Window.fits held.place.offset held.width held.text.size = true :=
    fun link member => serves.exists_postingOf (holds.posted link (met link member))
  obtain ⟨held, looked⟩ : ∃ held, links.mapM p.postingOf = .ok held :=
    exists_mapM_ok fun link member => (lookedUp link member).imp fun _ => And.left
  refine ⟨⟨links, followed, lookedUp⟩, ?_⟩
  rw [readBin, followed, ok_bind, looked, ok_bind]
  split
  · exact ⟨_, rfl⟩
  · split
    · exact ⟨_, rfl⟩
    · exact ⟨_, rfl⟩

theorem exists_readRange (tied : p.Tied texts a) (start : Nat) {stop : Nat}
    (inside : stop ≤ binCount) : ∃ reading, p.readRange a start stop = .ok reading := by
  have each : ∀ bin ∈ span start stop, ∃ reading, p.readBin a bin = .ok reading :=
    fun bin here =>
      (serves.readable tied (Nat.lt_of_lt_of_le (mem_span.mp here).2 inside)).read
  obtain ⟨bins, read⟩ := exists_mapM_ok each
  exact ⟨_, by rw [readRange, read, ok_bind]; rfl⟩

/-- Nothing stops a worker that links, whichever positions it is given. -/
theorem linkRange_stopsOnly {start stop : Nat} (inside : stop ≤ p.layout.size) :
    (p.linkRange start stop).StopsOnly (fun memory => p.Tied texts memory.arena)
      fun _ => False := by
  refine .forM fun pos here => ?_
  have inCorpus : pos < ShardEngine.symbolCount texts := by
    rw [← serves.size_layout]
    exact Nat.lt_of_lt_of_le (mem_span.mp here).2 inside
  refine .ofExcept_bind (serves.jobsAt_eq_jobsOf inCorpus) (.forM fun job member => ?_)
  rintro ⟨arena, linked⟩ tied
  have posted := mem_allJobs_of_mem_jobsOf member
  have admits : arena.Admits job := tied.elim fun _ holds => serves.admits holds posted
  rw [pushLink, if_pos admits]
  refine ⟨serves.tied_push tied posted, fun payload stopped => ?_⟩
  cases stopped

omit serves in
/-- A worker that reads is stopped by the visitor only. -/
theorem visitRange_stopsOnly (visit : Visitor σ)
    (read : ∀ bin < binCount, ∃ reading, p.readBin a bin = .ok reading) {start stop : Nat}
    (inside : stop ≤ binCount) :
    (p.visitRange a visit start stop).StopsOnly (fun _ => True) (Raises visit) := by
  have called (found : Match) : (call visit found).StopsOnly (fun _ => True) (Raises visit) :=
    fun memory _ => ⟨trivial, fun _ stopped => ⟨found, memory.out, stopped⟩⟩
  refine .forM fun bin here => ?_
  obtain ⟨reading, known⟩ := read bin (Nat.lt_of_lt_of_le (mem_span.mp here).2 inside)
  refine .ofExcept_bind known (.bind (.forM fun found _ => ?_) fun _ => ?_)
  · exact .bind (called found) fun _ => called found.flip
  · exact fun _ _ => ⟨trivial, nofun⟩

end Serves

end ShardPlan

namespace ShardEngine

variable {σ : Type} {settings : ShardSettings} {engine : ShardEngine} {m : Stencil}
  {p : ShardPlan} {texts : List Text} {arena : Arena}

/-- However many workers link, and wherever they begin, nothing stops them. -/
theorem link_runs (serves : p.Serves texts) (tied : p.Tied texts arena)
    (settings : ShardSettings) (cursor : Cursor) :
    p.Tied texts (link settings p cursor arena).memory.arena ∧
      (link settings p cursor arena).failure = none := by
  have chunk (start stop : Nat) (inside : stop ≤ p.layout.size) :
      (p.linkRange start stop).StopsOnly (fun memory => p.Tied texts memory.arena)
        fun _ => False := serves.linkRange_stopsOnly inside
  have before : p.Tied texts (LinkMemory.arena { arena }) := tied
  obtain ⟨after, fails⟩ := Crew.run_stopsOnly chunk settings.workers cursor before
  refine ⟨after, Option.eq_none_iff_forall_ne_some.mpr fun fault failed => ?_⟩
  obtain ⟨_, _, never, -⟩ := fails fault failed
  exact never

/-- However many workers read, they are stopped by their visitor only. -/
theorem read_failsOnly (serves : p.Serves texts) (tied : p.Tied texts arena)
    (settings : ShardSettings) (cursor : Cursor) (visit : Visitor σ) (out : σ) :
    (read settings p cursor arena visit out).FailsOnly (ShardPlan.Raises visit) .reading := by
  have chunk (start stop : Nat) (inside : stop ≤ binCount) :
      (p.visitRange arena visit start stop).StopsOnly (fun _ => True) (ShardPlan.Raises visit) :=
    ShardPlan.Serves.visitRange_stopsOnly visit
      (fun bin present => (serves.readable tied present).read) inside
  exact (Crew.run_stopsOnly chunk settings.workers cursor trivial).2

/-- A search fails if its corpus is refused or its visitor stops a worker, and for no other reason,
whatever the engine was used for and however its cursor moved. -/
theorem stopped_of_search (ready : Ready settings engine) (accepted : m.Accepted)
    {visit : Visitor σ} {out : σ} {fault : Fault}
    (failed : (engine.search texts m visit out).result = .error fault) :
    checkCorpus texts m = .error fault ∨ ∃ worker payload,
      ShardPlan.Raises visit payload ∧
        fault = .workerStopped .reading worker payload.message := by
  obtain ⟨settings', phase, layout, arena, cursor⟩ := engine
  obtain ⟨rfl, -, heads⟩ := ready
  cases taken : checkCorpus texts m with
  | error refused =>
      rw [search_refused taken] at failed
      exact .inl (congrArg Except.error (Except.error.inj failed))
  | ok =>
      have serves : (planFor settings' texts m).Serves texts :=
        ⟨rfl, rfl, accepted, numbered_of_checkCorpus taken⟩
      obtain ⟨tied, linked⟩ :=
        link_runs serves (ShardPlan.tied_prepare heads) settings' cursor
      have fails := read_failsOnly serves tied settings'
        (link settings' (planFor settings' texts m) cursor
          (arena.prepare (symbolCount texts * m.patternCount))).cursor visit out
      simp only [planFor] at linked fails
      simp only [search, taken, layOut, plan, linked] at failed
      split at failed
      · next stopped =>
        obtain ⟨worker, payload, raised, same⟩ := fails _ stopped
        exact .inr ⟨worker, payload, raised, Except.error.inj failed ▸ same⟩
      · cases failed

end ShardEngine

end SharedRuns
