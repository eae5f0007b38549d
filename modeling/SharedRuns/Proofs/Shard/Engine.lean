import SharedRuns.Proofs.Shard.Reading

/-!
# What a sharded engine with one worker reports

However an engine was used before, a run of one worker calls its visitor for the matches of the
corpus in one order (`ShardEngine.search_of_one_worker`): bin by bin, in a bin by the newer and then
by the older posting, and each match twice, once from each side. What earlier runs left in the arena
is not met, since a run starts from empty chains and writes each cell before it is read.
-/

namespace SharedRuns.ShardEngine

open Checked

variable {settings : ShardSettings} {engine : ShardEngine} {σ : Type}

/-- An engine that was created with the settings and has searched any number of times, for whatever
texts and models, with whatever visitors, and however its searches ended. -/
inductive Reachable (settings : ShardSettings) : ShardEngine → Prop
  | created {engine : ShardEngine} (made : create settings = .ok engine) :
      Reachable settings engine
  | searched {σ : Type} {engine : ShardEngine} (earlier : Reachable settings engine)
      (texts : List Text) (model : Stencil) (visit : Visitor σ) (out : σ) :
      Reachable settings (engine.search texts model visit out).engine

/-- The engine has its settings, which can be met, and a head for each bin. -/
structure Ready (settings : ShardSettings) (engine : ShardEngine) : Prop where
  settings_eq : engine.settings = settings
  accepted : settings.check = .ok ()
  heads : engine.arena.heads.size = binCount

theorem ready_of_create (made : create settings = .ok engine) : Ready settings engine := by
  rw [create] at made
  cases checked : settings.check with
  | error flaw =>
      rw [checked] at made
      cases made
  | ok =>
      rw [checked] at made
      obtain rfl := Except.ok.inj made
      exact ⟨rfl, checked, Array.size_replicate⟩

theorem heads_preserved (p : ShardPlan) (size start stop : Nat) :
    (p.linkRange start stop).Preserves fun memory => memory.arena.heads.size = size := by
  have push : ∀ job, (ShardPlan.pushLink job).Preserves fun memory =>
      memory.arena.heads.size = size := by
    rintro job ⟨arena, linked⟩ before
    by_cases admits : arena.Admits job
    · rw [ShardPlan.pushLink, if_pos admits]
      exact Arena.size_heads_push.trans before
    · rw [ShardPlan.pushLink, if_neg admits]
      exact before
  exact .forM fun _ _ => .ofExcept_bind fun _ _ => .forM fun job _ => push job

theorem Ready.search (ready : Ready settings engine) (texts : List Text) (model : Stencil)
    (visit : Visitor σ) (out : σ) :
    Ready settings (engine.search texts model visit out).engine := by
  obtain ⟨settings', phase, layout, arena, cursor⟩ := engine
  obtain ⟨rfl, accepted, heads⟩ := ready
  have prepared : (arena.prepare (symbolCount texts * model.patternCount)).heads.size = binCount :=
    (Arena.size_heads_prepare _).trans heads
  have linked (p : ShardPlan) : (link settings' p cursor (arena.prepare
      (symbolCount texts * model.patternCount))).memory.arena.heads.size = binCount :=
    Crew.run_preserves (heads_preserved p binCount) _ cursor prepared
  simp only [ShardEngine.search, layOut]
  cases checkCorpus texts model with
  | error fault => exact ⟨rfl, accepted, heads⟩
  | ok =>
      dsimp only
      split
      · exact ⟨rfl, accepted, linked _⟩
      · exact ⟨rfl, accepted, linked _⟩

/-- Whatever an engine was used for, it is ready for the next search. -/
theorem Reachable.ready (reached : Reachable settings engine) : Ready settings engine := by
  induction reached with
  | created made => exact ready_of_create made
  | searched _ texts model visit out ih => exact ih.search texts model visit out

section

variable {p : ShardPlan} {texts : List Text} {arena : Arena}

/-- The tally of all bins of a corpus. -/
def tallyOf (m : Stencil) (maxChain : Nat) (texts : List Text) : Tally :=
  (List.range binCount).foldl
    (fun tally bin => tally.add (binReading m maxChain texts bin).tally) {}

/-- All postings are linked, and nothing stops the worker. -/
theorem link_endsAs (serves : p.Serves texts) (single : settings.workers = 1)
    (positive : 0 < p.chunkSize) (word : p.chunkSize < Position.space)
    (small : 2 * p.layout.size ≤ Position.space)
    (distinct : arena.Distinct (ShardPlan.Serves.allJobs p.model texts)) (cursor : Cursor) :
    (link settings p cursor arena).EndsAs .linking 0
      (.ok (), { arena := arena.pushAll (ShardPlan.Serves.allJobs p.model texts)
                 linked := (postings p.model texts).length }) := by
  have traversed := serves.forM_linkAt_range distinct 0
  have each (start stop : Nat) : p.linkRange start stop = (span start stop).forM p.linkAt := rfl
  have ended := Crew.run_one_endsAs .linking each positive word small cursor
    { arena, linked := 0 }
  rw [traversed, Nat.zero_add] at ended
  rwa [link, single]

/-- The visitor is called for the matches until it stops the worker. -/
theorem read_endsAs (single : settings.workers = 1) (positive : 0 < p.chunkSize)
    (word : p.chunkSize < Position.space)
    (bins : ∀ bin < binCount, p.readBin arena bin = .ok (binReading p.model p.maxChain texts bin))
    {visit : Visitor σ} {out : σ} {ended : Except Payload Unit × σ}
    (calls : (shardedMatches p.model p.maxChain texts).forM visit out = ended) :
    ∃ counted, (∀ cursor, (read settings p cursor arena visit out).EndsAs .reading 0
        (ended.1, { out := ended.2, tally := counted })) ∧
      (ended.1 = .ok () → counted = tallyOf p.model p.maxChain texts) := by
  have small : 2 * binCount ≤ Position.space := by decide
  rw [shardedMatches_eq] at calls
  obtain ⟨counted, visited, finished⟩ := ShardPlan.forM_visitBin
    (fun bin member => bins bin (List.mem_range.mp member)) visit {} calls
  have each (start stop : Nat) : p.visitRange arena visit start stop =
      (span start stop).forM (p.visitBin arena visit) := rfl
  refine ⟨counted, fun cursor => ?_, finished⟩
  have read := Crew.run_one_endsAs .reading each positive word small cursor { out }
  rwa [visited, ← single] at read

end

theorem bounds_of_check (accepted : settings.check = .ok ()) :
    0 < settings.chunkSize ∧ 2 ≤ settings.maxChain := by
  unfold ShardSettings.check at accepted
  split at accepted
  · cases accepted
  · split at accepted
    · cases accepted
    · split at accepted
      · cases accepted
      · omega

theorem workers_pos_of_check (accepted : settings.check = .ok ()) : 0 < settings.workers := by
  refine Nat.pos_of_ne_zero fun none => ?_
  rw [ShardSettings.check, if_pos none] at accepted
  cases accepted

section

variable {m : Stencil} {texts : List Text}

theorem size_le_symbolCount {t : Text} (member : t ∈ texts) : t.size ≤ symbolCount texts := by
  induction texts with
  | nil => cases member
  | cons u rest ih =>
      rw [symbolCount_cons]
      cases member with
      | head => exact Nat.le_add_right _ _
      | tail _ later => exact Nat.le_trans (ih later) (Nat.le_add_left _ _)

theorem few_of_checkCorpus (taken : checkCorpus texts m = .ok ()) :
    texts.length < Position.wordLimit := by
  unfold checkCorpus at taken
  split at taken
  · cases taken
  · omega

theorem numbered_of_checkCorpus (taken : checkCorpus texts m = .ok ()) :
    symbolCount texts * m.patternCount < chainEnd.toNat := by
  unfold checkCorpus at taken
  split at taken
  · cases taken
  · split at taken
    · assumption
    · cases taken

/-- A search that is refused calls nobody and leaves the engine alone. -/
theorem search_refused {fault : Fault} (refused : checkCorpus texts m = .error fault)
    (visit : Visitor σ) (out : σ) :
    engine.search texts m visit out = { result := .error fault, out, engine } := by
  rw [search, refused]

/-- The plan of a run with these settings. -/
def planFor (settings : ShardSettings) (texts : List Text) (m : Stencil) : ShardPlan where
  texts := texts.toArray
  model := m
  layout := .ofTexts texts
  chunkSize := settings.chunkSize
  maxChain := settings.maxChain

@[simp] theorem model_planFor : (planFor settings texts m).model = m := rfl

@[simp] theorem maxChain_planFor : (planFor settings texts m).maxChain = settings.maxChain := rfl

/-- The result of a search by how its reading phase ended: its report, or its worker's failure. -/
def resultOf (report : ShardStats) : Except Payload Unit → Except Fault ShardStats
  | .ok () => .ok report
  | .error payload => .error (.workerStopped .reading 0 payload.message)

/-- A search is its two phases, the second of them on the arena that the first one leaves. -/
theorem search_of_phases (taken : checkCorpus texts m = .ok ()) {visit : Visitor σ} {out : σ}
    {memory : LinkMemory}
    (linked : (link engine.settings (planFor engine.settings texts m) engine.cursor
      (engine.arena.prepare (symbolCount texts * m.patternCount))).EndsAs .linking 0
        (.ok (), memory))
    {ended : Except Payload Unit} {after : ReadMemory σ}
    (reported : ∀ cursor, (read engine.settings (planFor engine.settings texts m) cursor
      memory.arena visit out).EndsAs .reading 0 (ended, after)) :
    (engine.search texts m visit out).out = after.out ∧
      (engine.search texts m visit out).result = resultOf
        { texts := texts.length
          symbols := symbolCount texts
          postings := memory.linked
          tally := after.tally } ended := by
  obtain ⟨settings, _, layout, arena, cursor⟩ := engine
  obtain ⟨linkMemory, linkFailure⟩ := linked
  obtain ⟨readMemory, readFailure⟩ := reported (link settings (planFor settings texts m) cursor
    (arena.prepare (symbolCount texts * m.patternCount))).cursor
  have symbols : (Layout.ofTexts texts).size = symbolCount texts := size_ofTexts
  simp only [planFor, Crew.failureOf] at linkMemory linkFailure readMemory readFailure
  simp only [search, taken, layOut, plan, linkMemory, linkFailure, readMemory, readFailure, symbols]
  cases ended <;> exact ⟨trivial, rfl⟩

/-- What a search of one worker leaves with its visitor, and how it ends: with its report, or where
the visitor stopped the worker. -/
theorem search_eq (ready : Ready settings engine) (single : settings.workers = 1)
    (word : settings.chunkSize < Position.space) (accepted : m.Accepted)
    (patterns : 0 < m.patternCount) (taken : checkCorpus texts m = .ok ()) {visit : Visitor σ}
    {out : σ} {ended : Except Payload Unit × σ}
    (calls : (shardedMatches m settings.maxChain texts).forM visit out = ended) :
    (engine.search texts m visit out).out = ended.2 ∧
      (engine.search texts m visit out).result = resultOf
        { texts := texts.length
          symbols := symbolCount texts
          postings := (postings m texts).length
          tally := tallyOf m settings.maxChain texts } ended.1 := by
  obtain ⟨rfl, checked, heads⟩ := ready
  obtain ⟨positive, enough⟩ := bounds_of_check checked
  have numbered := numbered_of_checkCorpus taken
  have serves : (planFor engine.settings texts m).Serves texts := ⟨rfl, rfl, accepted, numbered⟩
  let prepared := engine.arena.prepare (symbolCount texts * m.patternCount)
  have heads : prepared.heads.size = binCount := (Arena.size_heads_prepare _).trans heads
  have distinct := serves.distinct heads (Arena.le_size_links_prepare _)
  have small : 2 * (Layout.ofTexts texts).size ≤ Position.space := by
    have fewer := Nat.le_mul_of_pos_right (symbolCount texts) patterns
    have space : 2 * chainEnd.toNat ≤ Position.space := by decide
    rw [size_ofTexts]
    omega
  have linked := link_endsAs serves single positive word small distinct engine.cursor
  have bins : ∀ bin < binCount, (planFor engine.settings texts m).readBin
      (prepared.pushAll (ShardPlan.Serves.allJobs m texts)) bin =
        .ok (binReading m engine.settings.maxChain texts bin) := by
    intro bin inside
    rw [binReading_eq]
    refine serves.readBin_of_chain enough (fun x member => (mem_heldIn.mp member).1) ?_
    rw [heldIn_eq_reverse]
    exact ShardPlan.Serves.chain_jobs distinct heads (Arena.head_prepare _) _ inside
  obtain ⟨counted, reported, finished⟩ := read_endsAs single positive word bins calls
  rw [model_planFor] at linked
  rw [model_planFor, maxChain_planFor] at finished
  obtain ⟨kept, result⟩ := search_of_phases taken linked reported
  refine ⟨kept, result.trans ?_⟩
  cases whole : ended.1 with
  | ok => rw [finished whole]
  | error payload => simp only [resultOf]

/-- A search by what becomes of its calls. -/
theorem search_of_calls (ready : Ready settings engine) (single : settings.workers = 1)
    (word : settings.chunkSize < Position.space) (accepted : m.Accepted)
    (patterns : 0 < m.patternCount) (taken : checkCorpus texts m = .ok ()) {visit : Visitor σ}
    {out after : σ} {ended : Except Payload Unit}
    (calls : (shardedMatches m settings.maxChain texts).forM visit out = (ended, after)) :
    (engine.search texts m visit out).out = after ∧
      (engine.search texts m visit out).result = resultOf
        { texts := texts.length
          symbols := symbolCount texts
          postings := (postings m texts).length
          tally := tallyOf m settings.maxChain texts } ended :=
  search_eq ready single word accepted patterns taken calls

end

end SharedRuns.ShardEngine
