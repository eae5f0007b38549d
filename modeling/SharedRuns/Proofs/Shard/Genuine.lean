import SharedRuns.Proofs.BruteForce
import SharedRuns.Proofs.Interleaving.Reading
import SharedRuns.Proofs.Shard.Engine

/-!
# A sharded engine calls its visitor for genuine matches only

Whatever chains an arena leads through, a link is looked up before it is compared: it is a posting
only if a text has its position and a pattern can be read there. So nothing that happened before the
reading phase can make it report a false match (`ShardEngine.search_preserves`). The visitor may be
any, and may stop its worker at any call; the workers may take turns or interleave.

`Visitor.logged` lists the calls of a visitor and changes nothing else
(`ShardEngine.search_logged`).
-/

namespace SharedRuns

variable {σ : Type}

/-- The visitor that does as `visit` does, and keeps a list of its calls, those included that stop
their worker. -/
def Visitor.logged (visit : Visitor σ) : Visitor (σ × List Match) := fun found (out, calls) =>
  let (result, out) := visit found out
  (result, (out, calls ++ [found]))

namespace ShardPlan

open Checked

/-- A posting that was looked up is a window of a text, read under a pattern of its width. -/
structure Posting.Read (model : Stencil) (texts : List Text) (x : Posting) : Prop where
  text : x.text ∈ texts
  fits : x.place.offset + x.width ≤ x.text.size
  sample : ∃ symbols, x.side.Reads model symbols ∧ x.sample = model.arrange symbols

section

variable {model : Stencil} {texts : List Text} {x y : Posting} {m : Match}

theorem Posting.genuine_of_match? (readX : x.Read model texts) (readY : y.Read model texts)
    (found : x.match? y = some m) : m.GenuineIn model texts := by
  obtain ⟨apart, same⟩ := Option.ite_none_left_eq_some.mp found
  obtain rfl := Option.some.inj same
  simp only [not_or, not_not] at apart
  obtain ⟨-, named, same⟩ := apart
  obtain ⟨xs, readsX, arrangedX⟩ := readX.sample
  obtain ⟨ys, readsY, arrangedY⟩ := readY.sample
  rw [arrangedX, arrangedY, Stencil.arrange_eq_iff] at same
  exact ⟨⟨readX.text, readY.text, readX.fits, readY.fits, named⟩, xs, ys, readsX, readsY, same⟩

theorem genuine_of_mem_matchesAmong {held : List Posting}
    (read : ∀ x ∈ held, x.Read model texts) (member : m ∈ matchesAmong held) :
    m.GenuineIn model texts := by
  induction held with
  | nil => cases member
  | cons x rest ih =>
      rw [List.forall_mem_cons] at read
      rcases List.mem_append.mp member with first | later
      · obtain ⟨y, inRest, found⟩ := List.mem_filterMap.mp first
        exact Posting.genuine_of_match? read.1 (read.2 y inRest) found
      · exact ih read.2 later

end

section

variable {p : ShardPlan} {texts : List Text} {arena : Arena} {m : Match}
  (serves : p.Serves texts) (patterns : 0 < p.model.patternCount)

include serves patterns

/-- Any link at all that leads to a posting leads to a window of a text. -/
theorem Serves.read_of_postingOf {link : Link} {x : Posting} (found : p.postingOf link = .ok x) :
    x.Read p.model texts := by
  obtain ⟨place, atPlace, found⟩ := exists_of_bind_ok found
  obtain ⟨t, atText, found⟩ := exists_of_bind_ok found
  obtain ⟨sample, sampled, found⟩ := exists_of_bind_ok found
  obtain ⟨width, wide, found⟩ := exists_of_bind_ok found
  obtain rfl := Except.ok.inj found
  rw [serves.layout_eq] at atPlace
  obtain ⟨_, spot⟩ := exists_spot_of_fetch atPlace
  rw [serves.texts_eq, fetch_text spot] at atText
  obtain rfl := Except.ok.inj atText
  obtain ⟨-, lookup, inText⟩ := text_of_spot spot
  have inTexts := List.mem_of_getElem? lookup
  have inside : link.toNat % p.model.patternCount < p.model.patternCount := Nat.mod_lt _ patterns
  rw [within_eq_ok, Stencil.sample?_eq serves.accepted inside, Option.map_eq_some_iff] at sampled
  obtain ⟨symbols, read, rfl⟩ := sampled
  rw [within_eq_ok, Stencil.width?_eq serves.accepted, if_pos inside] at wide
  obtain rfl := Option.some.inj wide
  have below : place.offset + Position.wordLimit ≤ Position.space := by
    have inCorpus := ShardEngine.size_le_symbolCount inTexts
    have fewer := Nat.le_mul_of_pos_right (ShardEngine.symbolCount texts) patterns
    have numbered := serves.numbered
    have space : chainEnd.toNat + Position.wordLimit ≤ Position.space := by decide
    omega
  exact ⟨inTexts, Stencil.fits_of_read? serves.accepted inside below read,
    symbols, ⟨_, inside, rfl, read⟩, rfl⟩

theorem Serves.genuine_of_readBin {bin : Nat} {r : BinReading}
    (read : p.readBin arena bin = .ok r) (member : m ∈ r.pairs) : m.GenuineIn p.model texts := by
  obtain ⟨links, -, read⟩ := exists_of_bind_ok read
  obtain ⟨held, looked, read⟩ := exists_of_bind_ok read
  have postings : ∀ x ∈ held, x.Read p.model texts := by
    intro x inChain
    obtain ⟨link, -, found⟩ := exists_of_mem_mapM looked inChain
    exact serves.read_of_postingOf patterns found
  split at read
  · cases read
    cases member
  · split at read
    · cases read
      cases member
    · cases read
      exact genuine_of_mem_matchesAmong postings member

theorem Serves.genuine_of_readRange {start stop : Nat} {r : RangeReading}
    (read : p.readRange arena start stop = .ok r) (member : m ∈ r.calls) :
    m.GenuineIn p.model texts := by
  obtain ⟨bins, looked, read⟩ := exists_of_bind_ok read
  obtain rfl := Except.ok.inj read
  obtain ⟨reading, inBins, called⟩ := List.mem_flatMap.mp member
  obtain ⟨found, inPairs, direction⟩ := List.mem_flatMap.mp called
  obtain ⟨bin, -, given⟩ := exists_of_mem_mapM looked inBins
  have genuine := serves.genuine_of_readBin patterns given inPairs
  rcases List.mem_pair.mp direction with rfl | rfl
  · exact genuine
  · exact genuine.flip

/-- What the visitor keeps whenever it is called for a genuine match, reading keeps. -/
theorem Serves.visitRange_preserves {P : σ → Prop} {visit : Visitor σ}
    (kept : ∀ m, m.GenuineIn p.model texts → (visit m).Preserves P) (start stop : Nat) :
    (p.visitRange arena visit start stop).Preserves fun memory => P memory.out := by
  have called : ∀ m, m.GenuineIn p.model texts →
      (call visit m).Preserves fun memory => P memory.out :=
    fun m genuine memory before => kept m genuine memory.out before
  refine .forM fun bin _ => .ofExcept_bind fun reading read => .bind (.forM fun m member => ?_) ?_
  · have genuine := serves.genuine_of_readBin patterns read member
    exact .bind (called m genuine) fun _ => called m.flip genuine.flip
  · exact fun _ _ before => before

end

/-- What a visitor is called for does not depend on whether the calls are listed. -/
theorem visitRange_logged (p : ShardPlan) (arena : Arena) (visit : Visitor σ) (start stop : Nat) :
    (p.visitRange arena visit.logged start stop).Projects
      (fun memory => { out := memory.out.1, tally := memory.tally })
      (p.visitRange arena visit start stop) := by
  refine .forM (fun bin => .bind (.ofExcept _) fun reading => .bind (.forM (fun m => ?_) _) ?_) _
  · exact .bind (fun _ => rfl) fun _ _ => rfl
  · exact fun _ _ => rfl

end ShardPlan

namespace ShardEngine

variable {engine : ShardEngine} {texts : List Text} {model : Stencil}

/-- However an engine was used before, and however many workers it has: what a visitor keeps
whenever it is called for a genuine match, it has kept when a search has ended. -/
theorem search_preserves (accepted : model.Accepted) (patterns : 0 < model.patternCount)
    {P : σ → Prop} {visit : Visitor σ} (kept : ∀ m, m.GenuineIn model texts → (visit m).Preserves P)
    {out : σ} (before : P out) : P (engine.search texts model visit out).out := by
  obtain ⟨settings, phase, layout, arena, cursor⟩ := engine
  simp only [search]
  cases taken : checkCorpus texts model with
  | error fault => exact before
  | ok =>
      have serves : (planFor settings texts model).Serves texts :=
        ⟨rfl, rfl, accepted, numbered_of_checkCorpus taken⟩
      simp only [layOut]
      split
      · exact before
      · exact Crew.run_preserves (P := fun memory : ReadMemory σ => P memory.out)
          (serves.visitRange_preserves patterns kept) _ _ before

/-- A search ends alike whether or not the calls of its visitor are listed. -/
theorem search_logged (engine : ShardEngine) (texts : List Text) (model : Stencil)
    (visit : Visitor σ) (out : σ) :
    let run := engine.search texts model visit out
    let listed := engine.search texts model visit.logged (out, [])
    listed.result = run.result ∧ listed.out.1 = run.out ∧ listed.engine = run.engine := by
  obtain ⟨settings, phase, layout, arena, cursor⟩ := engine
  have read (p : ShardPlan) (cursor : Cursor) (arena : Arena) :
      read settings p cursor arena visit out =
        (read settings p cursor arena visit.logged (out, [])).map
          fun memory => { out := memory.out.1, tally := memory.tally } :=
    Crew.run_map (p.visitRange_logged arena visit) settings.workers cursor { out := (out, []) }
  simp only [search]
  cases checkCorpus texts model with
  | error fault => exact ⟨rfl, rfl, rfl⟩
  | ok =>
      simp only [layOut, read]
      split
      · exact ⟨rfl, rfl, rfl⟩
      · exact ⟨rfl, rfl, rfl⟩

/-- Every call that any visitor receives in a search is for a genuine match. -/
theorem genuine_of_logged (accepted : model.Accepted) (patterns : 0 < model.patternCount)
    (visit : Visitor σ) (out : σ) :
    ∀ m ∈ (engine.search texts model visit.logged (out, [])).out.2, m.GenuineIn model texts := by
  let Genuine (seen : σ × List Match) : Prop := ∀ m ∈ seen.2, m.GenuineIn model texts
  refine search_preserves (P := Genuine) accepted patterns ?_ nofun
  intro m genuine seen before found member
  rcases List.mem_append.mp member with earlier | last
  · exact before found earlier
  · exact List.mem_singleton.mp last ▸ genuine

end ShardEngine

namespace Interleaving

variable {p : ShardPlan} {texts : List Text} {arena : Arena} {m : Match}
  (serves : p.Serves texts) (patterns : 0 < p.model.patternCount)

include serves patterns

/-- An action of one worker: calls are made or are still to be made for genuine matches only. -/
theorem Reader.act_genuine {s s' : ReadingMemory} {task task' : Reader}
    (acts : Reader.act p arena s task = some (s', task'))
    (made : ∀ m ∈ s.calls, m.GenuineIn p.model texts)
    (waiting : ∀ m ∈ task.waiting, m.GenuineIn p.model texts) :
    (∀ m ∈ s'.calls, m.GenuineIn p.model texts) ∧
      ∀ m ∈ task'.waiting, m.GenuineIn p.model texts := by
  cases task with
  | claiming own =>
      simp only [Reader.act] at acts
      split at acts
      · cases acts
        exact ⟨made, List.forall_mem_nil _⟩
      · split at acts
        · next reading read =>
          cases acts
          exact ⟨made, fun m member => serves.genuine_of_readRange patterns read member⟩
        · cases acts
          exact ⟨made, List.forall_mem_nil _⟩
  | calling own calls =>
      cases calls with
      | nil =>
          cases acts
          exact ⟨made, List.forall_mem_nil _⟩
      | cons found calls =>
          cases acts
          rw [Reader.waiting, List.forall_mem_cons] at waiting
          refine ⟨fun m member => ?_, waiting.2⟩
          rcases List.mem_append.mp member with earlier | last
          · exact made m earlier
          · exact List.mem_singleton.mp last ▸ waiting.1
  | finished => cases acts

/-- Every call that interleaved workers have made so far is for a genuine match. -/
theorem genuine_of_steps {workers : Nat} {team : Team ReadingMemory Reader}
    (steps : Steps (Reader.act p arena) (Team.uniform workers {} (.claiming {})) team) :
    ∀ m ∈ team.memory.calls, m.GenuineIn p.model texts := by
  let Genuine (s : ReadingMemory) (tasks : Multiset Reader) : Prop :=
    (∀ m ∈ s.calls, m.GenuineIn p.model texts) ∧
      ∀ task ∈ tasks, ∀ m ∈ task.waiting, m.GenuineIn p.model texts
  have preserved : Preserves (Reader.act p arena) Genuine := by
    rintro s s' task task' acts others ⟨made, waiting⟩
    obtain ⟨own, waiting⟩ := Multiset.forall_mem_cons.mp waiting
    obtain ⟨made, own⟩ := Reader.act_genuine serves patterns acts made own
    exact ⟨made, Multiset.forall_mem_cons.mpr ⟨own, waiting⟩⟩
  refine (steps.preserves preserved ⟨nofun, fun task member => ?_⟩).1
  rw [List.eq_of_mem_replicate (Multiset.mem_coe.mp member)]
  exact nofun

end Interleaving

end SharedRuns
