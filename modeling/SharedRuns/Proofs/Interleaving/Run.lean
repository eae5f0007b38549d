import SharedRuns.Proofs.Interleaving.Linking
import SharedRuns.Proofs.Interleaving.Reading
import SharedRuns.Proofs.Shard.Visitors

/-!
# Searches whose workers interleave

However the workers of a search interleave, the chains they build hold the same postings, in the
order in which the heads were exchanged. Since the postings of a bin are compared in pairs and each
pair is reported from both sides, this order does not show: what is reported, and what is counted,
is what one worker reports and counts (`search_perm_of_one_worker`).
-/

namespace SharedRuns.Interleaving

open Checked ShardPlan.Serves

/-- A list with the entries of a mapped one is mapped itself. -/
theorem exists_eq_map_of_perm {α β : Type} {f : α → β} {xs : List α} {ys : List β}
    (perm : ys.Perm (xs.map f)) : ∃ zs : List α, zs.Perm xs ∧ ys = zs.map f := by
  have mapped : List.Forall₂ (fun y x => y = f x) (xs.map f) xs :=
    List.forall₂_map_left_iff.mpr (List.forall₂_same.mpr fun _ _ => rfl)
  obtain ⟨zs, same, perm'⟩ := List.perm_comp_forall₂ perm mapped
  refine ⟨zs, perm', ?_⟩
  rwa [← List.forall₂_map_right_iff, List.forall₂_eq_eq_eq] at same

section

variable {p : ShardPlan} {texts : List Text} {arena : Arena} {workers postings : Nat}
  {calls : List Match} {tally : Tally}

/-- What both phases rely on: the plan is one for the texts, the arena was prepared for them, and
the cursor has room for all claims. -/
structure Prepared (p : ShardPlan) (texts : List Text) (workers : Nat) (arena : Arena) : Prop where
  serves : p.Serves texts
  enough : 2 ≤ p.maxChain
  positive : 0 < p.chunkSize
  some : 0 < workers
  distinct : arena.Distinct (allJobs p.model texts)
  heads : arena.heads.size = binCount
  cleared : ∀ bin, arena.head bin = chainEnd
  room : max p.layout.size binCount + workers * p.chunkSize ≤ Position.space

namespace Prepared

variable (h : Prepared p texts workers arena)

include h

theorem room_linking : p.layout.size + workers * p.chunkSize ≤ Position.space :=
  Nat.le_trans (Nat.add_le_add_right (Nat.le_max_left _ _) _) h.room

theorem room_reading : binCount + workers * p.chunkSize ≤ Position.space :=
  Nat.le_trans (Nat.add_le_add_right (Nat.le_max_right _ _) _) h.room

/-- After any interleaving of the first phase, reading a bin reports what its postings share. -/
theorem readBin_of_completes {linked : Team LinkingMemory Linker}
    (completes : Completes (Linker.act p) (.uniform workers { arena } (.claiming 0)) linked) :
    linked.memory.linked = (SharedRuns.postings p.model texts).length ∧
      ∃ held : Nat → List CorpusPosting, (∀ bin, (held bin).Perm (heldIn p.model texts bin)) ∧
        ∀ bin < binCount, p.readBin linked.memory.arena bin =
          .ok (chainReading p.model p.maxChain (held bin)) := by
  obtain ⟨order, perm, built, counted⟩ := Linker.exists_order_of_completes h.serves h.positive
    h.room_linking h.distinct h.some completes
  obtain ⟨xs, permXs, rfl⟩ := exists_eq_map_of_perm perm
  refine ⟨counted, fun bin => (bucket (CorpusPosting.bin p.model) xs bin).reverse, fun bin => ?_,
    fun bin inside => ?_⟩
  · rw [heldIn_eq_reverse]
    exact ((List.reverse_perm _).trans (permXs.filter _)).trans (List.reverse_perm _).symm
  · rw [built]
    refine h.serves.readBin_of_chain h.enough (fun x member => ?_)
      (chain_jobs (h.distinct.of_subperm perm.subperm) h.heads h.cleared _ inside)
    exact permXs.subset (mem_bucket.mp (List.mem_reverse.mp member)).1

/-- Some interleaving comes to an end. -/
theorem exists_run : ∃ calls postings tally, Run p workers arena calls postings tally := by
  obtain ⟨linked, completes⟩ :=
    Linker.exists_completes h.serves h.positive h.room_linking h.distinct
  obtain ⟨-, held, -, read⟩ := h.readBin_of_completes completes
  obtain ⟨stop, readAll⟩ := Reader.exists_completes read h.positive h.room_reading
  exact ⟨_, _, _, linked, stop, completes, readAll, rfl, rfl, rfl⟩

/-- Every interleaving that comes to an end makes the same calls and counts the same. -/
theorem eq_of_run (run : Run p workers arena calls postings tally) :
    calls.Perm (shardedMatches p.model p.maxChain texts) ∧
      postings = (SharedRuns.postings p.model texts).length ∧
      tally = ShardEngine.tallyOf p.model p.maxChain texts := by
  obtain ⟨linked, stop, completes, readAll, rfl, rfl, rfl⟩ := run
  obtain ⟨counted, held, perm, read⟩ := h.readBin_of_completes completes
  obtain ⟨called, tallied⟩ :=
    Reader.perm_of_completes read h.positive h.room_reading h.some readAll
  have sameBin (bin : Nat) :
      (chainReading p.model p.maxChain (held bin)).calls.Perm
          (binReading p.model p.maxChain texts bin).calls ∧
        (chainReading p.model p.maxChain (held bin)).tally =
          (binReading p.model p.maxChain texts bin).tally := by
    rw [binReading_eq]
    exact chainReading_perm (perm bin)
  refine ⟨?_, counted, ?_⟩
  · rw [shardedMatches_eq]
    exact called.trans (.flatMap_left _ fun bin _ => (sameBin bin).1)
  · rw [tallied, ShardEngine.tallyOf]
    simp only [(sameBin _).2]

end Prepared

end

open ShardEngine

theorem prepared_of_ready {settings : ShardSettings} {engine : ShardEngine}
    (ready : Ready settings engine) {m : Stencil} (accepted : m.Accepted) {texts : List Text}
    (taken : checkCorpus texts m = .ok ())
    (room : max (symbolCount texts) binCount + (settings.workers + 1) * settings.chunkSize ≤
      Position.space) :
    Prepared ((engine.layOut texts m).plan texts m) texts settings.workers
      (engine.layOut texts m).arena := by
  obtain ⟨rfl, checked, heads⟩ := ready
  obtain ⟨positive, enough⟩ := bounds_of_check checked
  have serves : ((engine.layOut texts m).plan texts m).Serves texts :=
    ⟨rfl, rfl, accepted, numbered_of_checkCorpus taken⟩
  have heads : (engine.layOut texts m).arena.heads.size = binCount :=
    (Arena.size_heads_prepare _).trans heads
  refine ⟨serves, enough, positive, workers_pos_of_check checked,
    serves.distinct heads (Arena.le_size_links_prepare _), heads, Arena.head_prepare _, ?_⟩
  rw [serves.size_layout]
  refine Nat.le_trans (Nat.add_le_add_left ?_ _) room
  exact Nat.mul_le_mul_right _ (Nat.le_succ _)

theorem word_of_room {settings : ShardSettings} (accepted : settings.check = .ok ()) {limit : Nat}
    (room : limit + (settings.workers + 1) * settings.chunkSize ≤ Position.space) :
    settings.chunkSize < Position.space := by
  obtain ⟨positive, -⟩ := bounds_of_check accepted
  have twice : 2 * settings.chunkSize ≤ (settings.workers + 1) * settings.chunkSize :=
    Nat.mul_le_mul_right _ (Nat.succ_le_succ (workers_pos_of_check accepted))
  omega

/-- The result of a search does not depend on its schedule. Whatever the corpus, the model and the
number of workers, some interleaving of them comes to an end, and each one that does has the result
and, up to their order, the calls of a search by one worker. -/
theorem search_perm_of_one_worker {size : Nat} {offsets : Array UInt32} {sorted : Bool}
    {m : Stencil} (made : Stencil.ofOffsets size offsets sorted = .ok m) {settings : ShardSettings}
    {engine one : ShardEngine} (ready : Ready settings engine)
    (readyOne : Ready { settings with workers := 1 } one) {texts : List Text}
    (room : max (symbolCount texts) binCount + (settings.workers + 1) * settings.chunkSize ≤
      Position.space) :
    let whole := one.search texts m Visitor.keep []
    (∃ result calls, Search engine texts m result calls) ∧
      ∀ result calls, Search engine texts m result calls →
        calls.Perm whole.out ∧ result = whole.result := by
  have accepted := Stencil.accepted_of_ofOffsets made
  have patterns := Stencil.patternCount_pos made
  simp only [Search]
  cases taken : checkCorpus texts m with
  | error fault =>
      rw [search_refused taken]
      refine ⟨⟨_, _, rfl, rfl⟩, ?_⟩
      rintro result calls ⟨rfl, rfl⟩
      exact ⟨.refl _, rfl⟩
  | ok =>
      have prepared := prepared_of_ready ready accepted taken room
      have word := word_of_room ready.accepted room
      have workers : (engine.layOut texts m).settings.workers = settings.workers :=
        congrArg ShardSettings.workers ready.settings_eq
      have maxChain : ((engine.layOut texts m).plan texts m).maxChain = settings.maxChain :=
        congrArg ShardSettings.maxChain ready.settings_eq
      have symbols : (engine.layOut texts m).layout.size = symbolCount texts := size_ofTexts
      obtain ⟨-, report⟩ := search_of_calls readyOne rfl word accepted patterns taken
        (Visitor.willing_keep.forM_eq _ [])
      rw [out_search_keep readyOne rfl word accepted patterns taken, report, workers, symbols]
      constructor
      · obtain ⟨calls, postings, tally, run⟩ := prepared.exists_run
        exact ⟨_, calls, postings, tally, run, rfl⟩
      · rintro result calls ⟨postings, tally, run, rfl⟩
        obtain ⟨called, counted, tallied⟩ := prepared.eq_of_run run
        rw [maxChain] at called tallied
        rw [counted, tallied]
        exact ⟨called, rfl⟩

/-- Two workers may link two texts in either order, and the match of these is reported in either
direction first. -/
theorem search_perm_of_two_workers :
    let m : Stencil := { size := 2, offsets := #[0, 1], widths := #[2], sorted := true }
    let t : Text := { id := "first", symbols := #[7, 9] }
    let u : Text := { id := "second", symbols := #[9, 7] }
    let settings : ShardSettings := { workers := 2, chunkSize := 4, maxChain := 3 }
    ∃ engine one, Stencil.ofOffsets 2 #[0, 1] true = .ok m ∧ Ready settings engine ∧
      Ready { settings with workers := 1 } one ∧
      max (symbolCount [t, u]) binCount + (settings.workers + 1) * settings.chunkSize ≤
        Position.space ∧
      (∃ result calls, Search engine [t, u] m result calls) ∧
      ∀ result calls, Search engine [t, u] m result calls →
        calls.Perm [{ a := ⟨u, 0, 2⟩, b := ⟨t, 0, 2⟩ }, { a := ⟨t, 0, 2⟩, b := ⟨u, 0, 2⟩ }] ∧
          result = (one.search [t, u] m Visitor.keep []).result := by
  intro m t u settings
  have made : Stencil.ofOffsets 2 #[0, 1] true = .ok m := by decide
  have ready : Ready settings { settings } := ready_of_create rfl
  have readyOne : Ready { settings with workers := 1 }
      { settings := { settings with workers := 1 } } := ready_of_create rfl
  have room : max (symbolCount [t, u]) binCount + (settings.workers + 1) * settings.chunkSize ≤
      Position.space := by decide
  have whole := search_perm_of_one_worker made ready readyOne room
  have kept := out_search_keep readyOne rfl (by decide) (Stencil.accepted_of_ofOffsets made)
    (Stencil.patternCount_pos made) (rfl : checkCorpus [t, u] m = .ok ())
  rw [shardedMatches_of_two_texts] at kept
  simp only [kept] at whole
  exact ⟨_, _, made, ready, readyOne, room, whole⟩

end SharedRuns.Interleaving
