import SharedRuns.Proofs.Shard.Genuine
import SharedRuns.Proofs.Shard.Visitors

/-!
# What a run says about itself

A completed run reports how many postings it linked, how many bins it read and passed over, and how
many pairs it found. With one worker these numbers are those of the corpus: its postings are counted
text by text and pattern by pattern (`length_postings`), its bins by how many postings they hold
(`binsRead_add_degenerateBins`, `degenerateBins_eq_countP`), and each pair stands for two calls of
the visitor (`ShardEngine.search_accounts`).
-/

namespace SharedRuns

open Checked

namespace Tally

theorem sum_eq (tallies : List Tally) :
    tallies.sum =
      { binsRead := (tallies.map binsRead).sum
        degenerateBins := (tallies.map degenerateBins).sum
        pairs := (tallies.map pairs).sum } := by
  induction tallies with
  | nil => rfl
  | cons t rest ih => rw [List.sum_cons, ih, add_def, add]; rfl

end Tally

theorem sum_map_ite_eq_countP {α : Type} (p : α → Prop) [DecidablePred p] (xs : List α) :
    (xs.map fun x => if p x then 1 else 0).sum = xs.countP fun x => p x := by
  induction xs with
  | nil => rfl
  | cons x rest ih =>
      rw [List.map_cons, List.sum_cons, ih, List.countP_cons, Nat.add_comm]
      simp only [decide_eq_true_eq]

theorem countP_split {α : Type} (p q : α → Bool) (xs : List α) :
    (xs.countP fun x => p x && q x) + (xs.countP fun x => p x && !q x) = xs.countP p := by
  rw [List.countP_eq_countP_filter_add xs p q, List.countP_filter, List.countP_filter]

section

variable {m : Stencil} {maxChain : Nat} {texts : List Text}

theorem tally_binReading (m : Stencil) (maxChain : Nat) (texts : List Text) (bin : Nat) :
    (binReading m maxChain texts bin).tally =
      { binsRead :=
          if 2 ≤ (heldIn m texts bin).length ∧ (heldIn m texts bin).length < maxChain then 1 else 0
        degenerateBins :=
          if 2 ≤ (heldIn m texts bin).length ∧ maxChain ≤ (heldIn m texts bin).length then 1 else 0
        pairs := (pairsIn m maxChain texts bin).length } := by
  by_cases sparse : (heldIn m texts bin).length < 2
  · have none : pairsIn m maxChain texts bin = [] := if_pos (.inl sparse)
    rw [binReading, if_pos sparse, if_neg (by omega), if_neg (by omega), none]
    rfl
  · by_cases many : maxChain ≤ (heldIn m texts bin).length
    · rw [binReading, if_neg sparse, if_pos many, if_neg (by omega), if_pos (by omega),
        pairsIn_eq_nil many]
      rfl
    · rw [binReading, if_neg sparse, if_neg many, if_pos (by omega), if_neg (by omega)]
      rfl

/-- The tally of all bins. Those that hold at least two postings are read if they hold fewer than
`maxChain`, and are passed over if they do not. -/
theorem tallyOf_eq (m : Stencil) (maxChain : Nat) (texts : List Text) :
    ShardEngine.tallyOf m maxChain texts =
      { binsRead := (List.range binCount).countP fun bin =>
          2 ≤ (heldIn m texts bin).length ∧ (heldIn m texts bin).length < maxChain
        degenerateBins := (List.range binCount).countP fun bin =>
          2 ≤ (heldIn m texts bin).length ∧ maxChain ≤ (heldIn m texts bin).length
        pairs := ((List.range binCount).flatMap (pairsIn m maxChain texts)).length } := by
  rw [ShardEngine.tallyOf, foldl_tally, Tally.sum_eq]
  simp only [List.map_map, Function.comp_def, tally_binReading, sum_map_ite_eq_countP,
    List.length_flatMap]
  exact zero_add _

theorem binsRead_add_degenerateBins (m : Stencil) (maxChain : Nat) (texts : List Text) :
    (ShardEngine.tallyOf m maxChain texts).binsRead +
        (ShardEngine.tallyOf m maxChain texts).degenerateBins =
      (List.range binCount).countP fun bin => 2 ≤ (heldIn m texts bin).length := by
  have split := countP_split (fun bin => 2 ≤ (heldIn m texts bin).length)
    (fun bin => (heldIn m texts bin).length < maxChain) (List.range binCount)
  simp only [← decide_not, Nat.not_lt, ← Bool.decide_and] at split
  simp only [tallyOf_eq, split]

theorem degenerateBins_eq_countP (m : Stencil) (maxChain : Nat) (texts : List Text) :
    (ShardEngine.tallyOf m maxChain texts).degenerateBins =
      (List.range binCount).countP fun bin =>
        2 ≤ (heldIn m texts bin).length ∧ maxChain ≤ (heldIn m texts bin).length := by
  simp only [tallyOf_eq]

theorem pairs_eq_length (m : Stencil) (maxChain : Nat) (texts : List Text) :
    (ShardEngine.tallyOf m maxChain texts).pairs =
      (((List.range binCount).flatMap (pairsIn m maxChain texts)).map
        (CorpusPosting.matchOf m)).length := by
  simp only [tallyOf_eq, List.length_map]

theorem symbolCount_eq_sum (texts : List Text) :
    ShardEngine.symbolCount texts = (texts.map Text.size).sum := by
  induction texts with
  | nil => rfl
  | cons t rest ih => rw [symbolCount_cons, ih, List.map_cons, List.sum_cons]

theorem countP_lt_range (bound count : Nat) :
    (List.range count).countP (fun i => i < bound) = min count bound := by
  induction count with
  | zero => exact (Nat.zero_min bound).symm
  | succ count ih =>
      rw [List.range_succ, List.countP_append, ih, List.countP_singleton]
      simp only [decide_eq_true_eq]
      split <;> omega

/-- In a text there are as many starts of a width as it has positions, less those too near to its
end. -/
theorem length_fitting {width : Nat} (positive : 0 < width) (size : Nat) :
    ((List.range size).flatMap fun start => if start + width ≤ size then [()] else []).length =
      size + 1 - width := by
  have fits (start : Nat) : start + width ≤ size ↔ start < size + 1 - width := by omega
  have each (start : Nat) : (if start < size + 1 - width then [()] else []).length =
      if start < size + 1 - width then 1 else 0 := apply_ite ..
  simp only [fits, List.length_flatMap, each, sum_map_ite_eq_countP, countP_lt_range]
  omega

theorem length_postings (accepted : m.Accepted) (texts : List Text) :
    (postings m texts).length =
      (texts.map fun t => (m.widths.toList.map fun width => t.size + 1 - width).sum).sum := by
  have each : ((postings m texts).flatMap fun _ => [()]) = _ := flatMap_postings fun _ _ _ => [()]
  have ofText (t : Text) : ((List.range t.size).flatMap fun start =>
      (List.range m.patternCount).flatMap fun k =>
        if start + m.widthOf k ≤ t.size then [()] else []).length =
      (m.widths.toList.map fun width => t.size + 1 - width).sum := by
    rw [(flatMap_swap_perm _ _ _).length_eq, accepted.widths, List.map_map, List.length_flatMap]
    refine congrArg List.sum (List.map_congr_left fun k _ => ?_)
    exact length_fitting (Stencil.patternWidth_pos _) _
  calc (postings m texts).length
      = ((postings m texts).flatMap fun _ => [()]).length := by simp
    _ = _ := by
      rw [each, List.length_flatMap]
      exact congrArg List.sum (List.map_congr_left fun t _ => ofText t)

end

theorem shardedMatches_eq_flatMap (m : Stencil) (maxChain : Nat) (texts : List Text) :
    shardedMatches m maxChain texts =
      (((List.range binCount).flatMap (pairsIn m maxChain texts)).map
        (CorpusPosting.matchOf m)).flatMap fun found => [found, found.flip] := by
  rw [shardedMatches, reportedPairs, List.flatMap_map, ← List.flatMap_assoc, List.map_flatMap]
  rfl

theorem getElem?_flatMap_flip (found : List Match) (i : Nat) :
    (found.flatMap fun m => [m, m.flip])[2 * i]? = found[i]? ∧
      (found.flatMap fun m => [m, m.flip])[2 * i + 1]? = found[i]?.map Match.flip := by
  induction found generalizing i with
  | nil => exact ⟨rfl, rfl⟩
  | cons m rest ih =>
      cases i with
      | zero => exact ⟨rfl, rfl⟩
      | succ i => exact ih i

variable {σ : Type}

/-- If no call stops its worker, all calls are listed. -/
theorem Visitor.calls_of_forM_logged {visit : Visitor σ} {found calls : List Match} {out : σ}
    {after : σ × List Match}
    (accepted : found.forM visit.logged (out, calls) = (.ok (), after)) :
    after.2 = calls ++ found := by
  induction found generalizing out calls with
  | nil =>
      obtain rfl := (Prod.mk.inj accepted).2
      exact (List.append_nil calls).symm
  | cons m rest ih =>
      rw [Work.forM_cons, Work.bind_eq] at accepted
      rcases ran : visit m out with ⟨payload | _, out'⟩
      · simp only [Visitor.logged, ran] at accepted
        cases accepted
      · simp only [Visitor.logged, ran] at accepted
        rw [ih accepted, List.append_assoc, List.singleton_append]

namespace ShardEngine

variable {settings : ShardSettings} {engine : ShardEngine} {m : Stencil}

/-- What a run says about itself accounts for the corpus and for the calls of its visitor. The calls
come in twos, a match and its inverse, which has the same two sides in the other order. -/
structure Accounts (m : Stencil) (maxChain : Nat) (texts : List Text) (stats : ShardStats)
    (calls : List Match) : Prop where
  texts_eq : stats.texts = texts.length
  symbols_eq : stats.symbols = (texts.map Text.size).sum
  postings_eq : stats.postings =
    (texts.map fun t => (m.widths.toList.map fun width => t.size + 1 - width).sum).sum
  bins : stats.tally.binsRead + stats.tally.degenerateBins =
    (List.range binCount).countP fun bin => 2 ≤ (heldIn m texts bin).length
  degenerateBins : stats.tally.degenerateBins = (List.range binCount).countP fun bin =>
    2 ≤ (heldIn m texts bin).length ∧ maxChain ≤ (heldIn m texts bin).length
  length_calls : calls.length = 2 * stats.tally.pairs
  calls_eq : ∀ i < stats.tally.pairs, ∃ found : Match, found.GenuineIn m texts ∧
    calls[2 * i]? = some found ∧ calls[2 * i + 1]? = some { a := found.b, b := found.a }

/-- What a completed run reports accounts for the calls of matches and their inverses. -/
theorem accounts_of_pairs (accepted : m.Accepted) {maxChain : Nat} {texts : List Text}
    {found calls : List Match} (listed : calls = found.flatMap fun m => [m, m.flip])
    (genuine : ∀ c ∈ calls, c.GenuineIn m texts) {tally : Tally}
    (bins : tally.binsRead + tally.degenerateBins =
      (List.range binCount).countP fun bin => 2 ≤ (heldIn m texts bin).length)
    (passedOver : tally.degenerateBins = (List.range binCount).countP fun bin =>
      2 ≤ (heldIn m texts bin).length ∧ maxChain ≤ (heldIn m texts bin).length)
    (pairs : tally.pairs = found.length) :
    Accounts m maxChain texts
      { texts := texts.length, symbols := symbolCount texts,
        postings := (postings m texts).length, tally } calls where
  texts_eq := rfl
  symbols_eq := symbolCount_eq_sum texts
  postings_eq := length_postings accepted texts
  bins := bins
  degenerateBins := passedOver
  length_calls := by simp [listed, pairs, Nat.mul_comm]
  calls_eq := by
    intro i inside
    replace inside : i < found.length := pairs ▸ inside
    obtain ⟨first, second⟩ := getElem?_flatMap_flip found i
    rw [List.getElem?_eq_getElem inside, ← listed] at first second
    exact ⟨found[i], genuine _ (List.mem_of_getElem? first), first, second⟩

/-- However the engine was used before, and whatever the visitor does: a run of one worker that
comes to its end accounts for everything. -/
theorem search_accounts {size : Nat} {offsets : Array UInt32} {sorted : Bool}
    (made : Stencil.ofOffsets size offsets sorted = .ok m) (reached : Reachable settings engine)
    (single : settings.workers = 1) (word : settings.chunkSize < Position.space)
    {texts : List Text} {visit : Visitor σ} {out : σ} {stats : ShardStats}
    (succeeded : (engine.search texts m visit out).result = .ok stats) :
    Accounts m settings.maxChain texts stats
      (engine.search texts m visit.logged (out, [])).out.2 := by
  have accepted := Stencil.accepted_of_ofOffsets made
  have patterns := Stencil.patternCount_pos made
  have taken : checkCorpus texts m = .ok () := by
    cases taken : checkCorpus texts m with
    | error fault =>
        rw [search_refused taken] at succeeded
        cases succeeded
    | ok => rfl
  have genuine : ∀ c ∈ (engine.search texts m visit.logged (out, [])).out.2,
      c.GenuineIn m texts := genuine_of_logged accepted patterns visit out
  have same := (search_logged engine texts m visit out).1.trans succeeded
  rcases ended : (shardedMatches m settings.maxChain texts).forM visit.logged (out, []) with
    ⟨payload | _, after⟩
  · obtain ⟨-, result⟩ := search_eq reached.ready single word accepted patterns taken ended
    cases same.symm.trans result
  · obtain ⟨kept, result⟩ := search_eq reached.ready single word accepted patterns taken ended
    have listed := Visitor.calls_of_forM_logged ended
    rw [List.nil_append, shardedMatches_eq_flatMap] at listed
    rw [kept] at genuine ⊢
    rw [Except.ok.inj (same.symm.trans result)]
    exact accounts_of_pairs accepted listed genuine (binsRead_add_degenerateBins ..)
      (degenerateBins_eq_countP ..) (pairs_eq_length ..)

/-- Two texts share a sample under a sorted model, after a run that its visitor stopped. -/
theorem search_accounts_after_failure :
    let m : Stencil := { size := 2, offsets := #[0, 1], widths := #[2], sorted := true }
    let t : Text := { id := "first", symbols := #[7, 9] }
    let u : Text := { id := "second", symbols := #[9, 7, 5] }
    let settings : ShardSettings := { workers := 1, chunkSize := 4, maxChain := 3 }
    ∃ engine stats, Stencil.ofOffsets 2 #[0, 1] true = .ok m ∧ Reachable settings engine ∧
      settings.workers = 1 ∧ settings.chunkSize < Position.space ∧
      (engine.search [t, u] m Visitor.keep []).result = .ok stats ∧
      stats.symbols = 5 ∧ stats.postings = 3 ∧
      Accounts m 3 [t, u] stats (engine.search [t, u] m Visitor.keep.logged ([], [])).out.2 := by
  intro m t u settings
  have made : Stencil.ofOffsets 2 #[0, 1] true = .ok m := by decide
  have created : Reachable settings { settings } := .created rfl
  have reached := created.searched [t, u] m (Visitor.keep.stoppingAt 1 (.text "enough"))
    { out := [], calls := 0 }
  have word : settings.chunkSize < Position.space := by decide
  have taken : checkCorpus [t, u] m = .ok () := by rfl
  obtain ⟨-, completed⟩ := search_of_calls reached.ready rfl word
    (Stencil.accepted_of_ofOffsets made) (Stencil.patternCount_pos made) taken
    (Visitor.willing_keep.forM_eq _ [])
  have accounts := search_accounts made reached rfl word completed
  exact ⟨_, _, made, reached, rfl, word, completed, accounts.symbols_eq, accounts.postings_eq,
    accounts⟩

end ShardEngine

end SharedRuns
