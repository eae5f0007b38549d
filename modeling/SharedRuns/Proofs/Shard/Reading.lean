import Mathlib.Data.List.Permutation
import Mathlib.Data.List.Sort
import SharedRuns.Proofs.Pairs
import SharedRuns.Proofs.Shard.Linking

/-!
# What the reading phase reports

The reading phase goes through the bins. Of a bin that holds at least two postings and not too many
it reports each pair of postings that share a sample, the posting of the larger link first, and then
the same pair turned around: `reportedPairs` lists the pairs by what the postings are, without an
arena. Calling the visitor for the bins one after another is calling it for the matches of these
pairs (`ShardPlan.forM_visitBin`).
-/

namespace SharedRuns

open Checked

/-- Two postings have texts of different names, and equal samples. -/
def CorpusPosting.Shares (m : Stencil) (x y : CorpusPosting) : Prop :=
  ¬ x.text.SameId y.text ∧ x.sample m = y.sample m

instance (m : Stencil) (x y : CorpusPosting) : Decidable (x.Shares m y) :=
  inferInstanceAs (Decidable (_ ∧ _))

/-- The match of two postings, each with the width of its own pattern. -/
def CorpusPosting.matchOf (m : Stencil) (p : CorpusPosting × CorpusPosting) : Match where
  a := p.1.side m
  b := p.2.side m

/-- The postings of a bin, by descending links. -/
def heldIn (m : Stencil) (texts : List Text) (bin : Nat) : List CorpusPosting :=
  (bucket (CorpusPosting.bin m) (postings m texts) bin).mergeSort fun x y => y.link m ≤ x.link m

/-- The pairs of a bin that share a sample: by the posting of the larger link and then by the other
one. There are none in a bin with fewer than two postings, or with `maxChain` of them or more. -/
def pairsIn (m : Stencil) (maxChain : Nat) (texts : List Text) (bin : Nat) :
    List (CorpusPosting × CorpusPosting) :=
  let held := heldIn m texts bin
  if held.length < 2 ∨ maxChain ≤ held.length then []
  else held.flatMap fun x => (held.filter fun y => y.link m < x.link m ∧ x.Shares m y).map (x, ·)

/-- The pairs of all bins, each pair followed by the same one turned around. -/
def reportedPairs (m : Stencil) (maxChain : Nat) (texts : List Text) :
    List (CorpusPosting × CorpusPosting) :=
  (List.range binCount).flatMap fun bin =>
    (pairsIn m maxChain texts bin).flatMap fun p => [p, p.swap]

/-- The matches of the pairs that are reported. -/
def shardedMatches (m : Stencil) (maxChain : Nat) (texts : List Text) : List Match :=
  (reportedPairs m maxChain texts).map (CorpusPosting.matchOf m)

section

variable {m : Stencil} {texts : List Text} {bin maxChain : Nat}

theorem link_injective {x y : CorpusPosting} (memberX : x ∈ postings m texts)
    (memberY : y ∈ postings m texts) (same : x.link m = y.link m) : x = y := by
  have nodup : ((postings m texts).map (CorpusPosting.link m)).Nodup := by
    rw [List.Nodup, List.pairwise_map]
    exact postings_ascending.imp Nat.ne_of_lt
  exact List.inj_on_of_nodup_map nodup memberX memberY same

theorem mem_heldIn {x : CorpusPosting} :
    x ∈ heldIn m texts bin ↔ x ∈ postings m texts ∧ x.bin m = bin := by
  rw [heldIn, List.mem_mergeSort, mem_bucket]

theorem length_heldIn_le (m : Stencil) (texts : List Text) (bin : Nat) :
    (heldIn m texts bin).length ≤ (postings m texts).length := by
  rw [heldIn, List.length_mergeSort]
  exact List.length_filter_le _ _

theorem nodup_heldIn : (heldIn m texts bin).Nodup :=
  (List.mergeSort_perm _ _).nodup_iff.mpr (nodup_postings.filter _)

/-- The postings of a bin are met newest first where they are listed by descending links. -/
theorem heldIn_eq_reverse :
    heldIn m texts bin = (bucket (CorpusPosting.bin m) (postings m texts) bin).reverse := by
  let le (x y : CorpusPosting) : Bool := y.link m ≤ x.link m
  have sorted : (heldIn m texts bin).Pairwise fun x y => le x y :=
    List.pairwise_mergeSort (fun x y z => by simp only [le, decide_eq_true_eq]; omega)
      (fun x y => by simp only [le, Bool.or_eq_true, decide_eq_true_eq]; omega) _
  have descending : (bucket (CorpusPosting.bin m) (postings m texts) bin).reverse.Pairwise
      fun x y => le x y := by
    rw [List.pairwise_reverse]
    exact (postings_ascending.filter _).imp fun less => decide_eq_true (Nat.le_of_lt less)
  refine List.Perm.eq_of_pairwise ?_ sorted descending
    ((List.mergeSort_perm _ _).trans (List.reverse_perm _).symm)
  intro x y memberX memberY le₁ le₂
  have inX := (mem_heldIn.mp memberX).1
  have inY := (mem_bucket.mp (List.mem_reverse.mp memberY)).1
  exact link_injective inX inY (Nat.le_antisymm (of_decide_eq_true le₂) (of_decide_eq_true le₁))

theorem heldIn_descending : (heldIn m texts bin).Pairwise fun x y => y.link m < x.link m := by
  rw [heldIn_eq_reverse, List.pairwise_reverse]
  exact postings_ascending.filter _

theorem pairsIn_eq_nil (many : maxChain ≤ (heldIn m texts bin).length) :
    pairsIn m maxChain texts bin = [] :=
  if_pos (.inr many)

theorem pairsIn_eq (few : (heldIn m texts bin).length < maxChain) :
    pairsIn m maxChain texts bin =
      (pairs (heldIn m texts bin)).filter fun p => p.1.Shares m p.2 := by
  by_cases sparse : (heldIn m texts bin).length < 2
  · rw [pairsIn, if_pos (.inl sparse), pairs_eq_nil sparse, List.filter_nil]
  · rw [pairsIn, if_neg (by omega), pairs_eq_of_descending heldIn_descending, List.filter_flatMap]
    refine List.flatMap_congr fun x _ => ?_
    rw [List.filter_map, List.filter_filter]
    congr 1
    refine List.filter_congr fun y _ => ?_
    simp [Bool.and_comm]

theorem shares_symm {x y : CorpusPosting} (h : x.Shares m y) : y.Shares m x :=
  ⟨fun same => h.1 (Eq.symm same), h.2.symm⟩

theorem mem_pairsIn {p : CorpusPosting × CorpusPosting}
    (member : p ∈ pairsIn m maxChain texts bin) :
    p ∈ pairs (heldIn m texts bin) ∧ p.1.Shares m p.2 := by
  rcases Nat.lt_or_ge (heldIn m texts bin).length maxChain with few | many
  · rw [pairsIn_eq few] at member
    exact ⟨(List.mem_filter.mp member).1, of_decide_eq_true (List.mem_filter.mp member).2⟩
  · rw [pairsIn_eq_nil many] at member
    cases member

theorem nodup_pairsIn : (pairsIn m maxChain texts bin).Nodup := by
  rcases Nat.lt_or_ge (heldIn m texts bin).length maxChain with few | many
  · rw [pairsIn_eq few]
    exact (nodup_pairs nodup_heldIn).filter _
  · rw [pairsIn_eq_nil many]
    exact .nil

/-- No pair is reported twice in the same direction. -/
theorem nodup_reportedPairs : (reportedPairs m maxChain texts).Nodup := by
  refine List.nodup_flatMap.mpr ⟨fun bin _ => ?_, List.nodup_range.imp ?_⟩
  · refine nodup_bothWays nodup_pairsIn fun p inP q inQ same => ?_
    exact swap_notMem_pairs nodup_heldIn (mem_pairsIn inQ).1 (same ▸ (mem_pairsIn inP).1)
  · have inBin : ∀ bin, ∀ p ∈ (pairsIn m maxChain texts bin).flatMap fun p => [p, p.swap],
        p.1.bin m = bin := by
      intro bin p member
      obtain ⟨q, inPairs, direction⟩ := List.mem_flatMap.mp member
      obtain ⟨first, second⟩ := mem_of_mem_pairs (mem_pairsIn inPairs).1
      rcases List.mem_pair.mp direction with rfl | rfl
      · exact (mem_heldIn.mp first).2
      · exact (mem_heldIn.mp second).2
    intro bin other different p inFirst inSecond
    exact different ((inBin bin p inFirst).symm.trans (inBin other p inSecond))

/-- Equal samples lie in one bin, also where samples are put in order only after their symbols were
mixed. -/
theorem bin_eq_of_sample_eq {x y : CorpusPosting} (same : x.sample m = y.sample m) :
    x.bin m = y.bin m := by
  have zero : Fingerprint.mix 0 = 0 := rfl
  have mixed := Stencil.arrange_map_eq same Fingerprint.mix
  rw [← Stencil.sampleOf_map m zero, ← Stencil.sampleOf_map m zero] at mixed
  exact congrArg (fun sample => binNumber (Fingerprint.ofMixed sample)) mixed

/-- Whatever postings share a sample in a bin that is read are reported. -/
theorem mem_reportedPairs {x y : CorpusPosting} (memberX : x ∈ postings m texts)
    (memberY : y ∈ postings m texts) (shares : x.Shares m y)
    (few : (heldIn m texts (x.bin m)).length < maxChain) :
    (x, y) ∈ reportedPairs m maxChain texts := by
  have inX : x ∈ heldIn m texts (x.bin m) := mem_heldIn.mpr ⟨memberX, rfl⟩
  have inY : y ∈ heldIn m texts (x.bin m) :=
    mem_heldIn.mpr ⟨memberY, (bin_eq_of_sample_eq shares.2).symm⟩
  have different : x ≠ y := by
    rintro rfl
    exact shares.1 rfl
  refine List.mem_flatMap.mpr ⟨x.bin m, List.mem_range.mpr (binNumber_lt _), ?_⟩
  rw [pairsIn_eq few, List.mem_flatMap]
  rcases mem_pairs_of_ne inX inY different with later | earlier
  · exact ⟨(x, y), List.mem_filter.mpr ⟨later, decide_eq_true shares⟩, by simp⟩
  · exact ⟨(y, x), List.mem_filter.mpr ⟨earlier, decide_eq_true (shares_symm shares)⟩, by simp⟩

end

/-- What reading a bin reports, by the postings that it holds. -/
def binReading (m : Stencil) (maxChain : Nat) (texts : List Text) (bin : Nat) : BinReading where
  pairs := (pairsIn m maxChain texts bin).map (CorpusPosting.matchOf m)
  tally :=
    if (heldIn m texts bin).length < 2 then .sparse
    else if maxChain ≤ (heldIn m texts bin).length then .degenerate
    else .read (pairsIn m maxChain texts bin).length

theorem shardedMatches_eq (m : Stencil) (maxChain : Nat) (texts : List Text) :
    shardedMatches m maxChain texts =
      (List.range binCount).flatMap fun bin => (binReading m maxChain texts bin).calls := by
  rw [shardedMatches, reportedPairs, List.map_flatMap]
  refine List.flatMap_congr fun bin _ => ?_
  rw [List.map_flatMap, BinReading.calls, binReading, List.flatMap_map]
  rfl

/-- Where all postings lie in one bin, only this bin has something to report. -/
theorem shardedMatches_of_one_bin {m : Stencil} {texts : List Text} {bin : Nat}
    (only : ∀ x ∈ postings m texts, x.bin m = bin) (inside : bin < binCount) (maxChain : Nat) :
    shardedMatches m maxChain texts = (binReading m maxChain texts bin).calls := by
  have others : ∀ other, other ≠ bin → (binReading m maxChain texts other).calls = [] := by
    intro other different
    have empty : heldIn m texts other = [] := by
      refine List.eq_nil_iff_forall_not_mem.mpr fun x member => ?_
      obtain ⟨inCorpus, inBin⟩ := mem_heldIn.mp member
      exact different (inBin.symm.trans (only x inCorpus))
    have none : pairsIn m maxChain texts other = [] := by
      rw [pairsIn, empty]
      exact if_pos (.inl Nat.two_pos)
    rw [BinReading.calls, binReading, none]
    rfl
  have before : (List.range bin).flatMap
      (fun bin => (binReading m maxChain texts bin).calls) = [] :=
    List.flatMap_eq_nil_iff.mpr fun other member =>
      others other (Nat.ne_of_lt (List.mem_range.mp member))
  have behind : (List.range' (bin + 1) (binCount - (bin + 1))).flatMap
      (fun bin => (binReading m maxChain texts bin).calls) = [] :=
    List.flatMap_eq_nil_iff.mpr fun other member =>
      others other (Nat.ne_of_gt (List.mem_range'_1.mp member).1)
  rw [shardedMatches_eq, flatMap_range_split _ inside, before, behind, List.nil_append,
    List.append_nil]

/-- Two texts hold the same two symbols in another order, and a sorted model finds them: first from
the side of the newer posting. -/
theorem shardedMatches_of_two_texts :
    let m : Stencil := { size := 2, offsets := #[0, 1], widths := #[2], sorted := true }
    let t : Text := { id := "first", symbols := #[7, 9] }
    let u : Text := { id := "second", symbols := #[9, 7] }
    shardedMatches m 3 [t, u] =
      [{ a := ⟨u, 0, 2⟩, b := ⟨t, 0, 2⟩ }, { a := ⟨t, 0, 2⟩, b := ⟨u, 0, 2⟩ }] := by
  intro m t u
  have listed : postings m [t, u] = [⟨t, ⟨0, 0⟩, 0, 0⟩, ⟨u, ⟨1, 0⟩, 2, 0⟩] := by cbv
  have inBin : ∀ x ∈ postings m [t, u], x.bin m = 893957 := by
    rw [listed]
    simp only [List.forall_mem_cons, List.not_mem_nil, false_implies, implies_true, and_true]
    exact ⟨by cbv, by cbv⟩
  have held : heldIn m [t, u] 893957 = [⟨u, ⟨1, 0⟩, 2, 0⟩, ⟨t, ⟨0, 0⟩, 0, 0⟩] := by
    rw [heldIn_eq_reverse, bucket, List.filter_eq_self.mpr (by simpa using inBin), listed]
    rfl
  rw [shardedMatches_of_one_bin inBin (by decide), BinReading.calls, binReading, pairsIn, held]
  cbv

section

variable {m : Stencil} {maxChain : Nat} {texts : List Text} {held held' : List CorpusPosting}

/-- What reading a chain of postings reports, in whatever order it has them. -/
def chainReading (m : Stencil) (maxChain : Nat) (held : List CorpusPosting) : BinReading :=
  if held.length < 2 then { pairs := [], tally := .sparse }
  else if maxChain ≤ held.length then { pairs := [], tally := .degenerate }
  else
    let sharing := (pairs held).filter fun p => p.1.Shares m p.2
    { pairs := sharing.map (CorpusPosting.matchOf m), tally := .read sharing.length }

theorem binReading_eq (m : Stencil) (maxChain : Nat) (texts : List Text) (bin : Nat) :
    binReading m maxChain texts bin = chainReading m maxChain (heldIn m texts bin) := by
  rw [binReading, chainReading]
  by_cases sparse : (heldIn m texts bin).length < 2
  · have none : pairsIn m maxChain texts bin = [] := if_pos (.inl sparse)
    rw [if_pos sparse, if_pos sparse, none]
    rfl
  · rw [if_neg sparse, if_neg sparse]
    by_cases many : maxChain ≤ (heldIn m texts bin).length
    · rw [if_pos many, if_pos many, pairsIn_eq_nil many]
      rfl
    · rw [if_neg many, if_neg many, pairsIn_eq (Nat.not_le.mp many)]

/-- Since each pair is reported from both sides, it does not matter in which order a chain has its
postings. -/
theorem chainReading_perm (perm : held.Perm held') :
    (chainReading m maxChain held).calls.Perm (chainReading m maxChain held').calls ∧
      (chainReading m maxChain held).tally = (chainReading m maxChain held').tally := by
  have calls (sharing : List (CorpusPosting × CorpusPosting)) :
      ((sharing.map (CorpusPosting.matchOf m)).flatMap fun found => [found, found.flip]) =
        sharing.flatMap fun p => [CorpusPosting.matchOf m p, CorpusPosting.matchOf m p.swap] :=
    List.flatMap_map ..
  have same := bothWays_perm (CorpusPosting.Shares m) (CorpusPosting.matchOf m) shares_symm
    (fun _ shares => shares.1 rfl) perm
  rw [← calls, ← calls] at same
  rw [chainReading, chainReading, perm.length_eq]
  split
  · exact ⟨.refl _, rfl⟩
  · split
    · exact ⟨.refl _, rfl⟩
    · refine ⟨same, ?_⟩
      have length := same.length_eq
      simp only [List.length_flatMap, List.length_cons, List.length_nil, List.map_const',
        List.sum_replicate_nat, List.length_map] at length
      exact congrArg Tally.read (Nat.eq_of_mul_eq_mul_right (by decide) length)

end

namespace ShardPlan

variable {p : ShardPlan} {texts : List Text}

/-- A posting as the reading phase looks it up. -/
def lookedUp (m : Stencil) (x : CorpusPosting) : Posting where
  text := x.text
  place := x.place
  width := m.widthOf x.pattern
  sample := x.sample m

theorem match?_lookedUp {m : Stencil} {x y : CorpusPosting} (memberX : x ∈ postings m texts)
    (memberY : y ∈ postings m texts) :
    (lookedUp m x).match? (lookedUp m y) =
      if x.Shares m y then some (CorpusPosting.matchOf m (x, y)) else none := by
  have sameText : x.place.text = y.place.text → x.text.SameId y.text := by
    intro same
    have lookupX := (text_of_spot (mem_postings.mp memberX).1).2.1
    have lookupY := (text_of_spot (mem_postings.mp memberY).1).2.1
    rw [← same, lookupX] at lookupY
    exact congrArg Text.id (Option.some.inj lookupY)
  by_cases shares : x.Shares m y
  · rw [if_pos shares]
    refine if_neg ?_
    rintro (same | same | different)
    · exact shares.1 (sameText same)
    · exact shares.1 same
    · exact different shares.2
  · rw [if_neg shares]
    refine if_pos ?_
    by_contra apart
    simp only [not_or, not_not] at apart
    exact shares ⟨apart.2.1, apart.2.2⟩

theorem matchesAmong_lookedUp {m : Stencil} {xs : List CorpusPosting}
    (inCorpus : ∀ x ∈ xs, x ∈ postings m texts) :
    matchesAmong (xs.map (lookedUp m)) =
      ((pairs xs).filter fun p => p.1.Shares m p.2).map (CorpusPosting.matchOf m) := by
  induction xs with
  | nil => rfl
  | cons x rest ih =>
      rw [List.forall_mem_cons] at inCorpus
      have first : (rest.map (lookedUp m)).filterMap (lookedUp m x).match? =
          ((rest.map (x, ·)).filter fun p => p.1.Shares m p.2).map (CorpusPosting.matchOf m) := by
        rw [List.filter_map, List.map_map, List.filterMap_map]
        refine .trans (List.filterMap_congr fun y member => ?_) (filterMap_ite _ rest)
        exact match?_lookedUp inCorpus.1 (inCorpus.2 y member)
      rw [List.map_cons, matchesAmong, first, ih inCorpus.2, pairs, List.filter_append,
        List.map_append]

/-- A chain, cut off where it gets too long, tells what is to be reported. -/
theorem Serves.readBin_of_chain (serves : p.Serves texts) (enough : 2 ≤ p.maxChain) {arena : Arena}
    {bin : Nat} {held : List CorpusPosting}
    (inCorpus : ∀ x ∈ held, x ∈ postings p.model texts)
    (chain : arena.chain p.maxChain bin =
      .ok ((held.map fun x => (x.job p.model).link).take p.maxChain)) :
    p.readBin arena bin = .ok (chainReading p.model p.maxChain held) := by
  have found : ((held.map fun x => (x.job p.model).link).take p.maxChain).mapM p.postingOf =
      .ok ((held.take p.maxChain).map (lookedUp p.model)) := by
    rw [← List.map_take, List.mapM_map]
    exact mapM_ok fun x member => serves.postingOf_eq (inCorpus x (List.mem_of_mem_take member))
  have length : ((held.take p.maxChain).map (lookedUp p.model)).length =
      min p.maxChain held.length := by
    rw [List.length_map, List.length_take]
  rw [readBin, chain, ok_bind, found, ok_bind, length, chainReading]
  by_cases sparse : held.length < 2
  · rw [if_pos (by omega), if_pos sparse]
    rfl
  · by_cases overfull : p.maxChain ≤ held.length
    · rw [if_neg (by omega), if_pos (by omega), if_neg sparse, if_pos overfull]
      rfl
    · rw [if_neg (by omega), if_neg (by omega), if_neg sparse, if_neg overfull,
        List.take_of_length_le (by omega), matchesAmong_lookedUp inCorpus]
      simp only [List.length_map, pure_eq_ok]

variable {σ α : Type}

/-- Work on the visitor's memory, as a step of the reading phase. -/
def onVisitor (x : Work σ α) : Work (ReadMemory σ) α := fun memory =>
  ((x memory.out).1, { out := (x memory.out).2, tally := memory.tally })

theorem onVisitor_bind {β : Type} (x : Work σ α) (f : α → Work σ β) :
    onVisitor (x >>= f) = onVisitor x >>= fun a => onVisitor (f a) := by
  funext memory
  rw [onVisitor, Work.bind_eq, Work.bind_eq, onVisitor]
  rcases x memory.out with ⟨_ | _, _⟩ <;> rfl

/-- The visitor is called for the matches of a bin one after another. -/
theorem forM_callBoth (visit : Visitor σ) (found : List Match) :
    found.forM (callBoth visit) = onVisitor ((found.flatMap fun m => [m, m.flip]).forM visit) := by
  induction found with
  | nil => rfl
  | cons m rest ih =>
      have calls : ((m :: rest).flatMap fun m => [m, m.flip]) =
          m :: m.flip :: rest.flatMap fun m => [m, m.flip] := rfl
      rw [Work.forM_cons, ih, calls, Work.forM_cons, Work.forM_cons, onVisitor_bind, callBoth,
        bind_assoc]
      simp only [onVisitor_bind]
      rfl

/-- A bin is visited: its calls are made, and counted if none of them stopped the worker. -/
theorem visitBin_eq {p : ShardPlan} {arena : Arena} {bin : Nat} {r : BinReading}
    (read : p.readBin arena bin = .ok r) (visit : Visitor σ) (out : σ) (tally : Tally) :
    p.visitBin arena visit bin { out, tally } =
      match r.calls.forM visit out with
      | (.ok (), out) => (.ok (), { out, tally := tally.add r.tally })
      | (.error payload, out) => (.error payload, { out, tally }) := by
  have known : (Work.ofExcept (p.readBin arena bin) : Work (ReadMemory σ) BinReading)
      { out, tally } = (.ok r, { out, tally }) := by
    rw [read]
    rfl
  rw [visitBin, Work.bind_of_ok known, forM_callBoth]
  rcases ran : r.calls.forM visit out with ⟨payload | _, after⟩
  · have stopped : onVisitor (r.calls.forM visit) { out, tally } =
        (.error payload, { out := after, tally }) := by
      rw [onVisitor, ran]
    exact Work.bind_of_error stopped
  · have called : onVisitor (r.calls.forM visit) { out, tally } =
        (.ok (), { out := after, tally }) := by
      rw [onVisitor, ran]
    exact Work.bind_of_ok called

/-- Visiting bins one after another makes the calls of all of them, up to the one that stops the
worker. The tally is that of all bins if none does. -/
theorem forM_visitBin {p : ShardPlan} {arena : Arena} {bins : List Nat} {r : Nat → BinReading}
    (read : ∀ bin ∈ bins, p.readBin arena bin = .ok (r bin)) (visit : Visitor σ) {out : σ}
    (tally : Tally) {ended : Except Payload Unit × σ}
    (calls : (bins.flatMap fun bin => (r bin).calls).forM visit out = ended) :
    ∃ counted, bins.forM (p.visitBin arena visit) { out, tally } =
        (ended.1, { out := ended.2, tally := counted }) ∧
      (ended.1 = .ok () →
        counted = bins.foldl (fun tally bin => tally.add (r bin).tally) tally) := by
  induction bins generalizing out tally with
  | nil =>
      subst calls
      exact ⟨tally, rfl, fun _ => rfl⟩
  | cons bin rest ih =>
      rw [List.forall_mem_cons] at read
      have first := visitBin_eq read.1 visit out tally
      rw [List.flatMap_cons, Work.forM_append, Work.bind_eq] at calls
      rw [Work.forM_cons, Work.bind_eq, first]
      rcases ran : (r bin).calls.forM visit out with ⟨payload | _, after⟩
      · rw [ran] at calls
        subst calls
        exact ⟨tally, rfl, nofun⟩
      · rw [ran] at calls
        exact ih read.2 (tally.add (r bin).tally) calls

end ShardPlan

end SharedRuns
