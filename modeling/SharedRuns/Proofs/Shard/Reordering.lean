import SharedRuns.Proofs.Shard.ShortBins

/-!
# A corpus in another order

If the texts of a corpus are put in another order, its postings get other positions and its texts
other numbers; but what a posting's sample, its bin and its window are does not depend on these.
`flatMap_postings_of_perm` says this of whatever is made of postings, and so all bins hold as many
postings as before (`length_heldIn_of_perm`), the same bins are below a limit, and the same matches
are found in them (`shardedMatches_of_perm`).
-/

namespace SharedRuns

/-- Two postings are the same start of the same text, under the same pattern. They may have been
numbered in different corpora. -/
structure CorpusPosting.Alike (x y : CorpusPosting) : Prop where
  text_eq : x.text = y.text
  offset_eq : x.place.offset = y.place.offset
  pattern_eq : x.pattern = y.pattern

namespace CorpusPosting.Alike

variable {m : Stencil} {x y x' y' : CorpusPosting}

theorem sample_eq (alike : x.Alike y) : x.sample m = y.sample m := by
  rw [sample, sample, alike.text_eq, alike.offset_eq, alike.pattern_eq]

theorem bin_eq (alike : x.Alike y) : x.bin m = y.bin m := by
  rw [bin, bin, alike.text_eq, alike.offset_eq, alike.pattern_eq]

theorem side_eq (alike : x.Alike y) : x.side m = y.side m := by
  rw [side, side, alike.text_eq, alike.offset_eq, alike.pattern_eq]

theorem shares_iff (first : x.Alike x') (second : y.Alike y') :
    x.Shares m y ↔ x'.Shares m y' := by
  rw [Shares, Shares, first.text_eq, second.text_eq, first.sample_eq, second.sample_eq]

end CorpusPosting.Alike

section

variable {β : Type} {m : Stencil} {texts texts' : List Text} {limit bin : Nat}

/-- What is made of a posting by its text, its start and its pattern is made of all postings as
often, whatever the order of the texts. -/
theorem flatMap_postings_of_perm (perm : texts.Perm texts') {f g : CorpusPosting → List β}
    (same : ∀ x y, x.Alike y → (f x).Perm (g y)) :
    ((postings m texts).flatMap f).Perm ((postings m texts').flatMap g) := by
  -- One posting stands for all that are alike, in whichever corpus.
  let unnumbered (t : Text) (start pattern : Nat) : CorpusPosting :=
    { text := t, place := { text := 0, offset := start }, position := 0, pattern }
  let h (t : Text) (start pattern : Nat) : List β := g (unnumbered t start pattern)
  have ofF (x : CorpusPosting) : (f x).Perm (h x.text x.place.offset x.pattern) :=
    same x _ ⟨rfl, rfl, rfl⟩
  have ofG (x : CorpusPosting) : (h x.text x.place.offset x.pattern).Perm (g x) :=
    (ofF x).symm.trans (same x x ⟨rfl, rfl, rfl⟩)
  calc ((postings m texts).flatMap f)
    _ |>.Perm ((postings m texts).flatMap fun x => h x.text x.place.offset x.pattern) :=
        .flatMap_left _ fun x _ => ofF x
    _ |>.Perm ((postings m texts').flatMap fun x => h x.text x.place.offset x.pattern) := by
        rw [flatMap_postings, flatMap_postings]
        exact perm.flatMap_right _
    _ |>.Perm ((postings m texts').flatMap g) := .flatMap_left _ fun x _ => ofG x

theorem length_postings_of_perm (perm : texts.Perm texts') :
    (postings m texts).length = (postings m texts').length := by
  have same := flatMap_postings_of_perm (m := m) perm (f := fun _ => [()]) fun _ _ _ => .refl _
  simpa using same.length_eq

/-- A bin holds as many postings in one order as in another one. -/
theorem length_heldIn_of_perm (perm : texts.Perm texts') (bin : Nat) :
    (heldIn m texts bin).length = (heldIn m texts' bin).length := by
  have counted (texts : List Text) : (heldIn m texts bin).length =
      ((postings m texts).flatMap fun x => if x.bin m = bin then [()] else []).length := by
    have each (x : CorpusPosting) : (if x.bin m = bin then [()] else []).length =
        if x.bin m = bin then 1 else 0 := apply_ite ..
    rw [heldIn, List.length_mergeSort, bucket, ← List.countP_eq_length_filter,
      List.length_flatMap]
    simp only [each, sum_map_ite_eq_countP]
  rw [counted, counted]
  refine (flatMap_postings_of_perm perm fun x y alike => ?_).length_eq
  rw [alike.bin_eq]

/-- The pairs below a limit by their two postings. -/
theorem map_sharingPairsBelow (f : CorpusPosting × CorpusPosting → β) :
    (sharingPairsBelow m limit texts).map f =
      (postings m texts).flatMap fun x => (postings m texts).filterMap fun y =>
        if x.Shares m y ∧ (heldIn m texts (x.bin m)).length < limit then some (f (x, y))
        else none := by
  show ((((postings m texts).flatMap fun x => (postings m texts).map (x, ·)).filter _).filter
    _).map f = _
  rw [List.filter_filter, List.filter_flatMap, List.map_flatMap]
  refine List.flatMap_congr fun x _ => ?_
  rw [filterMap_ite, List.filter_map, List.map_map]
  refine congrArg (List.map _) (List.filter_congr fun y _ => ?_)
  simp [Bool.and_comm]

/-- Whatever the order of the texts, the same matches are shared below a limit. -/
theorem sharingPairsBelow_of_perm (perm : texts.Perm texts') (limit : Nat) :
    ((sharingPairsBelow m limit texts).map (CorpusPosting.matchOf m)).Perm
      ((sharingPairsBelow m limit texts').map (CorpusPosting.matchOf m)) := by
  simp only [map_sharingPairsBelow, List.filterMap_eq_flatMap_toList]
  refine flatMap_postings_of_perm perm fun x x' first => ?_
  refine flatMap_postings_of_perm perm fun y y' second => .of_eq (congrArg Option.toList ?_)
  rw [length_heldIn_of_perm perm, first.bin_eq]
  refine if_congr (and_congr_left' (first.shares_iff second)) (congrArg some ?_) rfl
  rw [CorpusPosting.matchOf, CorpusPosting.matchOf, first.side_eq, second.side_eq]

theorem sharingPairs_of_perm (perm : texts.Perm texts') :
    ((sharingPairs m texts).map (CorpusPosting.matchOf m)).Perm
      ((sharingPairs m texts').map (CorpusPosting.matchOf m)) := by
  have whole := sharingPairsBelow_of_perm (m := m) perm ((postings m texts).length + 1)
  rwa [sharingPairsBelow_eq_self (Nat.lt_succ_self _), sharingPairsBelow_eq_self] at whole
  rw [← length_postings_of_perm perm]
  exact Nat.lt_succ_self _

/-- Whatever the order of the texts, a sharded engine of one worker finds the same matches. -/
theorem shardedMatches_of_perm (perm : texts.Perm texts') (maxChain : Nat) :
    (shardedMatches m maxChain texts).Perm (shardedMatches m maxChain texts') :=
  calc shardedMatches m maxChain texts
    _ |>.Perm ((sharingPairsBelow m maxChain texts).map (CorpusPosting.matchOf m)) :=
        (reportedPairs_perm_below m maxChain texts).map _
    _ |>.Perm ((sharingPairsBelow m maxChain texts').map (CorpusPosting.matchOf m)) :=
        sharingPairsBelow_of_perm perm maxChain
    _ |>.Perm (shardedMatches m maxChain texts') :=
        ((reportedPairs_perm_below m maxChain texts').map _).symm

end

namespace ShardEngine

variable {m : Stencil} {texts texts' : List Text}

theorem symbolCount_of_perm (perm : texts.Perm texts') :
    symbolCount texts = symbolCount texts' := by
  rw [symbolCount_eq_sum, symbolCount_eq_sum]
  exact (perm.map Text.size).sum_eq

/-- A corpus that is refused is refused in every order, for the same reason. -/
theorem checkCorpus_of_perm (perm : texts.Perm texts') (m : Stencil) :
    checkCorpus texts m = checkCorpus texts' m := by
  rw [checkCorpus, checkCorpus, perm.length_eq, symbolCount_of_perm perm]

end ShardEngine

end SharedRuns
