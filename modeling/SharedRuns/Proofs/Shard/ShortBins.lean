import SharedRuns.Proofs.Engines.Samples
import SharedRuns.Proofs.Shard.Statistics

/-!
# The pairs of bins below a limit

The loop that follows a chain stops at the limit of the settings, so a chain of that many postings
looks like one of more: a bin is passed over when it has `maxChain` postings, and not only when it
has more. What is reported is therefore what is shared in the bins below the limit
(`reportedPairs_perm_below`). The least limit that the settings may have is two. With it nothing is
ever reported (`shardedMatches_two`), though each chain of two is a pair.
-/

namespace SharedRuns

variable {m : Stencil} {maxChain : Nat} {texts : List Text}

/-- The pairs of postings that share a sample, each in both directions, in the bins of fewer than
`limit` postings. -/
def sharingPairsBelow (m : Stencil) (limit : Nat) (texts : List Text) :
    List (CorpusPosting × CorpusPosting) :=
  (sharingPairs m texts).filter fun p => (heldIn m texts (p.1.bin m)).length < limit

theorem sharingPairsBelow_eq_self (short : (postings m texts).length < maxChain) :
    sharingPairsBelow m maxChain texts = sharingPairs m texts :=
  List.filter_eq_self.mpr fun _ _ =>
    decide_eq_true (Nat.lt_of_le_of_lt (length_heldIn_le m texts _) short)

theorem few_of_mem_reportedPairs {p : CorpusPosting × CorpusPosting}
    (member : p ∈ reportedPairs m maxChain texts) :
    (heldIn m texts (p.1.bin m)).length < maxChain := by
  obtain ⟨bin, -, inBin⟩ := List.mem_flatMap.mp member
  obtain ⟨q, found, direction⟩ := List.mem_flatMap.mp inBin
  obtain ⟨first, second⟩ := mem_of_mem_pairs (mem_pairsIn found).1
  have bin_eq : p.1.bin m = bin := by
    rcases List.mem_pair.mp direction with rfl | rfl
    · exact (mem_heldIn.mp first).2
    · exact (mem_heldIn.mp second).2
  rw [bin_eq]
  refine Nat.lt_of_not_le fun many => ?_
  rw [pairsIn_eq_nil many] at found
  cases found

/-- The limit excludes whole bins, and nothing else. -/
theorem reportedPairs_perm_below (m : Stencil) (maxChain : Nat) (texts : List Text) :
    (reportedPairs m maxChain texts).Perm (sharingPairsBelow m maxChain texts) := by
  refine (List.perm_ext_iff_of_nodup nodup_reportedPairs (nodup_sharingPairs.filter _)).mpr
    fun p => ?_
  rw [List.mem_filter, decide_eq_true_eq]
  constructor
  · intro reported
    exact ⟨mem_sharingPairs_of_reported reported, few_of_mem_reportedPairs reported⟩
  · rintro ⟨shared, few⟩
    obtain ⟨⟨memberX, memberY⟩, shares⟩ := mem_sharingPairs.mp shared
    exact mem_reportedPairs memberX memberY shares few

/-- Two postings that share a sample make a bin of two. -/
theorem two_le_length_heldIn {p : CorpusPosting × CorpusPosting}
    (shared : p ∈ sharingPairs m texts) : 2 ≤ (heldIn m texts (p.1.bin m)).length := by
  obtain ⟨⟨memberX, memberY⟩, shares⟩ := mem_sharingPairs.mp shared
  have different : p.1 ≠ p.2 := fun same => shares.1 (congrArg (Text.id ∘ CorpusPosting.text) same)
  have both : [p.1, p.2].Nodup := by simpa using different
  refine (both.subperm fun x member => mem_heldIn.mpr ?_).length_le
  rcases List.mem_pair.mp member with rfl | rfl
  · exact ⟨memberX, rfl⟩
  · exact ⟨memberY, (bin_eq_of_sample_eq shares.2).symm⟩

/-- Under a limit of two no pair is reported, whatever the corpus. -/
theorem shardedMatches_two (m : Stencil) (texts : List Text) : shardedMatches m 2 texts = [] := by
  have none : reportedPairs m 2 texts = [] :=
    List.eq_nil_iff_forall_not_mem.mpr fun p reported =>
      Nat.not_lt.mpr (two_le_length_heldIn (mem_sharingPairs_of_reported reported))
        (few_of_mem_reportedPairs reported)
  rw [shardedMatches, none, List.map_nil]

theorem degenerateBins_eq_of_le (enough : 2 ≤ maxChain) :
    (ShardEngine.tallyOf m maxChain texts).degenerateBins =
      (List.range binCount).countP fun bin => maxChain ≤ (heldIn m texts bin).length := by
  rw [degenerateBins_eq_countP]
  refine List.countP_congr fun bin _ => ?_
  rw [decide_eq_true_eq, decide_eq_true_eq]
  exact ⟨And.right, fun many => ⟨Nat.le_trans enough many, many⟩⟩

/-- A search has read the bins of fewer than `limit` postings and no others: it reports what is
shared in these, each pair in both directions, and counts the others. -/
structure ReadsBelow (m : Stencil) (limit : Nat) (texts : List Text)
    (result : Except Fault ShardStats) (calls : List Match) : Prop where
  calls_perm : calls.Perm ((sharingPairsBelow m limit texts).map (CorpusPosting.matchOf m))
  passedOver : ∃ stats, result = .ok stats ∧ stats.tally.degenerateBins =
    (List.range binCount).countP fun bin => limit ≤ (heldIn m texts bin).length

theorem readsBelow_of_perm (enough : 2 ≤ maxChain) {calls : List Match}
    (called : calls.Perm (shardedMatches m maxChain texts)) {tally : Tally}
    (tallied : tally = ShardEngine.tallyOf m maxChain texts) (symbols linked : Nat) :
    ReadsBelow m maxChain texts
      (.ok { texts := texts.length, symbols, postings := linked, tally }) calls where
  calls_perm := called.trans ((reportedPairs_perm_below m maxChain texts).map _)
  passedOver := ⟨_, rfl, by rw [tallied, degenerateBins_eq_of_le enough]⟩

end SharedRuns
