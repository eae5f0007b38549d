import SharedRuns.Proofs.Postings
import SharedRuns.Proofs.SuffixSort.Buckets

/-!
# What a bin holds, and what is read from it

A table of postings is filled and cleared in any order. `heldPostings` computes what it holds from
the calls alone, without any bins: the postings pushed since the last clearing. Each bin holds those
of them whose fingerprints end in its twenty bits, in the order in which they were pushed.

A posting is unfolded by a fingerprint of its bin, its own or another one. Its own gives back both
numbers. Any other one gives two wrong numbers, wrong by one mask that is a multiple of `binCount`,
so that a number below `binCount` is never taken for another number below `binCount`
(`PostingTable.bins_hold_and_unfold`).
-/

namespace SharedRuns

/-- A call of a table of postings. -/
inductive TableCall (α : Type) where
  | push (hash : UInt32) (posting : α)
  | clear

/-- The postings held after one more call, each with the fingerprint that it was pushed under. -/
def TableCall.hold {α : Type} (held : List (UInt32 × α)) : TableCall α → List (UInt32 × α)
  | .push hash posting => held ++ [(hash, posting)]
  | .clear => []

/-- The postings that were pushed since the last clearing, in their order. -/
def heldPostings {α : Type} (calls : List (TableCall α)) : List (UInt32 × α) :=
  calls.foldl TableCall.hold []

namespace PostingTable

variable {α : Type}

/-- The table after a call. -/
def perform (t : PostingTable α) : TableCall α → PostingTable α
  | .push hash posting => t.push hash posting
  | .clear => t.clear

/-- Clearing leaves nothing of what was pushed before it. -/
theorem perform_eq_pushAll (calls : List (TableCall α)) :
    calls.foldl perform .empty = pushAll .empty (heldPostings calls) := by
  show calls.foldl perform (pushAll .empty []) = _
  apply List.foldl_hom
  intro held call
  cases call with
  | push hash posting => exact (pushAll_append _ held [(hash, posting)]).symm
  | clear => rfl

theorem toList_bin_perform (calls : List (TableCall α)) (hash : UInt32) :
    ((calls.foldl perform .empty).bin hash).toList =
      ((heldPostings calls).filter fun entry =>
        binNumber entry.1 = binNumber hash).map Prod.snd := by
  rw [perform_eq_pushAll, toList_bin_pushAll, bin_empty]
  rfl

theorem binNumber_toUInt32 {bin : Nat} (inside : bin < binCount) :
    binNumber bin.toUInt32 = bin := by
  have word : bin < Position.wordLimit := Nat.lt_trans inside (by decide)
  rw [binNumber_eq_mod, Position.toNat_toUInt32 word, Nat.mod_eq_of_lt inside]

/-- Every posting lies in one bin, so the bins together are as large as the table. -/
theorem size_perform (calls : List (TableCall α)) :
    (calls.foldl perform .empty).size =
      ((List.range binCount).map fun bin =>
        ((calls.foldl perform .empty).bin bin.toUInt32).size).sum := by
  let key (entry : UInt32 × α) : Nat := binNumber entry.1
  have sizes : ∀ bin ∈ List.range binCount,
      ((calls.foldl perform .empty).bin bin.toUInt32).size =
        (bucket key (heldPostings calls) bin).length := by
    intro bin member
    have entries := toList_bin_perform calls bin.toUInt32
    rw [binNumber_toUInt32 (List.mem_range.mp member)] at entries
    rw [← Array.length_toList, entries, List.length_map]
    rfl
  have all : ((List.range binCount).flatMap (bucket key (heldPostings calls))).Perm
      (heldPostings calls) :=
    flatMap_bucket_perm List.nodup_range fun entry _ => List.mem_range.mpr (binNumber_lt entry.1)
  calc (calls.foldl perform .empty).size
      = (heldPostings calls).length := by
        rw [perform_eq_pushAll, size_pushAll]
        exact Nat.zero_add _
    _ = ((List.range binCount).map fun bin =>
          (bucket key (heldPostings calls) bin).length).sum := by
        rw [← all.length_eq, List.length_flatMap]
    _ = _ := by rw [List.map_congr_left sizes]

end PostingTable

/-- A number is read as another one through a mask, and one of the two is at least `binCount`. -/
structure Misread (mask x read : UInt32) : Prop where
  masked : read = x ^^^ mask
  different : read ≠ x
  large : ¬ (x.toNat < binCount ∧ read.toNat < binCount)

section

variable {g h : UInt32} (same : binNumber g = binNumber h)

include same

theorem misread_of_ne (different : g ≠ h) (x : UInt32) : Misread (g ^^^ h) x (x ^^^ (g ^^^ h)) where
  masked := rfl
  different unchanged := by
    have zero : g ^^^ h = 0 := (UInt32.xor_right_inj x).mp (unchanged.trans UInt32.xor_zero.symm)
    exact different (UInt32.xor_eq_zero_iff.mp zero)
  large small := Nat.not_lt.mpr (binCount_le_unfolded same different small.1) small.2

theorem unfolded_eq_iff (x : UInt32) : x ^^^ (g ^^^ h) = x ↔ g = h := by
  constructor
  · intro unchanged
    by_contra different
    exact (misread_of_ne same different x).different unchanged
  · rintro rfl
    rw [UInt32.xor_self, UInt32.xor_zero]

end

/-- However a table was filled and cleared, a bin holds the postings pushed since the last clearing
whose fingerprints agree with its own in the low twenty bits, in their order, and the table counts
what its bins hold. A posting of the bin unfolds to its text and start by its own fingerprint and no
other one; any other misreads both through one mask, a multiple of `2 ^ 20` that is not zero. -/
theorem PostingTable.bins_hold_and_unfold {α : Type} (calls : List (TableCall α)) :
    let table := calls.foldl PostingTable.perform .empty
    (∀ hash, (table.bin hash).toList =
      ((heldPostings calls).filter fun entry =>
        entry.1.toNat % 2 ^ 20 = hash.toNat % 2 ^ 20).map Prod.snd) ∧
    table.size = ((List.range binCount).map fun bin => (table.bin bin.toUInt32).size).sum ∧
    ∀ (text start : UInt32) (pattern : UInt8) (g h : UInt32), binNumber g = binNumber h →
      ((PostedRun.encode text start g).decode h = (text, start) ↔ g = h) ∧
      ((PostedSample.encode text start pattern g).decode h = (text, start, pattern) ↔ g = h) ∧
      (g ≠ h → ∃ mask text' start' : UInt32, mask ≠ 0 ∧ 2 ^ 20 ∣ mask.toNat ∧
        (PostedRun.encode text start g).decode h = (text', start') ∧
        (PostedSample.encode text start pattern g).decode h = (text', start', pattern) ∧
        Misread mask text text' ∧ Misread mask start start') := by
  intro table
  refine ⟨fun hash => ?_, size_perform calls, fun text start pattern g h same => ?_⟩
  · have entries := toList_bin_perform calls hash
    simp only [binNumber_eq_mod] at entries
    exact entries
  · rw [PostedRun.decode_encode, PostedSample.decode_encode]
    simp only [Prod.mk.injEq, and_true, unfolded_eq_iff same, and_self, true_and]
    intro different
    refine ⟨g ^^^ h, _, _, ?_, binCount_dvd_xor same, ⟨rfl, rfl⟩, ⟨rfl, rfl⟩,
      misread_of_ne same different text, misread_of_ne same different start⟩
    exact fun zero => different (UInt32.xor_eq_zero_iff.mp zero)

/-- A posting pushed before the clearing is gone, and of the three pushed after it two share a bin,
though their fingerprints differ: the one of text 7 is read there as one of text 2 ^ 20 + 7. -/
theorem PostingTable.bins_hold_and_unfold_of_shared_bin :
    let earlier : PostedRun := .encode 0 0 5
    let first : PostedRun := .encode 7 42 5
    let second : PostedRun := .encode 8 0 6
    let third : PostedRun := .encode 9 1 0x100005
    let table := [.push 5 earlier, .clear, .push 5 first, .push 6 second,
      .push 0x100005 third].foldl PostingTable.perform .empty
    binNumber 5 = binNumber 0x100005 ∧ 5 ≠ (0x100005 : UInt32) ∧
      (table.bin 0x100005).toList = [first, third] ∧ table.size = 3 ∧
      (first.decode 0x100005 = (7, 42) ↔ (5 : UInt32) = 0x100005) ∧
      first.decode 0x100005 = (0x100007, 0x10002a) := by
  intro earlier first second third table
  have same : binNumber 5 = binNumber 0x100005 := by decide
  obtain ⟨bins, -, unfold⟩ := bins_hold_and_unfold [.push 5 earlier, .clear, .push 5 first,
    .push 6 second, .push 0x100005 third]
  exact ⟨same, by decide, (bins 0x100005).trans (by decide), rfl,
    (unfold 7 42 0 5 0x100005 same).1, by decide⟩

end SharedRuns
