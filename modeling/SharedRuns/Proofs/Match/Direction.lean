import SharedRuns.Proofs.Match.Difference

/-!
# What a canonical match set forgets

A canonical match set turns each key so that the smaller name comes first. Of records between texts
of different names it forgets their order, their lengths and from which side each was reported, and
nothing else: the sets of two lists do not differ exactly if the one list is the other one
rearranged, with some records turned around, up to lengths (`canonical_forgets_direction`).
-/

namespace SharedRuns

/-- A record as it was reported, or turned around. -/
def Record.TurnsInto (r turned : Record) : Prop := turned = r ∨ turned = r.flip

namespace RecordKey

theorem ofRecord_flip (r : Record) : ofRecord r.flip = (ofRecord r).swap := rfl

theorem eq_swap_comm {k l : RecordKey} : k = l.swap ↔ l = k.swap := by
  constructor
  · rintro rfl
    rfl
  · rintro rfl
    rfl

/-- A key is left as it is, or its sides are exchanged. -/
theorem oriented_eq_or_swap (k : RecordKey) : k.oriented = k ∨ k.oriented = k.swap := by
  rw [oriented]
  split
  · exact .inr rfl
  · exact .inl rfl

/-- Keys are turned into the same one if they are equal up to direction. -/
theorem oriented_eq_oriented_iff {k l : RecordKey} (apart : k.textA ≠ k.textB) :
    k.oriented = l.oriented ↔ l = k ∨ l = k.swap := by
  constructor
  · intro same
    rcases oriented_eq_or_swap k with ofK | ofK <;> rcases oriented_eq_or_swap l with ofL | ofL <;>
      rw [ofK, ofL] at same
    · exact .inl same.symm
    · exact .inr (eq_swap_comm.mp same)
    · exact .inr same.symm
    · exact .inl (eq_swap_comm.mp same)
  · rintro (rfl | rfl)
    · rfl
    · exact (oriented_swap apart).symm

end RecordKey

namespace MatchMultiset

variable {records others turned : List Record}

theorem keys_true (records : List Record) :
    keys true records = (records.map RecordKey.ofRecord).map RecordKey.oriented := by
  rw [List.map_map]
  rfl

/-- The number under a key is that of the records that are placed there. -/
theorem count_ofRecords (canonical : Bool) (records : List Record) (k : RecordKey) :
    (ofRecords canonical records).count k =
      records.countP fun r =>
        (empty canonical).place (.ofRecord r) = (empty canonical).place k := by
  rw [count, place_ofRecords, getD_counts_ofRecords, keys, List.count_eq_countP, List.countP_map]
  rfl

/-- Records that are turned around keep their places in a canonical set. -/
theorem keys_eq_of_turned (apart : ∀ r ∈ records, r.textA ≠ r.textB)
    (turns : List.Forall₂ Record.TurnsInto records turned) :
    keys true turned = keys true records := by
  induction turns with
  | nil => rfl
  | @cons r turned _ _ turn rest ih =>
      rw [List.forall_mem_cons] at apart
      have same : (RecordKey.ofRecord turned).oriented = (RecordKey.ofRecord r).oriented := by
        apply Eq.symm
        apply (RecordKey.oriented_eq_oriented_iff apart.1).mpr
        exact turn.imp (congrArg RecordKey.ofRecord) (congrArg RecordKey.ofRecord)
      exact congrArg₂ List.cons same (ih apart.2)

/-- Records with the same places can be turned so that they have the same names and offsets. -/
theorem exists_turned_of_keys_eq (apart : ∀ r ∈ records, r.textA ≠ r.textB)
    (same : keys true records = keys true others) :
    ∃ turned, List.Forall₂ Record.TurnsInto records turned ∧
      turned.map RecordKey.ofRecord = others.map RecordKey.ofRecord := by
  induction records generalizing others with
  | nil =>
      have none : others = [] := List.map_eq_nil_iff.mp same.symm
      exact ⟨[], .nil, by rw [none]⟩
  | cons r records ih =>
      obtain ⟨s, others, rfl, first, rest⟩ := List.map_eq_cons_iff.mp same.symm
      rw [List.forall_mem_cons] at apart
      obtain ⟨turned, turns, alike⟩ := ih apart.2 rest.symm
      rcases (RecordKey.oriented_eq_oriented_iff apart.1).mp first.symm with unturned | swapped
      · refine ⟨r :: turned, .cons (.inl rfl) turns, ?_⟩
        rw [List.map_cons, List.map_cons, unturned, alike]
      · refine ⟨r.flip :: turned, .cons (.inr rfl) turns, ?_⟩
        rw [List.map_cons, List.map_cons, swapped, alike, RecordKey.ofRecord_flip]

/-- The keys of a canonical set tell records apart up to their order, their direction and their
lengths. -/
theorem keys_perm_iff_exists_turned (apart : ∀ r ∈ records, r.textA ≠ r.textB) :
    (keys true records).Perm (keys true others) ↔
      ∃ reordered turned, reordered.Perm records ∧
        List.Forall₂ Record.TurnsInto reordered turned ∧
        turned.map RecordKey.ofRecord = others.map RecordKey.ofRecord := by
  constructor
  · intro perm
    obtain ⟨reordered, same, reorder⟩ : Relation.Comp (· = List.map _ ·) List.Perm
        (keys true others) records := by
      rw [List.eq_map_comp_perm]
      exact perm.symm
    have stillApart : ∀ r ∈ reordered, r.textA ≠ r.textB :=
      fun r member => apart r (reorder.mem_iff.mp member)
    obtain ⟨turned, turns, alike⟩ := exists_turned_of_keys_eq stillApart same.symm
    exact ⟨reordered, turned, reorder, turns, alike⟩
  · rintro ⟨reordered, turned, perm, turns, alike⟩
    have stillApart : ∀ r ∈ reordered, r.textA ≠ r.textB :=
      fun r member => apart r (perm.mem_iff.mp member)
    have sameKeys : keys true turned = keys true others := by
      rw [keys_true, keys_true, alike]
    rw [← sameKeys, keys_eq_of_turned stillApart turns]
    exact (perm.map _).symm

/-- Of records between texts of different names, those are counted under a key that have its names
and offsets, and in a canonical set those that have them turned around. -/
theorem count_eq_countP (apart : ∀ r ∈ records, r.textA ≠ r.textB) (canonical : Bool)
    (k : RecordKey) :
    (ofRecords canonical records).count k =
      records.countP fun r =>
        RecordKey.ofRecord r = k ∨ canonical ∧ RecordKey.ofRecord r = k.swap := by
  rw [count_ofRecords]
  apply List.countP_congr
  intro r member
  simp only [decide_eq_true_eq]
  cases canonical with
  | false => exact (or_iff_left nofun).symm
  | true =>
      refine (RecordKey.oriented_eq_oriented_iff (apart r member)).trans ?_
      rw [eq_self_iff_true, true_and]
      exact or_congr eq_comm RecordKey.eq_swap_comm

/-- Between records of texts of different names, canonical sets do not differ exactly if the one
list is the other one rearranged, with some of its records turned around, up to lengths. And a set,
canonical or not, answers how many records were inserted with the names and offsets that are asked
for, or in a canonical set with these turned around. -/
theorem canonical_forgets_direction (records : List Record)
    (apart : ∀ r ∈ records, r.textA ≠ r.textB) :
    (∀ others, (ofRecords true records).difference (ofRecords true others) = [] ↔
      ∃ reordered turned, reordered.Perm records ∧
        List.Forall₂ Record.TurnsInto reordered turned ∧
        turned.map RecordKey.ofRecord = others.map RecordKey.ofRecord) ∧
    ∀ (canonical : Bool) (a b : String) (oa ob : Nat),
      (ofRecords canonical records).count ⟨a, b, oa, ob⟩ =
        records.countP fun r =>
          (r.textA = a ∧ r.textB = b ∧ r.offsetA = oa ∧ r.offsetB = ob) ∨
            canonical ∧ r.textB = a ∧ r.textA = b ∧ r.offsetB = oa ∧ r.offsetA = ob := by
  constructor
  · intro others
    exact difference_ofRecords_eq_nil_iff.trans (keys_perm_iff_exists_turned apart)
  · intro canonical a b oa ob
    rw [count_eq_countP apart]
    apply List.countP_congr
    intro r _
    simp only [decide_eq_true_eq, RecordKey.ofRecord, RecordKey.swap, RecordKey.mk.injEq]
    tauto

/-- A match that was reported from both sides, and one whose lengths differ. -/
theorem canonical_forgets_direction_of_both_sides :
    let there : Record := ⟨"b", 4, 3, "a", 7, 3⟩
    let back : Record := ⟨"a", 7, 5, "b", 4, 3⟩
    (∀ r ∈ [there, back], r.textA ≠ r.textB) ∧
    (ofRecords true [there, back]).difference (ofRecords true [back, back]) = [] ∧
    (ofRecords true [there, back]).count ⟨"b", "a", 4, 7⟩ = 2 ∧
    (ofRecords false [there, back]).count ⟨"b", "a", 4, 7⟩ = 1 := by
  intro there back
  have apart : ∀ r ∈ [there, back], r.textA ≠ r.textB := by decide
  obtain ⟨forgets, counts⟩ := canonical_forgets_direction [there, back] apart
  refine ⟨apart, (forgets _).mpr ⟨[there, back], [there.flip, back], .refl _, ?_, rfl⟩, ?_, ?_⟩
  · exact .cons (.inr rfl) (.cons (.inl rfl) .nil)
  · rw [counts]
    decide
  · rw [counts]
    decide

end MatchMultiset

end SharedRuns
