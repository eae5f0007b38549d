import Mathlib.Data.List.Perm.Basic
import SharedRuns.Engines
import SharedRuns.Proofs.BruteForce
import SharedRuns.Proofs.Checked
import SharedRuns.Proofs.Index.Runs
import SharedRuns.Proofs.Pairs

/-!
# The run index as a corpus engine

A run index is driven through a corpus in two ways. Asked for each text before it is added, it knows
the texts before this one and finds every match of the reference from its later side; asked after
all texts were added, it finds every match from both sides (`Engines.runs_perm_bruteForce`).
-/

namespace SharedRuns

namespace BruteForce

variable {length : Nat} {t u : Text}

theorem pair?_flip (t u : Text) (offset₁ offset₂ depth : Nat) :
    pair? u t offset₂ offset₁ depth = (pair? t u offset₁ offset₂ depth).map Match.flip := by
  unfold pair?
  cases slice? t.symbols offset₁ (offset₁ + depth) with
  | none => cases slice? u.symbols offset₂ (offset₂ + depth) <;> rfl
  | some run₁ =>
      cases slice? u.symbols offset₂ (offset₂ + depth) with
      | none => rfl
      | some run₂ => by_cases same : run₁ = run₂ <;> simp [same, Match.flip, eq_comm]

theorem between_self : between length t t = [] := if_pos rfl

/-- Two texts are compared with the same result in either order. -/
theorem between_flip_perm :
    (between length u t).Perm ((between length t u).map Match.flip) := by
  by_cases sameId : t.SameId u
  · have flipped : u.SameId t := Eq.symm sameId
    rw [between, between, if_pos sameId, if_pos flipped, List.map_nil]
  · have flipped : ¬ u.SameId t := fun h => sameId (Eq.symm h)
    rw [between, between, if_neg sameId, if_neg flipped, List.map_flatMap]
    simp only [List.filterMap_eq_flatMap_toList]
    refine (flatMap_swap_perm _ _ _).trans (.of_eq (List.flatMap_congr fun offset₁ _ => ?_))
    rw [List.map_flatMap]
    refine List.flatMap_congr fun offset₂ _ => ?_
    rw [pair?_flip, Option.toList_map]

theorem allPairs_eq_flatMap (length : Nat) (texts : List Text) :
    allPairs length texts = (pairs texts).flatMap fun p => between length p.1 p.2 := by
  induction texts with
  | nil => rfl
  | cons t rest ih => rw [allPairs, pairs, List.flatMap_append, List.flatMap_map, ih]

/-- The comparison of each text with every earlier one finds the same matches, turned around. -/
theorem flatMap_between_swap_perm (length : Nat) (texts : List Text) :
    ((pairs texts).flatMap fun p => between length p.2 p.1).Perm
      ((allPairs length texts).map Match.flip) := by
  rw [allPairs_eq_flatMap, List.map_flatMap]
  exact List.Perm.flatMap_left _ fun p _ => between_flip_perm

end BruteForce

open BruteForce (between allPairs)

/-- A text shares with the texts of a list what it shares with each of them. -/
theorem sharedRuns_perm_between (length : Nat) (texts : List Text) (query : Text) :
    (sharedRuns length texts query).Perm (texts.flatMap (between length query)) := by
  refine (flatMap_swap_perm _ _ _).trans (.of_eq (List.flatMap_congr fun t _ => ?_))
  by_cases sameId : query.SameId t
  · have none : ∀ start₁ start₂, sharedRun? length query start₁ t start₂ = none :=
      fun _ _ => if_neg fun h => h.1 (Eq.symm sameId)
    simp [none, between, sameId]
  · have otherId : ¬ t.SameId query := fun h => sameId (Eq.symm h)
    rw [between, if_neg sameId]
    refine List.flatMap_congr fun start₁ in₁ => List.filterMap_congr fun start₂ in₂ => ?_
    rw [pair?_of_starts in₁ in₂, sharedRun?]
    exact if_congr (by simp [otherId, eq_comm]) rfl rfl

namespace Engines

open Checked RunIndex

variable {length : Nat} {texts : List Text}

/-- A text is asked for among the texts already added, and added to them. -/
def askAndAdd (state : RunIndex × List Match) (t : Text) :
    Except Fault (RunIndex × List Match) := do
  let (index, found) := state
  return (← index.add t, found ++ index.search t)

/-- Every text is asked for among those before it. -/
theorem foldlM_askAndAdd (positive : 0 < length) (few : texts.length ≤ binCount)
    (holdable : Holdable texts) :
    ∃ found, texts.foldlM askAndAdd (ofTexts length [], []) = .ok (ofTexts length texts, found) ∧
      found.Perm ((pairs texts).flatMap fun p => between length p.2 p.1) := by
  induction texts using List.reverseRecOn with
  | nil => exact ⟨[], rfl, .refl _⟩
  | append_singleton earlier t ih =>
      rw [List.length_append, List.length_singleton] at few
      obtain ⟨found, ran, perm⟩ := ih (by omega) holdable.left
      have searched := search_ofTexts holdable.left (.inl (by omega)) positive t
      have added : (ofTexts length earlier).add t = .ok (ofTexts length (earlier ++ [t])) :=
        add_ofTexts holdable.addressable
      refine ⟨found ++ sharedRuns length earlier t, ?_, ?_⟩
      · rw [List.foldlM_append, ran, ok_bind, List.foldlM_cons, askAndAdd, searched, added]
        rfl
      · have asked := sharedRuns_perm_between length earlier t
        refine (perm.append asked).trans (.trans ?_
          ((pairs_concat_perm earlier t).flatMap_right _).symm)
        rw [List.flatMap_append, List.flatMap_map]

theorem runsOnline_ok (positive : 0 < length) (few : texts.length ≤ binCount)
    (holdable : Holdable texts) :
    ∃ found, runsOnline texts length = .ok (records found) ∧
      found.Perm ((allPairs length texts).map Match.flip) := by
  obtain ⟨found, ran, perm⟩ := foldlM_askAndAdd positive few holdable
  refine ⟨found, ?_, perm.trans (BruteForce.flatMap_between_swap_perm length texts)⟩
  rw [runsOnline, RunIndex.create, if_neg (Nat.ne_of_gt positive)]
  show (texts.foldlM askAndAdd (ofTexts length [], []) >>= fun (_, found) =>
    pure (records found)) = _
  rw [ran]
  rfl

/-- Every text is asked for among all texts. -/
theorem flatMap_search_perm (positive : 0 < length) (few : texts.length ≤ binCount)
    (holdable : Holdable texts) :
    (texts.flatMap (ofTexts length texts).search).Perm
      (allPairs length texts ++ (allPairs length texts).map Match.flip) := by
  have asked : ∀ t ∈ texts, ((ofTexts length texts).search t).Perm
      (texts.flatMap (between length t)) := by
    intro t _
    rw [search_ofTexts holdable (.inl few) positive t]
    exact sharedRuns_perm_between length texts t
  calc (texts.flatMap (ofTexts length texts).search)
    _ |>.Perm (texts.flatMap fun t => texts.flatMap (between length t)) :=
        List.Perm.flatMap_left _ asked
    _ |>.Perm ((pairs texts).flatMap fun p => between length p.1 p.2 ++ between length p.2 p.1) :=
        flatMap_flatMap_perm fun _ _ => BruteForce.between_self
    _ |>.Perm (_ ++ (pairs texts).flatMap fun p => between length p.2 p.1) :=
        (List.flatMap_append_perm _ _ _).symm
    _ |>.Perm (allPairs length texts ++ (allPairs length texts).map Match.flip) := by
        rw [← BruteForce.allPairs_eq_flatMap]
        exact (BruteForce.flatMap_between_swap_perm length texts).append_left _

theorem runs_ok (positive : 0 < length) (few : texts.length ≤ binCount)
    (holdable : Holdable texts) :
    ∃ found, runs texts length = .ok (records found) ∧
      found.Perm (allPairs length texts ++ (allPairs length texts).map Match.flip) := by
  have added : texts.foldlM RunIndex.add (ofTexts length []) = .ok (ofTexts length texts) :=
    Holdable.foldlM_ok (fun _ _ => add_ofTexts) holdable
  refine ⟨texts.flatMap (ofTexts length texts).search, ?_,
    flatMap_search_perm positive few holdable⟩
  rw [runs, RunIndex.create, if_neg (Nat.ne_of_gt positive)]
  show (texts.foldlM RunIndex.add (ofTexts length []) >>= fun index =>
    pure (records (texts.flatMap index.search))) = _
  rw [added]
  rfl

theorem bruteForce_ok (positive : 0 < length) :
    bruteForce texts length = .ok (records (allPairs length texts)) := by
  rw [bruteForce, BruteForce.search, if_neg (Nat.ne_of_gt positive)]
  rfl

theorem records_flip (found : List Match) :
    records (found.map Match.flip) = (records found).map Record.flip := by
  simp only [records, List.map_map, Function.comp_def, Match.record_flip]

/-- A run index that is asked for each text before it is added finds the matches of the reference,
each once and from the other side; asked for each text after all were added, it finds each of them
from both sides. Names may repeat among the texts. -/
theorem runs_perm_bruteForce (positive : 0 < length) (few : texts.length ≤ 2 ^ 20)
    (short : ∀ t ∈ texts, t.size < 2 ^ 32) :
    ∃ online all reference, runsOnline texts length = .ok online ∧
      runs texts length = .ok all ∧ bruteForce texts length = .ok reference ∧
      online.Perm (reference.map Record.flip) ∧
      all.Perm (reference ++ reference.map Record.flip) := by
  have holdable : Holdable texts := ⟨Nat.le_trans few (by decide), short⟩
  obtain ⟨online, ranOnline, permOnline⟩ := runsOnline_ok positive few holdable
  obtain ⟨all, ranAll, permAll⟩ := runs_ok positive few holdable
  refine ⟨_, _, _, ranOnline, ranAll, bruteForce_ok positive, ?_, ?_⟩
  · rw [← records_flip]
    exact permOnline.map Match.record
  · have both := permAll.map Match.record
    rw [List.map_append] at both
    rw [← records_flip]
    exact both

/-- Texts of one name are not compared, and a text that is too short has no window. -/
theorem runs_perm_of_shared_name :
    let texts : List Text :=
      [{ id := "first", symbols := #[1, 2, 1] }, { id := "short", symbols := #[1] },
        { id := "second", symbols := #[2, 1, 2] }, { id := "first", symbols := #[1, 2] }]
    let reference : List Record :=
      [⟨"first", 0, 2, "second", 1, 2⟩, ⟨"first", 1, 2, "second", 0, 2⟩,
        ⟨"second", 1, 2, "first", 0, 2⟩]
    0 < 2 ∧ texts.length ≤ 2 ^ 20 ∧ (∀ t ∈ texts, t.size < 2 ^ 32) ∧
      ∃ online all, runsOnline texts 2 = .ok online ∧ runs texts 2 = .ok all ∧
        online.Perm (reference.map Record.flip) ∧
        all.Perm (reference ++ reference.map Record.flip) := by
  intro texts reference
  have few : texts.length ≤ 2 ^ 20 := by decide
  have short : ∀ t ∈ texts, t.size < 2 ^ 32 := by decide
  have compared : bruteForce texts 2 = .ok reference := by rfl
  obtain ⟨online, all, found, ranOnline, ranAll, same, permOnline, permAll⟩ :=
    runs_perm_bruteForce Nat.two_pos few short
  obtain rfl := Except.ok.inj (compared.symm.trans same)
  exact ⟨Nat.two_pos, few, short, online, all, ranOnline, ranAll, permOnline, permAll⟩

end Engines

end SharedRuns
