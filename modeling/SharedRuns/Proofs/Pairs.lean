import Mathlib.Data.List.Nodup
import Mathlib.Data.List.Perm.Basic

/-!
# Pairs of a list

What engines compare are the pairs of a list, be it of texts or of postings. `pairs` lists each
unordered pair once, as its earlier and its later entry. An engine that asks for every entry among
all entries meets each pair in both directions (`flatMap_flatMap_perm`), and one that asks for an
entry among those before it meets each pair from its later side (`pairs_concat_perm`).
-/

namespace SharedRuns

variable {α β : Type}

/-- The pairs of entries of a list, each as an entry and a later one. -/
def pairs : List α → List (α × α)
  | [] => []
  | x :: rest => rest.map (x, ·) ++ pairs rest

theorem mem_of_mem_pairs {xs : List α} {p : α × α} (member : p ∈ pairs xs) :
    p.1 ∈ xs ∧ p.2 ∈ xs := by
  induction xs with
  | nil => cases member
  | cons x rest ih =>
      rcases List.mem_append.mp member with first | later
      · obtain ⟨y, inRest, rfl⟩ := List.mem_map.mp first
        exact ⟨List.mem_cons_self, List.mem_cons_of_mem x inRest⟩
      · exact ⟨List.mem_cons_of_mem x (ih later).1, List.mem_cons_of_mem x (ih later).2⟩

theorem pairs_eq_nil {xs : List α} (few : xs.length < 2) : pairs xs = [] := by
  rcases xs with _ | ⟨x, _ | ⟨y, rest⟩⟩
  · rfl
  · rfl
  · simp only [List.length_cons] at few
    omega

theorem mem_pairs_of_ne {xs : List α} {x y : α} (memberX : x ∈ xs) (memberY : y ∈ xs)
    (different : x ≠ y) : (x, y) ∈ pairs xs ∨ (y, x) ∈ pairs xs := by
  induction xs with
  | nil => cases memberX
  | cons z rest ih =>
      simp only [pairs, List.mem_append]
      rcases List.mem_cons.mp memberX with rfl | laterX
      · have laterY := (List.mem_cons.mp memberY).resolve_left different.symm
        exact .inl (.inl (List.mem_map_of_mem laterY))
      · rcases List.mem_cons.mp memberY with rfl | laterY
        · exact .inr (.inl (List.mem_map_of_mem laterX))
        · exact (ih laterX laterY).imp .inr .inr

/-- No pair occurs in both directions. -/
theorem swap_notMem_pairs {xs : List α} (nodup : xs.Nodup) {p : α × α} (member : p ∈ pairs xs) :
    p.swap ∉ pairs xs := by
  induction xs with
  | nil => cases member
  | cons x rest ih =>
      rw [List.nodup_cons] at nodup
      intro swapped
      simp only [pairs, List.mem_append, List.mem_map] at member swapped
      rcases member with ⟨y, inRest, rfl⟩ | later
      · rcases swapped with ⟨z, -, same⟩ | laterSwapped
        · exact nodup.1 ((Prod.mk.inj same).1 ▸ inRest)
        · exact nodup.1 (mem_of_mem_pairs laterSwapped).2
      · rcases swapped with ⟨z, -, same⟩ | laterSwapped
        · exact nodup.1 ((Prod.mk.inj same).1 ▸ (mem_of_mem_pairs later).2)
        · exact ih nodup.2 later laterSwapped

theorem nodup_pairs {xs : List α} (nodup : xs.Nodup) : (pairs xs).Nodup := by
  induction xs with
  | nil => exact .nil
  | cons x rest ih =>
      rw [List.nodup_cons] at nodup
      refine List.nodup_append.mpr ⟨nodup.2.map fun y z => (Prod.mk.inj · |>.2), ih nodup.2, ?_⟩
      rintro p ofFirst q later rfl
      obtain ⟨y, -, rfl⟩ := List.mem_map.mp ofFirst
      exact nodup.1 (mem_of_mem_pairs later).1

/-- Pairs that differ, also when turned around, are all different in both directions. -/
theorem nodup_bothWays {ps : List (α × α)} (nodup : ps.Nodup)
    (apart : ∀ p ∈ ps, ∀ q ∈ ps, p ≠ q.swap) : (ps.flatMap fun p => [p, p.swap]).Nodup := by
  induction ps with
  | nil => exact .nil
  | cons p rest ih =>
      rw [List.nodup_cons] at nodup
      have later := ih nodup.2 fun q inQ r inR =>
        apart q (List.mem_cons_of_mem p inQ) r (List.mem_cons_of_mem p inR)
      have own : [p, p.swap].Nodup := by
        simpa using apart p List.mem_cons_self p List.mem_cons_self
      refine List.nodup_append.mpr ⟨own, later, ?_⟩
      rintro r first s member rfl
      obtain ⟨q, inRest, second⟩ := List.mem_flatMap.mp member
      have turned := apart p List.mem_cons_self q (List.mem_cons_of_mem p inRest)
      rcases List.mem_pair.mp first with rfl | rfl <;>
        rcases List.mem_pair.mp second with same | same
      · exact nodup.1 (same ▸ inRest)
      · exact turned same
      · exact turned (by rw [← same, Prod.swap_swap])
      · exact nodup.1 (Prod.swap_inj.mp same ▸ inRest)

theorem pairs_map (f : α → β) (xs : List α) :
    pairs (xs.map f) = (pairs xs).map fun p => (f p.1, f p.2) := by
  induction xs with
  | nil => rfl
  | cons x rest ih => simp [pairs, ih]

/-- The last entry makes a pair with each one before it. -/
theorem pairs_concat_perm (xs : List α) (y : α) :
    (pairs (xs ++ [y])).Perm (pairs xs ++ xs.map (·, y)) := by
  induction xs with
  | nil => rfl
  | cons x rest ih =>
      simp only [List.cons_append, pairs, List.map_append, List.map_cons, List.map_nil,
        List.append_assoc]
      refine List.Perm.append_left _ ?_
      show ((x, y) :: pairs (rest ++ [y])).Perm _
      exact (ih.cons (x, y)).trans List.perm_middle.symm

/-- The pairs of a list that descends, by the entry and then by a smaller one. -/
theorem pairs_eq_of_descending {rank : α → Nat} {xs : List α}
    (descending : xs.Pairwise fun x y => rank y < rank x) :
    pairs xs = xs.flatMap fun x => (xs.filter fun y => rank y < rank x).map (x, ·) := by
  induction descending with
  | nil => rfl
  | @cons x rest smaller _ ih =>
      have ofFirst : (x :: rest).filter (fun y => rank y < rank x) = rest := by
        rw [List.filter_cons_of_neg (by simp), List.filter_eq_self]
        intro y member
        exact decide_eq_true (smaller y member)
      rw [List.flatMap_cons, ofFirst, pairs, ih]
      congr 1
      apply List.flatMap_congr
      intro y member
      rw [List.filter_cons_of_neg (by simpa using Nat.le_of_lt (smaller y member))]

/-- What is found in the entries of a kind only is found in them. -/
theorem filterMap_ite {p : α → Prop} [DecidablePred p] (f : α → β) (xs : List α) :
    (xs.filterMap fun x => if p x then some (f x) else none) =
      (xs.filter fun x => p x).map f := by
  induction xs with
  | nil => rfl
  | cons x rest ih => by_cases kept : p x <;> simp [kept, ih]

/-- To ask for every entry among all entries is to go through the pairs in both directions. -/
theorem flatMap_flatMap_perm {f : α → α → List β} {xs : List α} (none : ∀ x ∈ xs, f x x = []) :
    (xs.flatMap fun x => xs.flatMap (f x)).Perm
      ((pairs xs).flatMap fun p => f p.1 p.2 ++ f p.2 p.1) := by
  induction xs with
  | nil => rfl
  | cons x rest ih =>
      rw [List.forall_mem_cons] at none
      simp only [List.flatMap_cons, pairs, List.flatMap_append, List.flatMap_map, none.1,
        List.nil_append]
      have others : (rest.flatMap fun y => f y x ++ rest.flatMap (f y)).Perm
          (rest.flatMap (fun y => f y x) ++
            (pairs rest).flatMap fun p => f p.1 p.2 ++ f p.2 p.1) :=
        (List.flatMap_append_perm rest _ _).symm.trans ((ih none.2).append_left _)
      refine (others.append_left _).trans ?_
      rw [← List.append_assoc]
      exact (List.flatMap_append_perm rest _ _).append_right _

/-- If it makes no difference which entry of a pair comes first, then neither does the order of the
list. -/
theorem flatMap_pairs_perm {f : α → α → List β} (symm : ∀ x y, (f x y).Perm (f y x))
    {xs ys : List α} (perm : xs.Perm ys) :
    ((pairs xs).flatMap fun p => f p.1 p.2).Perm ((pairs ys).flatMap fun p => f p.1 p.2) := by
  induction perm with
  | nil => rfl
  | cons x perm ih =>
      simp only [pairs, List.flatMap_append, List.flatMap_map]
      exact (perm.flatMap_right (f x)).append ih
  | swap x y rest =>
      -- Here, and only here, a pair is turned around.
      simp only [pairs, List.map_cons, List.flatMap_append, List.flatMap_cons, List.flatMap_map,
        List.append_assoc]
      refine (symm y x).append ?_
      simp only [← List.append_assoc]
      exact List.perm_append_comm.append_right _
  | trans _ _ ih₁ ih₂ => exact ih₁.trans ih₂

/-- If the pairs of a kind are met in both directions, the order of the list makes no difference. -/
theorem bothWays_perm (related : α → α → Prop) [DecidableRel related] (g : α × α → β)
    (symm : ∀ {x y}, related x y → related y x) (irrefl : ∀ x, ¬ related x x) {xs ys : List α}
    (perm : xs.Perm ys) :
    (((pairs xs).filter fun p => related p.1 p.2).flatMap fun p => [g p, g p.swap]).Perm
      (((pairs ys).filter fun p => related p.1 p.2).flatMap fun p => [g p, g p.swap]) := by
  let found (x y : α) : List β := if related x y then [g (x, y)] else []
  have among (xs : List α) :
      (((pairs xs).filter fun p => related p.1 p.2).flatMap fun p => [g p, g p.swap]).Perm
        (xs.flatMap fun x => xs.flatMap (found x)) := by
    refine .trans (.of_eq ?_) (flatMap_flatMap_perm fun x _ => if_neg (irrefl x)).symm
    induction pairs xs with
    | nil => rfl
    | cons p rest ih =>
        obtain ⟨x, y⟩ := p
        rw [List.flatMap_cons, ← ih]
        by_cases kept : related x y
        · simp [found, kept, symm kept]
        · have turned : ¬ related y x := fun other => kept (symm other)
          simp [found, kept, turned]
  have reordered : (xs.flatMap fun x => xs.flatMap (found x)).Perm
      (ys.flatMap fun x => ys.flatMap (found x)) :=
    perm.flatMap fun x _ => perm.flatMap fun y _ => .refl _
  exact ((among xs).trans reordered).trans (among ys).symm

end SharedRuns
