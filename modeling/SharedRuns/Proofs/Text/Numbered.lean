import Mathlib.Data.List.Basic
import SharedRuns.Text.Basic

/-!
# Numbered items of a list of texts

Engines number the texts that they hold and go through the items of one text after another, be they
starts of windows or placements of patterns. `numbered` lists all items with the numbers of their
texts. The order is by number first, and looking a number up gives back the text of the item.
-/

namespace SharedRuns

/-- The symbols of the window of `width` symbols from `start` on. -/
def Text.run (t : Text) (start width : Nat) : List Symbol :=
  (t.symbols.extract start (start + width)).toList

/-- The items of texts numbered from `first` on, each with the number of its text. -/
def numbered (items : Text → List α) (first : Nat) (texts : List Text) : List (Nat × α) :=
  (texts.zipIdx first).flatMap fun (t, number) => (items t).map fun x => (number, x)

variable {items : Text → List α} {first : Nat} {texts : List Text}

@[simp] theorem numbered_cons (t : Text) :
    numbered items first (t :: texts) =
      ((items t).map fun x => (first, x)) ++ numbered items (first + 1) texts := by
  simp [numbered, List.zipIdx_cons]

/-- Texts that are appended take the next numbers, and their items come last. -/
theorem numbered_append (more : List Text) :
    numbered items first (texts ++ more) =
      numbered items first texts ++ numbered items (first + texts.length) more := by
  rw [numbered, List.zipIdx_append, List.flatMap_append]
  rfl

theorem numbered_concat (t : Text) :
    numbered items first (texts ++ [t]) =
      numbered items first texts ++ (items t).map fun x => (first + texts.length, x) := by
  rw [numbered_append, numbered_cons]
  exact congrArg _ (List.append_nil _)

/-- Texts without items take numbers and nothing else. -/
theorem numbered_eq_nil (none : ∀ t ∈ texts, items t = []) : numbered items first texts = [] := by
  rw [numbered, List.flatMap_eq_nil_iff]
  rintro ⟨t, number⟩ member
  exact List.map_eq_nil_iff.mpr (none t (List.fst_mem_of_mem_zipIdx member))

theorem mem_numbered {entry : Nat × α} :
    entry ∈ numbered items first texts ↔
      first ≤ entry.1 ∧ ∃ t, texts[entry.1 - first]? = some t ∧ entry.2 ∈ items t := by
  obtain ⟨number, x⟩ := entry
  simp only [numbered, List.mem_flatMap, Prod.exists, List.mem_zipIdx_iff_le_and_getElem?_sub,
    List.mem_map, Prod.mk.injEq]
  constructor
  · rintro ⟨t, k, ⟨le, entry⟩, _, member, rfl, rfl⟩
    exact ⟨le, t, entry, member⟩
  · rintro ⟨le, t, entry, member⟩
    exact ⟨t, number, ⟨le, entry⟩, x, member, rfl, rfl⟩

/-- Items may be replaced in each text, and so in the list of all texts. -/
theorem numbered_eq_map {items' : Text → List β} {f : α → β}
    (replaced : ∀ t ∈ texts, items' t = (items t).map f) :
    numbered items' first texts = (numbered items first texts).map fun e => (e.1, f e.2) := by
  induction texts generalizing first with
  | nil => rfl
  | cons t rest ih =>
      rw [List.forall_mem_cons] at replaced
      rw [numbered_cons, numbered_cons, List.map_append, ih replaced.2, replaced.1]
      simp

theorem numbered_ascending :
    (numbered items first texts).Pairwise fun e f => e.1 ≤ f.1 := by
  induction texts generalizing first with
  | nil => exact .nil
  | cons t rest ih =>
      rw [numbered_cons, List.pairwise_append]
      refine ⟨?_, ih, ?_⟩
      · rw [List.pairwise_map]
        exact List.pairwise_of_forall fun _ _ => Nat.le_refl _
      · intro e he f hf
        obtain ⟨x, -, rfl⟩ := List.mem_map.mp he
        have later := (mem_numbered.mp hf).1
        exact Nat.le_of_succ_le later

/-- What is found at numbered items is found text by text. -/
theorem filterMap_numbered (found? : Text → α → Option β) :
    (numbered items 0 texts).filterMap (fun e => texts[e.1]?.bind fun t => found? t e.2) =
      texts.flatMap fun t => (items t).filterMap (found? t) := by
  -- The texts before the ones still to be visited keep the numbers of these fixed.
  suffices general : ∀ earlier rest : List Text,
      (numbered items earlier.length rest).filterMap
          (fun e => (earlier ++ rest)[e.1]?.bind fun t => found? t e.2) =
        rest.flatMap fun t => (items t).filterMap (found? t) from general [] texts
  intro earlier rest
  induction rest generalizing earlier with
  | nil => rfl
  | cons t rest ih =>
      have next := ih (earlier ++ [t])
      simp only [List.length_append, List.length_singleton, List.append_assoc,
        List.singleton_append] at next
      rw [numbered_cons, List.filterMap_append, next, List.flatMap_cons, List.filterMap_map]
      simp

end SharedRuns
