import Mathlib.Data.List.Dedup
import Mathlib.Data.List.Sort
import SharedRuns.Match.Basic
import SharedRuns.Proofs.Text.Numbered

/-!
# Windows and their pairs

The windows of a list of texts are listed text by text and by their starts, and pairs of windows by
the first window and then by the second. In a pair the texts have different names; within one text
there are none.
-/

namespace SharedRuns

/-- The symbols of a side. -/
def Side.run (s : Side) : List Symbol := s.text.run s.offset s.len

theorem Text.length_run {t : Text} {start width : Nat} (fits : start + width ≤ t.size) :
    (t.run start width).length = width := by
  rw [Text.size] at fits
  rw [run, Array.length_toList, Array.size_extract, Nat.min_eq_left fits, Nat.add_sub_cancel_left]

theorem Text.getElem?_run {t : Text} {start width i : Nat} (fits : start + width ≤ t.size)
    (inside : i < width) : (t.run start width)[i]? = t.symbols[start + i]? := by
  rw [Text.size] at fits
  rw [run, Array.getElem?_toList, Array.getElem?_extract, if_pos (by omega)]

theorem Text.run_one {t : Text} {start : Nat} {x : Symbol} (there : t.symbols[start]? = some x) :
    t.run start 1 = [x] := by
  obtain ⟨inside, rfl⟩ := Array.getElem?_eq_some_iff.mp there
  have fits : start + 1 ≤ t.size := inside
  apply List.ext_getElem?
  intro i
  cases i with
  | zero => rw [getElem?_run fits Nat.one_pos, Nat.add_zero, there, List.getElem?_cons_zero]
  | succ i =>
      rw [List.getElem?_eq_none (by rw [length_run fits]; omega), List.getElem?_cons_succ,
        List.getElem?_nil]

/-- The windows of `width` symbols of a text, by their starts. -/
def Text.windows (t : Text) (width : Nat) : List Side :=
  (t.starts width).map fun offset => { text := t, offset, len := width }

/-- The windows of `width` symbols of a list of texts, text by text. -/
def windows (texts : List Text) (width : Nat) : List Side :=
  texts.flatMap fun t => t.windows width

@[simp] theorem windows_append (texts more : List Text) (width : Nat) :
    windows (texts ++ more) width = windows texts width ++ windows more width :=
  List.flatMap_append

@[simp] theorem windows_singleton (t : Text) (width : Nat) : windows [t] width = t.windows width :=
  List.flatMap_singleton ..

/-- The matches of a side with those of a list whose texts have other names. -/
def Side.matchesWith (s : Side) (others : List Side) : List Match :=
  (others.filter fun other => ¬ s.text.SameId other.text).map fun other => { a := s, b := other }

theorem Side.matchesWith_append (s : Side) (others more : List Side) :
    s.matchesWith (others ++ more) = s.matchesWith others ++ s.matchesWith more := by
  rw [matchesWith, List.filter_append, List.map_append, matchesWith, matchesWith]

/-- The matches of each side of a list with all later ones whose texts have other names. -/
def pairsOf : List Side → List Match
  | [] => []
  | s :: rest => s.matchesWith rest ++ pairsOf rest

/-- The contents of the windows of `width` symbols, each of them once, in lexicographic order. -/
def windowContents (texts : List Text) (width : Nat) : List (List Symbol) :=
  ((windows texts width).map Side.run).dedup.mergeSort fun v w => decide (v ≤ w)

/-- The pairs of windows with one content in texts of different names: by the content, and for each
content by the first window and then by the second. -/
def pairsByContent (texts : List Text) (width : Nat) : List Match :=
  (windowContents texts width).flatMap fun content =>
    pairsOf ((windows texts width).filter fun s => s.run = content)

theorem mem_windowContents {texts : List Text} {width : Nat} {content : List Symbol} :
    content ∈ windowContents texts width ↔ ∃ s ∈ windows texts width, s.run = content := by
  simp [windowContents]

theorem windowContents_ascending (texts : List Text) (width : Nat) :
    (windowContents texts width).Pairwise (· < ·) := by
  have sorted : (windowContents texts width).Pairwise fun v w => decide (v ≤ w) :=
    List.pairwise_mergeSort (fun a b c => by simpa using List.le_trans)
      (fun a b => by simpa using List.le_total a b) _
  have nodup : (windowContents texts width).Nodup :=
    (List.mergeSort_perm _ _).nodup_iff.mpr (List.nodup_dedup _)
  refine sorted.imp₂ ?_ nodup
  intro v w le different
  exact (List.le_iff_lt_or_eq.mp (of_decide_eq_true le)).resolve_right different

/-- A list of the contents of all windows in strictly ascending order is the list of contents. -/
theorem windowContents_eq {texts : List Text} {width : Nat} {contents : List (List Symbol)}
    (ascending : contents.Pairwise (· < ·))
    (occurring : contents ⊆ (windows texts width).map Side.run)
    (all : (windows texts width).map Side.run ⊆ contents) :
    windowContents texts width = contents := by
  refine (windowContents_ascending texts width).eq_of_mem_iff ascending fun c => ?_
  rw [mem_windowContents, ← List.mem_map]
  exact ⟨@all c, @occurring c⟩

end SharedRuns
