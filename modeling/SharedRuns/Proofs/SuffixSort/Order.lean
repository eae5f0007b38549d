import Mathlib.Data.List.Sort
import SharedRuns.Proofs.SuffixSort.Columns

/-!
# The order in which matches are reported

Column by column, a sort goes through the lists of keys in lexicographic order, and reports for each
of them the pairs of suffixes that begin with it (`reported_eq_keyLists`). Keys are ordered like
symbols. So the matches come by the content of their windows, which ascends, and for one content by
the windows in the order of the texts (`reported_eq_pairsByContent`).
-/

namespace SharedRuns

/-- The lists of `length` keys below `count`, in lexicographic order. -/
def keyLists (count : Nat) : (length : Nat) → List (List Nat)
  | 0 => [[]]
  | length + 1 => (List.range count).flatMap fun k => (keyLists count length).map (k :: ·)

theorem mem_keyLists {count length : Nat} {keys : List Nat} :
    keys ∈ keyLists count length ↔ keys.length = length ∧ ∀ k ∈ keys, k < count := by
  induction length generalizing keys with
  | zero => simp +contextual [keyLists]
  | succ length ih =>
      cases keys with
      | nil => simp [keyLists]
      | cons k rest => simp [keyLists, ih, and_left_comm]

theorem keyLists_ascending (count length : Nat) : (keyLists count length).Pairwise (· < ·) := by
  induction length with
  | zero => exact List.pairwise_singleton _ _
  | succ length ih =>
      rw [keyLists, List.pairwise_flatMap]
      constructor
      · intro k _
        rw [List.pairwise_map]
        exact ih.imp fun less => List.cons_lt_cons_iff.mpr (.inr ⟨rfl, less⟩)
      · refine List.pairwise_lt_range.imp ?_
        intro j k less u inU v inV
        obtain ⟨u, -, rfl⟩ := List.mem_map.mp inU
        obtain ⟨v, -, rfl⟩ := List.mem_map.mp inV
        exact List.cons_lt_cons_iff.mpr (.inl less)

theorem flatMap_filter_of_nil {xs : List α} {f : α → List β} {keep : α → Bool}
    (others : ∀ x ∈ xs, ¬ keep x → f x = []) : (xs.filter keep).flatMap f = xs.flatMap f := by
  induction xs with
  | nil => rfl
  | cons x xs ih =>
      rw [List.forall_mem_cons] at others
      by_cases kept : keep x
      · rw [List.filter_cons_of_pos kept, List.flatMap_cons, List.flatMap_cons, ih others.2]
      · rw [List.filter_cons_of_neg kept, List.flatMap_cons, others.1 kept, List.nil_append,
          ih others.2]

/-- What is made of the entries of a list is made of an ascending part of it, if nothing is made of
the other entries. -/
theorem flatMap_eq_of_ascending {all part : List (List Nat)} {f : List Nat → List α}
    (allAscending : all.Pairwise (· < ·)) (partAscending : part.Pairwise (· < ·))
    (subset : ∀ keys ∈ part, keys ∈ all) (others : ∀ keys, keys ∉ part → f keys = []) :
    all.flatMap f = part.flatMap f := by
  have kept : all.filter (· ∈ part) = part := by
    refine (allAscending.filter _).eq_of_mem_iff partAscending fun keys => ?_
    simpa using subset keys
  calc
    all.flatMap f = (all.filter (· ∈ part)).flatMap f :=
      (flatMap_filter_of_nil fun keys _ absent => others keys (by simpa using absent)).symm
    _ = part.flatMap f := by rw [kept]

namespace SortPlan

variable {p : SortPlan} {left column : Nat}

/-- The keys of a suffix in the `left` columns from `column` on. -/
def keyList (p : SortPlan) (column left : Nat) (suffix : UInt32) : List Nat :=
  (List.range' column left).map fun c => p.keyNat c suffix

theorem keyList_succ (column left : Nat) (suffix : UInt32) :
    p.keyList column (left + 1) suffix =
      p.keyNat column suffix :: p.keyList (column + 1) left suffix := by
  rw [keyList, List.range'_succ, List.map_cons, keyList]

theorem bucket_keyList (range : List UInt32) (k : Nat) (keys : List Nat) :
    bucket (p.keyList (column + 1) left) (bucket (p.keyNat column) range k) keys =
      bucket (p.keyList column (left + 1)) range (k :: keys) := by
  rw [bucket, bucket, bucket, List.filter_filter]
  apply List.filter_congr
  intro s _
  rw [Bool.eq_iff_iff]
  simp [keyList_succ, and_comm]

/-- What is reported in a range is reported for one list of keys after another. -/
theorem reported_eq_keyLists (range : List UInt32) :
    p.reported left column range =
      (keyLists p.keyTable.alphabet left).flatMap fun keys =>
        pairsOf ((bucket (p.keyList column left) range keys).filterMap p.side?) := by
  induction left generalizing column range with
  | zero => simp [reported, keyLists, keyList, bucket]
  | succ left ih =>
      rw [reported, keyLists, List.flatMap_assoc]
      apply List.flatMap_congr
      intro k _
      rw [ih, List.flatMap_map]
      apply List.flatMap_congr
      intro keys _
      rw [bucket_keyList]

/-- The keys of a list of symbols. -/
def keysOf (rank : Symbol → UInt32) (v : List Symbol) : List Nat := v.map fun x => (rank x).toNat

section

variable {t : TapeKeys} {symbols : Array Symbol} {rank : Symbol → UInt32}

/-- Lists of symbols of the tape are ordered like the lists of their keys. -/
theorem keysOf_lt (embeds : t.Embeds symbols rank) {v w : List Symbol}
    (inV : ∀ x ∈ v, x ∈ symbols) (inW : ∀ x ∈ w, x ∈ symbols) (less : v < w) :
    keysOf rank v < keysOf rank w := by
  induction v generalizing w with
  | nil =>
      cases w with
      | nil => exact absurd less (List.lt_irrefl _)
      | cons y w => exact List.nil_lt_cons ..
  | cons x v ih =>
      cases w with
      | nil => exact absurd less (List.not_lt_nil _)
      | cons y w =>
          rw [List.forall_mem_cons] at inV inW
          rw [keysOf, keysOf, List.map_cons, List.map_cons, List.cons_lt_cons_iff]
          rcases List.cons_lt_cons_iff.mp less with first | ⟨rfl, rest⟩
          · exact .inl (UInt32.lt_iff_toNat_lt.mp ((embeds.lt_iff x inV.1 y inW.1).mpr first))
          · exact .inr ⟨rfl, ih inV.2 inW.2 rest⟩

theorem keysOf_inj (embeds : t.Embeds symbols rank) {v w : List Symbol}
    (inV : ∀ x ∈ v, x ∈ symbols) (inW : ∀ x ∈ w, x ∈ symbols)
    (same : keysOf rank v = keysOf rank w) : v = w := by
  by_contra different
  rcases List.le_total v w with le | le
  · have less := (List.le_iff_lt_or_eq.mp le).resolve_right different
    exact List.lt_irrefl _ (same ▸ keysOf_lt embeds inV inW less)
  · have less := (List.le_iff_lt_or_eq.mp le).resolve_right (Ne.symm different)
    exact List.lt_irrefl _ (same ▸ keysOf_lt embeds inW inV less)

end

variable {texts : List Text} {rank : Symbol → UInt32}

theorem content_of_laidOut (laid : p.tape.LaidOut texts) (positive : 0 < p.depth)
    {content : List Symbol} (member : content ∈ windowContents texts p.depth) :
    content.length = p.depth ∧ ∀ x ∈ content, x ∈ p.tape.symbols := by
  obtain ⟨s, inWindows, rfl⟩ := mem_windowContents.mp member
  rw [← laid.filterMap_side? positive] at inWindows
  obtain ⟨pos, -, found⟩ := List.mem_filterMap.mp inWindows
  exact ⟨(laid.getElem?_run positive found).1,
    fun x inRun => laid.mem_symbols_of_mem_run positive found inRun⟩

/-- The keys of a suffix are those of the symbols of its window. -/
theorem keyList_eq_keysOf (laid : p.tape.LaidOut texts)
    (embeds : p.keyTable.Embeds p.tape.symbols rank) (positive : 0 < p.depth) {suffix : UInt32}
    {s : Side} (found : p.side? suffix = some s) :
    p.keyList 0 p.depth suffix = keysOf rank s.run := by
  obtain ⟨length, entries⟩ := laid.getElem?_run positive found
  apply List.ext_getElem
  · simp [keyList, keysOf, length]
  · intro c hc hr
    rw [keysOf, List.length_map] at hr
    have entry := entries c (length ▸ hr)
    rw [List.getElem?_eq_getElem hr] at entry
    have key : p.keyNat c suffix = (rank s.run[c]).toNat := by
      rw [keyNat, keyOf, embeds.keys, Array.getD_eq_getD_getElem?, Array.getElem?_map, ← entry]
      rfl
    simpa [keyList, keysOf] using key

theorem filterMap_bucket {xs : List α} {g : α → Option β} {key : α → List Nat}
    {image : β → List Nat} (same : ∀ x ∈ xs, ∀ y, g x = some y → key x = image y)
    (keys : List Nat) :
    (bucket key xs keys).filterMap g = bucket image (xs.filterMap g) keys := by
  rw [bucket, bucket, List.filterMap_filter, List.filter_filterMap]
  apply List.filterMap_congr
  intro x member
  cases found : g x with
  | none => simp
  | some y => simp [same x member y found, Option.filter_some]

/-- The windows that the suffixes of the tape start with are those of the texts. -/
theorem filterMap_side? (laid : p.tape.LaidOut texts) (positive : 0 < p.depth) :
    ((List.range p.suffixCount).map Nat.toUInt32).filterMap p.side? = windows texts p.depth := by
  rw [← laid.filterMap_side? positive, List.filterMap_map]
  apply List.filterMap_congr
  intro pos member
  have inside : pos < p.tape.size - p.depth := List.mem_range.mp member
  have few := laid.size_lt
  rw [Function.comp_apply, side?, Position.toNat_toUInt32 (by omega)]

/-- The keys of the contents of windows ascend as the contents do. -/
theorem keysOf_windowContents_ascending (laid : p.tape.LaidOut texts)
    (embeds : p.keyTable.Embeds p.tape.symbols rank) (positive : 0 < p.depth) :
    ((windowContents texts p.depth).map (keysOf rank)).Pairwise (· < ·) := by
  rw [List.pairwise_map]
  apply (windowContents_ascending texts p.depth).imp_of_mem
  intro v w inV inW less
  exact keysOf_lt embeds (content_of_laidOut laid positive inV).2
    (content_of_laidOut laid positive inW).2 less

theorem mem_keyLists_of_windowContents (laid : p.tape.LaidOut texts)
    (embeds : p.keyTable.Embeds p.tape.symbols rank) (positive : 0 < p.depth) {keys : List Nat}
    (member : keys ∈ (windowContents texts p.depth).map (keysOf rank)) :
    keys ∈ keyLists p.keyTable.alphabet p.depth := by
  obtain ⟨content, inContents, rfl⟩ := List.mem_map.mp member
  obtain ⟨length, symbols⟩ := content_of_laidOut laid positive inContents
  rw [mem_keyLists, keysOf, List.length_map, List.forall_mem_map]
  exact ⟨length, fun x inContent => embeds.lt_alphabet x (symbols x inContent)⟩

/-- No window has keys that no content has. -/
theorem bucket_windows_of_not_mem {width : Nat} {keys : List Nat}
    (absent : keys ∉ (windowContents texts width).map (keysOf rank)) :
    bucket (fun s => keysOf rank s.run) (windows texts width) keys = [] := by
  rw [List.eq_nil_iff_forall_not_mem]
  intro s member
  obtain ⟨inWindows, rfl⟩ := mem_bucket.mp member
  exact absent (List.mem_map_of_mem (mem_windowContents.mpr ⟨s, inWindows, rfl⟩))

/-- The windows with the keys of a content are the windows with this content. -/
theorem bucket_windows_keysOf (laid : p.tape.LaidOut texts)
    (embeds : p.keyTable.Embeds p.tape.symbols rank) (positive : 0 < p.depth)
    {content : List Symbol} (inContents : content ∈ windowContents texts p.depth) :
    bucket (fun s => keysOf rank s.run) (windows texts p.depth) (keysOf rank content) =
      (windows texts p.depth).filter fun s => s.run = content := by
  apply List.filter_congr
  intro s inWindows
  have runInContents := mem_windowContents.mpr ⟨s, inWindows, rfl⟩
  rw [decide_eq_decide]
  constructor
  · intro same
    exact keysOf_inj embeds (content_of_laidOut laid positive runInContents).2
      (content_of_laidOut laid positive inContents).2 same
  · intro same
    exact congrArg (keysOf rank) same

/-- All that is reported of a tape, in order. -/
theorem reported_eq_pairsByContent (laid : p.tape.LaidOut texts)
    (embeds : p.keyTable.Embeds p.tape.symbols rank) (positive : 0 < p.depth) :
    p.reported p.depth 0 ((List.range p.suffixCount).map Nat.toUInt32) =
      pairsByContent texts p.depth := by
  calc
    p.reported p.depth 0 ((List.range p.suffixCount).map Nat.toUInt32) =
        (keyLists p.keyTable.alphabet p.depth).flatMap fun keys =>
          pairsOf (bucket (fun s => keysOf rank s.run) (windows texts p.depth) keys) := by
      rw [reported_eq_keyLists]
      apply List.flatMap_congr
      intro keys _
      rw [filterMap_bucket fun _ _ s found => keyList_eq_keysOf laid embeds positive found,
        filterMap_side? laid positive]
    _ = ((windowContents texts p.depth).map (keysOf rank)).flatMap fun keys =>
          pairsOf (bucket (fun s => keysOf rank s.run) (windows texts p.depth) keys) := by
      apply flatMap_eq_of_ascending (keyLists_ascending _ _)
        (keysOf_windowContents_ascending laid embeds positive)
      · intro keys member
        exact mem_keyLists_of_windowContents laid embeds positive member
      · intro keys absent
        rw [bucket_windows_of_not_mem absent, pairsOf]
    _ = pairsByContent texts p.depth := by
      rw [List.flatMap_map, pairsByContent]
      apply List.flatMap_congr
      intro content inContents
      rw [bucket_windows_keysOf laid embeds positive inContents]

end SortPlan

end SharedRuns
