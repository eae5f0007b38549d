import Mathlib.Data.List.Perm.Basic
import SharedRuns.Match.Basic
import SharedRuns.Proofs.Match.Windows
import SharedRuns.Proofs.Stencil.Sampling
import SharedRuns.Proofs.SuffixSort.Buckets

/-!
# Pairs of windows and the comparison of everything

To compare every window of a text with every window of each later text is to go through the pairs of
windows of the list of texts and to keep those that agree. Going through them by their contents
meets the same pairs in another order (`pairsByContent_perm_allPairs`).

What a caller relies on when a match is reported is said of the match alone, without the engine that
found it: both windows lie inside their texts, the texts have different names (`Match.Between`), and
the windows hold the same symbols (`Match.Agrees`) or, under two patterns of a model, the same
sample (`Match.AgreesUnder`).
-/

namespace SharedRuns

/-- Two windows hold the same symbols. -/
def Match.Agrees (m : Match) : Prop := m.a.run = m.b.run

instance (m : Match) : Decidable m.Agrees := inferInstanceAs (Decidable (_ = _))

theorem Match.agrees_iff {m : Match} : m.Agrees ↔ m.a.run = m.b.run := .rfl

theorem mem_pairsOf {sides : List Side} {m : Match} (member : m ∈ pairsOf sides) :
    m.a ∈ sides ∧ m.b ∈ sides := by
  induction sides with
  | nil => simp [pairsOf] at member
  | cons s rest ih =>
      rw [pairsOf, List.mem_append] at member
      rcases member with first | later
      · obtain ⟨other, inRest, rfl⟩ := List.mem_map.mp first
        exact ⟨List.mem_cons_self, List.mem_cons_of_mem _ (List.mem_filter.mp inRest).1⟩
      · exact ⟨List.mem_cons_of_mem _ (ih later).1, List.mem_cons_of_mem _ (ih later).2⟩

theorem not_sameId_of_mem_pairsOf {sides : List Side} {m : Match} (member : m ∈ pairsOf sides) :
    ¬ m.a.text.SameId m.b.text := by
  induction sides with
  | nil => cases member
  | cons s rest ih =>
      rcases List.mem_append.mp member with first | later
      · obtain ⟨other, kept, rfl⟩ := List.mem_map.mp first
        exact of_decide_eq_true (List.mem_filter.mp kept).2
      · exact ih later

theorem Side.matchesWith_filter (s : Side) (others : List Side) (keep : Side → Bool) :
    s.matchesWith (others.filter keep) = (s.matchesWith others).filter fun m => keep m.b := by
  rw [matchesWith, matchesWith, List.filter_map, List.filter_filter, List.filter_filter]
  congr 1
  exact List.filter_congr fun other _ => Bool.and_comm _ _

theorem pairsOf_filter (sides : List Side) (keep : Side → Bool) :
    pairsOf (sides.filter keep) = (pairsOf sides).filter fun m => keep m.a && keep m.b := by
  induction sides with
  | nil => rfl
  | cons s rest ih =>
      have ofFirst : ∀ m ∈ s.matchesWith rest, m.a = s := by
        intro m member
        obtain ⟨other, -, rfl⟩ := List.mem_map.mp member
        rfl
      rw [pairsOf, List.filter_append, ← ih]
      by_cases kept : keep s
      · rw [List.filter_cons_of_pos kept, pairsOf, Side.matchesWith_filter]
        congr 1
        exact List.filter_congr fun m member => by rw [ofFirst m member, kept, Bool.true_and]
      · have dropped : (s.matchesWith rest).filter (fun m => keep m.a && keep m.b) = [] := by
          rw [List.filter_eq_nil_iff]
          intro m member
          simp [ofFirst m member, kept]
        rw [List.filter_cons_of_neg kept, dropped, List.nil_append]

theorem flatMap_swap_perm (xs : List α) (ys : List β) (f : α → β → List γ) :
    (xs.flatMap fun x => ys.flatMap (f x)).Perm
      (ys.flatMap fun y => xs.flatMap fun x => f x y) := by
  induction ys with
  | nil => simp
  | cons y ys ih =>
      simp only [List.flatMap_cons]
      exact (List.flatMap_append_perm xs _ _).symm.trans (ih.append_left _)

/-- Going through the contents meets each pair that agrees once. -/
theorem pairsByContent_perm (texts : List Text) (width : Nat) :
    (pairsByContent texts width).Perm
      ((pairsOf (windows texts width)).filter fun m => m.Agrees) := by
  have contents : ∀ m ∈ (pairsOf (windows texts width)).filter fun m => m.Agrees,
      m.a.run ∈ windowContents texts width := by
    intro m member
    have pair := (List.mem_filter.mp member).1
    exact mem_windowContents.mpr ⟨m.a, (mem_pairsOf pair).1, rfl⟩
  have nodup : (windowContents texts width).Nodup :=
    (windowContents_ascending texts width).imp fun less => by
      rintro rfl
      exact List.lt_irrefl _ less
  refine .trans (.of_eq ?_) (flatMap_bucket_perm nodup contents)
  rw [pairsByContent]
  apply List.flatMap_congr
  intro content _
  rw [pairsOf_filter, bucket, List.filter_filter]
  apply List.filter_congr
  intro m _
  rw [Bool.eq_iff_iff]
  simp only [Bool.and_eq_true, decide_eq_true_eq, Match.agrees_iff]
  constructor
  · rintro ⟨a, b⟩
    exact ⟨a, a.trans b.symm⟩
  · rintro ⟨a, same⟩
    exact ⟨a, same.symm.trans a⟩

theorem Side.matchesWith_eq_nil {s : Side} {others : List Side}
    (sameId : ∀ other ∈ others, s.text.SameId other.text) : s.matchesWith others = [] := by
  rw [matchesWith, List.filter_eq_nil_iff.mpr (by simpa using sameId), List.map_nil]

theorem Side.matchesWith_eq_map {s : Side} {others : List Side}
    (otherIds : ∀ other ∈ others, ¬ s.text.SameId other.text) :
    s.matchesWith others = others.map fun other => { a := s, b := other } := by
  rw [matchesWith, List.filter_eq_self.mpr (by simpa using otherIds)]

/-- The windows of one text make no pairs with each other. -/
theorem pairsOf_append {first others : List Side}
    (sameId : ∀ s ∈ first, ∀ t ∈ first, s.text.SameId t.text) :
    pairsOf (first ++ others) =
      (first.flatMap fun s => s.matchesWith others) ++ pairsOf others := by
  induction first with
  | nil => rfl
  | cons s rest ih =>
      have none : s.matchesWith rest = [] := Side.matchesWith_eq_nil fun other member =>
        sameId s List.mem_cons_self other (List.mem_cons_of_mem _ member)
      rw [List.cons_append, pairsOf, Side.matchesWith_append, none, List.nil_append,
        ih fun u inU v inV => sameId u (List.mem_cons_of_mem _ inU) v (List.mem_cons_of_mem _ inV),
        List.flatMap_cons, List.append_assoc]

theorem text_of_mem_windows {t : Text} {width : Nat} {s : Side} (member : s ∈ t.windows width) :
    s.text = t := by
  obtain ⟨offset, -, rfl⟩ := List.mem_map.mp member
  rfl

theorem matchesWith_windows (s : Side) (texts : List Text) (width : Nat) :
    s.matchesWith (windows texts width) =
      texts.flatMap fun u => s.matchesWith (u.windows width) := by
  induction texts with
  | nil => rfl
  | cons u rest ih =>
      rw [windows, List.flatMap_cons, Side.matchesWith_append, ← windows, ih, List.flatMap_cons]

theorem pairsOf_windows_cons (t : Text) (rest : List Text) (width : Nat) :
    (pairsOf (windows (t :: rest) width)).filter (fun m => m.Agrees) =
      ((t.windows width).flatMap fun s => rest.flatMap fun u =>
        (s.matchesWith (u.windows width)).filter fun m => m.Agrees) ++
      (pairsOf (windows rest width)).filter fun m => m.Agrees := by
  have sameId : ∀ s ∈ t.windows width, ∀ u ∈ t.windows width, s.text.SameId u.text := by
    intro s inS u inU
    rw [text_of_mem_windows inS, text_of_mem_windows inU, Text.SameId]
  rw [windows, List.flatMap_cons, ← windows, pairsOf_append sameId, List.filter_append,
    List.filter_flatMap]
  congr 1
  apply List.flatMap_congr
  intro s _
  rw [matchesWith_windows, List.filter_flatMap]

theorem pair?_of_starts {t u : Text} {depth offset₁ offset₂ : Nat} (in₁ : offset₁ ∈ t.starts depth)
    (in₂ : offset₂ ∈ u.starts depth) :
    BruteForce.pair? t u offset₁ offset₂ depth =
      if t.run offset₁ depth = u.run offset₂ depth then
        some { a := ⟨t, offset₁, depth⟩, b := ⟨u, offset₂, depth⟩ }
      else none := by
  have fits₁ : offset₁ + depth ≤ t.symbols.size := Window.fits_iff.mp (Text.mem_starts.mp in₁)
  have fits₂ : offset₂ + depth ≤ u.symbols.size := Window.fits_iff.mp (Text.mem_starts.mp in₂)
  rw [BruteForce.pair?, slice?_eq_some ⟨Nat.le_add_right _ _, fits₁⟩,
    slice?_eq_some ⟨Nat.le_add_right _ _, fits₂⟩]
  simp only [Text.run, Array.toList_inj]

/-- Two texts are compared window by window. -/
theorem between_eq (depth : Nat) (t u : Text) :
    BruteForce.between depth t u =
      (t.windows depth).flatMap fun s =>
        (s.matchesWith (u.windows depth)).filter fun m => m.Agrees := by
  by_cases sameId : t.SameId u
  · have none : ∀ s ∈ t.windows depth, s.matchesWith (u.windows depth) = [] := by
      intro s inT
      apply Side.matchesWith_eq_nil
      intro other inU
      rw [text_of_mem_windows inT, text_of_mem_windows inU]
      exact sameId
    rw [BruteForce.between, if_pos sameId, List.flatMap_congr fun s inT => by rw [none s inT]]
    simp
  · rw [BruteForce.between, if_neg sameId]
    have windowsT : t.windows depth = (t.starts depth).map _ := rfl
    rw [windowsT, List.flatMap_map]
    apply List.flatMap_congr
    intro offset₁ in₁
    have otherIds : ∀ other ∈ u.windows depth, ¬ t.SameId other.text := fun other inU => by
      rwa [text_of_mem_windows inU]
    rw [List.filterMap_congr fun offset₂ in₂ => pair?_of_starts in₁ in₂,
      Side.matchesWith_eq_map otherIds, Text.windows, List.map_map, ← List.filterMap_eq_filter,
      List.filterMap_map]
    apply List.filterMap_congr
    intro offset₂ _
    simp [Option.guard, Match.agrees_iff, Side.run]

/-- The pairs by their contents are those that a comparison of everything finds. -/
theorem pairsByContent_perm_allPairs (texts : List Text) (depth : Nat) :
    (pairsByContent texts depth).Perm (BruteForce.allPairs depth texts) := by
  refine (pairsByContent_perm texts depth).trans ?_
  induction texts with
  | nil => exact .refl _
  | cons t rest ih =>
      rw [pairsOf_windows_cons, BruteForce.allPairs]
      refine .append ((flatMap_swap_perm _ _ _).trans (.of_eq ?_)) ih
      exact List.flatMap_congr fun u _ => (between_eq depth t u).symm

/-- The windows of a match lie inside a text of `queries` and inside one of `held`, and the two have
different names. -/
structure Match.Between (queries held : List Text) (m : Match) : Prop where
  textA : m.a.text ∈ queries
  textB : m.b.text ∈ held
  fitsA : m.a.offset + m.a.len ≤ m.a.text.size
  fitsB : m.b.offset + m.b.len ≤ m.b.text.size
  named : ¬ m.a.text.SameId m.b.text

/-- The symbols that are read at a window under a pattern of its width. -/
def Side.Reads (model : Stencil) (s : Side) (symbols : List Symbol) : Prop :=
  ∃ k < model.patternCount, s.len = model.widthOf k ∧
    model.read? s.text.symbols s.offset k = some symbols

/-- Two windows hold one sample, each under a pattern of its own width: the same symbols in the same
order, or in any order if the model is sorted. -/
def Match.AgreesUnder (model : Stencil) (m : Match) : Prop :=
  ∃ xs ys, m.a.Reads model xs ∧ m.b.Reads model ys ∧ if model.sorted then xs.Perm ys else xs = ys

/-- A match under a model between two texts of a list. -/
def Match.GenuineIn (model : Stencil) (texts : List Text) (m : Match) : Prop :=
  m.Between texts texts ∧ m.AgreesUnder model

theorem Match.Between.flip {texts : List Text} {m : Match} (between : m.Between texts texts) :
    m.flip.Between texts texts where
  textA := between.textB
  textB := between.textA
  fitsA := between.fitsB
  fitsB := between.fitsA
  named same := between.named (Eq.symm same)

theorem Match.AgreesUnder.flip {model : Stencil} {m : Match} (agrees : m.AgreesUnder model) :
    m.flip.AgreesUnder model := by
  obtain ⟨xs, ys, readsA, readsB, same⟩ := agrees
  refine ⟨ys, xs, readsB, readsA, ?_⟩
  split at same
  · next inOrder => exact (if_pos inOrder).mpr same.symm
  · next asRead => exact (if_neg asRead).mpr same.symm

theorem Match.GenuineIn.flip {model : Stencil} {texts : List Text} {m : Match}
    (genuine : m.GenuineIn model texts) : m.flip.GenuineIn model texts :=
  ⟨genuine.1.flip, genuine.2.flip⟩

/-- Equal samples are read where the patterns fit. -/
theorem Match.agreesUnder_of_sampleOf {model : Stencil} {m : Match} {k₁ k₂ : Nat}
    (inside₁ : k₁ < model.patternCount) (inside₂ : k₂ < model.patternCount)
    (lenA : m.a.len = model.widthOf k₁) (lenB : m.b.len = model.widthOf k₂)
    (fitsA : m.a.offset + m.a.len ≤ m.a.text.size) (fitsB : m.b.offset + m.b.len ≤ m.b.text.size)
    (same : model.sampleOf m.a.text.symbols m.a.offset k₁ =
      model.sampleOf m.b.text.symbols m.b.offset k₂) : m.AgreesUnder model := by
  rw [lenA] at fitsA
  rw [lenB] at fitsB
  exact ⟨_, _, ⟨k₁, inside₁, lenA, Stencil.read?_of_fits fitsA⟩,
    ⟨k₂, inside₂, lenB, Stencil.read?_of_fits fitsB⟩, Stencil.arrange_eq_iff.mp same⟩

theorem mem_windows {texts : List Text} {width : Nat} {s : Side} :
    s ∈ windows texts width ↔ s.text ∈ texts ∧ s.len = width ∧ s.offset + s.len ≤ s.text.size := by
  obtain ⟨t, offset, len⟩ := s
  simp only [windows, Text.windows, List.mem_flatMap, List.mem_map, Text.mem_starts,
    Window.fits_iff, Side.mk.injEq]
  constructor
  · rintro ⟨_, member, _, fits, rfl, rfl, rfl⟩
    exact ⟨member, rfl, fits⟩
  · rintro ⟨member, rfl, fits⟩
    exact ⟨t, member, offset, fits, rfl, rfl, rfl⟩

theorem genuine_of_mem_pairsByContent {texts : List Text} {width : Nat} {m : Match}
    (member : m ∈ pairsByContent texts width) : m.Between texts texts ∧ m.Agrees := by
  have inPairs := (pairsByContent_perm texts width).mem_iff.mp member
  obtain ⟨pair, agrees⟩ := List.mem_filter.mp inPairs
  obtain ⟨sideA, sideB⟩ := mem_pairsOf pair
  obtain ⟨textA, -, fitsA⟩ := mem_windows.mp sideA
  obtain ⟨textB, -, fitsB⟩ := mem_windows.mp sideB
  exact ⟨⟨textA, textB, fitsA, fitsB, not_sameId_of_mem_pairsOf pair⟩, of_decide_eq_true agrees⟩

end SharedRuns
