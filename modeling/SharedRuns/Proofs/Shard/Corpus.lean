import SharedRuns.Proofs.Checked
import SharedRuns.Proofs.Stencil.Sampling
import SharedRuns.Shard.Engine

/-!
# The postings of a corpus

A posting of a corpus is a position of its layout with a pattern that fits there inside one text.
`postings` lists them text by text, by their positions and their patterns, and says of each in which
text and where it lies. The layout, the jobs of the linking phase and the postings that are looked
up in the reading phase are described by this list, and no access of theirs faults.
-/

namespace SharedRuns

open Checked

/-- The symbols of texts numbered from `first` on, each by its text and its place. -/
def spots (first : Nat) (texts : List Text) : List (Text × Place) :=
  (texts.zipIdx first).flatMap fun (t, number) => (Layout.placesOf t number).map (t, ·)

/-- A posting of a corpus. -/
structure CorpusPosting where
  text : Text
  /-- Where it lies in its text, with the text's number. -/
  place : Place
  /-- Where it lies in the layout. -/
  position : Nat
  pattern : Nat

namespace CorpusPosting

/-- The number of the posting's link. -/
def link (m : Stencil) (x : CorpusPosting) : Nat := x.position * m.patternCount + x.pattern

/-- The bin of the posting: that of its symbols mixed, and put in order afterwards. -/
def bin (m : Stencil) (x : CorpusPosting) : Nat :=
  binNumber (Fingerprint.ofMixed
    (m.sampleOf (x.text.symbols.map Fingerprint.mix) x.place.offset x.pattern))

/-- The posting's symbols as they are compared. -/
def sample (m : Stencil) (x : CorpusPosting) : List Symbol :=
  m.sampleOf x.text.symbols x.place.offset x.pattern

/-- The posting's window. -/
def side (m : Stencil) (x : CorpusPosting) : Side where
  text := x.text
  offset := x.place.offset
  len := m.widthOf x.pattern

/-- The job that links the posting. -/
def job (m : Stencil) (x : CorpusPosting) : Job where
  link := (x.link m).toUInt32
  bin := x.bin m

end CorpusPosting

/-- The postings at a position of the layout. -/
def postingsAt (m : Stencil) (t : Text) (place : Place) (position : Nat) : List CorpusPosting :=
  (List.range m.patternCount).filterMap fun pattern =>
    if place.offset + m.widthOf pattern ≤ t.size then some { text := t, place, position, pattern }
    else none

/-- The postings of a corpus, by their positions and their patterns. -/
def postings (m : Stencil) (texts : List Text) : List CorpusPosting :=
  (spots 0 texts).zipIdx.flatMap fun ((t, place), position) => postingsAt m t place position

section

variable {first pos : Nat} {texts : List Text} {t : Text} {place : Place}

theorem spots_cons (rest : List Text) :
    spots first (t :: rest) = (Layout.placesOf t first).map (t, ·) ++ spots (first + 1) rest := by
  simp [spots, List.zipIdx_cons]

theorem symbolCount_cons (t : Text) (rest : List Text) :
    ShardEngine.symbolCount (t :: rest) = t.size + ShardEngine.symbolCount rest := rfl

theorem length_spots (first : Nat) (texts : List Text) :
    (spots first texts).length = ShardEngine.symbolCount texts := by
  induction texts generalizing first with
  | nil => rfl
  | cons t rest ih =>
      rw [spots_cons, List.length_append, ih, symbolCount_cons]
      simp [Layout.placesOf]

theorem getElem?_placesOf {number : Nat} :
    ((Layout.placesOf t number).map (t, ·))[pos]? =
      if pos < t.size then some (t, { text := number, offset := pos }) else none := by
  by_cases inside : pos < t.size
  · simp [Layout.placesOf, inside]
  · simp [Layout.placesOf, inside]

/-- A position belongs to the first text or to one of the others. -/
theorem getElem?_spots_cons {u : Text} {rest : List Text} :
    (spots first (u :: rest))[pos]? = some (t, place) ↔
      pos < u.size ∧ t = u ∧ place = { text := first, offset := pos } ∨
        u.size ≤ pos ∧ (spots (first + 1) rest)[pos - u.size]? = some (t, place) := by
  have length : ((Layout.placesOf u first).map (u, ·)).length = u.size := by
    simp [Layout.placesOf]
  rw [spots_cons, List.getElem?_append, length, getElem?_placesOf]
  by_cases inside : pos < u.size
  · simp [inside, Nat.not_le.mpr inside, eq_comm]
  · simp [inside, Nat.not_lt.mp inside]

/-- A place of the layout lies in the text of its number. -/
theorem text_of_spot (found : (spots first texts)[pos]? = some (t, place)) :
    first ≤ place.text ∧ texts[place.text - first]? = some t ∧ place.offset < t.size := by
  induction texts generalizing first pos with
  | nil => cases found
  | cons u rest ih =>
      rcases getElem?_spots_cons.mp found with ⟨inside, rfl, rfl⟩ | ⟨-, later⟩
      · exact ⟨Nat.le_refl _, by simp, inside⟩
      · obtain ⟨le, lookup, inside⟩ := ih later
        refine ⟨Nat.le_of_succ_le le, ?_, inside⟩
        have next : place.text - first = place.text - (first + 1) + 1 := by omega
        rw [next, List.getElem?_cons_succ, lookup]

/-- The symbols of a text follow one another in the layout. -/
theorem spot_add (found : (spots first texts)[pos]? = some (t, place)) {i : Nat}
    (inside : place.offset + i < t.size) :
    (spots first texts)[pos + i]? =
      some (t, { text := place.text, offset := place.offset + i }) := by
  induction texts generalizing first pos with
  | nil => cases found
  | cons u rest ih =>
      rcases getElem?_spots_cons.mp found with ⟨_, rfl, rfl⟩ | ⟨le, later⟩
      · exact getElem?_spots_cons.mpr (.inl ⟨inside, rfl, rfl⟩)
      · refine getElem?_spots_cons.mpr (.inr ⟨by omega, ?_⟩)
        rw [Nat.sub_add_comm le]
        exact ih later

theorem offset_le_of_spot (found : (spots first texts)[pos]? = some (t, place)) :
    place.offset ≤ pos := by
  induction texts generalizing first pos with
  | nil => cases found
  | cons u rest ih =>
      rcases getElem?_spots_cons.mp found with ⟨_, rfl, rfl⟩ | ⟨le, later⟩
      · exact Nat.le_refl _
      · exact Nat.le_trans (ih later) (Nat.sub_le _ _)

theorem places_ofTexts :
    (Layout.ofTexts texts).places = ((spots 0 texts).map Prod.snd).toArray := by
  simp [Layout.ofTexts, spots, List.map_flatMap, Function.comp_def]

theorem mixed_ofTexts :
    (Layout.ofTexts texts).mixed =
      ((spots 0 texts).map fun s => Fingerprint.mix (s.1.symbols.getD s.2.offset 0)).toArray := by
  suffices general : ∀ first, (texts.flatMap fun t => t.symbols.toList.map Fingerprint.mix) =
      (spots first texts).map fun s => Fingerprint.mix (s.1.symbols.getD s.2.offset 0) from
    congrArg List.toArray (general 0)
  intro first
  induction texts generalizing first with
  | nil => rfl
  | cons t rest ih =>
      rw [List.flatMap_cons, spots_cons, List.map_append, ← ih]
      congr 1
      apply List.ext_getElem
      · simp [Layout.placesOf, Text.size]
      · intro i inText _
        have inside : i < t.symbols.size := by simpa using inText
        simp [Layout.placesOf, inside]

theorem size_ofTexts : (Layout.ofTexts texts).size = ShardEngine.symbolCount texts := by
  rw [Layout.size, mixed_ofTexts, List.size_toArray, List.length_map, length_spots]

theorem fetch_places (found : (spots 0 texts)[pos]? = some (t, place)) :
    fetch (Layout.ofTexts texts).places pos = .ok place := by
  rw [fetch, places_ofTexts, List.getElem?_toArray, List.getElem?_map, found]
  rfl

/-- Every place of the layout is one of the spots. -/
theorem exists_spot_of_fetch (found : fetch (Layout.ofTexts texts).places pos = .ok place) :
    ∃ t, (spots 0 texts)[pos]? = some (t, place) := by
  rw [fetch, within_eq_ok, places_ofTexts, List.getElem?_toArray, List.getElem?_map,
    Option.map_eq_some_iff] at found
  obtain ⟨⟨t, _⟩, spot, rfl⟩ := found
  exact ⟨t, spot⟩

theorem fetch_text (found : (spots 0 texts)[pos]? = some (t, place)) :
    fetch texts.toArray place.text = .ok t := by
  have lookup := (text_of_spot found).2.1
  rw [Nat.sub_zero] at lookup
  rw [fetch, List.getElem?_toArray, lookup]
  rfl

end

section

variable {β : Type} {m : Stencil} {texts : List Text} {x y : CorpusPosting}

theorem mem_postingsAt {t : Text} {place : Place} {position : Nat} :
    x ∈ postingsAt m t place position ↔ x.text = t ∧ x.place = place ∧ x.position = position ∧
      x.pattern < m.patternCount ∧ place.offset + m.widthOf x.pattern ≤ t.size := by
  obtain ⟨text, place', position', pattern⟩ := x
  simp only [postingsAt, List.mem_filterMap, List.mem_range, Option.ite_none_right_eq_some,
    Option.some.injEq, CorpusPosting.mk.injEq]
  constructor
  · rintro ⟨_, inside, fits, rfl, rfl, rfl, rfl⟩
    exact ⟨rfl, rfl, rfl, inside, fits⟩
  · rintro ⟨rfl, rfl, rfl, inside, fits⟩
    exact ⟨pattern, inside, fits, rfl, rfl, rfl, rfl⟩

/-- A posting is a position of the layout with a pattern that fits into its text. -/
theorem mem_postings :
    x ∈ postings m texts ↔ (spots 0 texts)[x.position]? = some (x.text, x.place) ∧
      x.pattern < m.patternCount ∧ x.place.offset + m.widthOf x.pattern ≤ x.text.size := by
  simp only [postings, List.mem_flatMap, Prod.exists, List.mem_zipIdx_iff_getElem?, mem_postingsAt]
  constructor
  · rintro ⟨_, _, _, found, rfl, rfl, rfl, inside, fits⟩
    exact ⟨found, inside, fits⟩
  · rintro ⟨found, inside, fits⟩
    exact ⟨_, _, _, found, rfl, rfl, rfl, inside, fits⟩

theorem link_lt_of_position_lt (inside : x.pattern < m.patternCount)
    (earlier : x.position < y.position) : x.link m < y.link m :=
  calc x.link m < (x.position + 1) * m.patternCount := by
        rw [CorpusPosting.link, Nat.succ_mul]
        exact Nat.add_lt_add_left inside _
    _ ≤ y.position * m.patternCount := Nat.mul_le_mul_right _ earlier
    _ ≤ y.link m := Nat.le_add_right _ _

theorem flatMap_spots (first : Nat) (texts : List Text) (f : Text → Nat → List β) :
    ((spots first texts).flatMap fun s => f s.1 s.2.offset) =
      texts.flatMap fun t => (List.range t.size).flatMap (f t) := by
  induction texts generalizing first with
  | nil => rfl
  | cons t rest ih =>
      rw [spots_cons, List.flatMap_append, ih, List.flatMap_cons, Layout.placesOf, List.map_map,
        List.flatMap_map]
      rfl

theorem flatMap_postingsAt (f : Text → Nat → Nat → List β) (t : Text) (place : Place)
    (position : Nat) :
    ((postingsAt m t place position).flatMap fun x => f x.text x.place.offset x.pattern) =
      (List.range m.patternCount).flatMap fun k =>
        if place.offset + m.widthOf k ≤ t.size then f t place.offset k else [] := by
  rw [postingsAt, List.filterMap_eq_flatMap_toList, List.flatMap_assoc]
  refine List.flatMap_congr fun k _ => ?_
  split <;> simp

/-- What is found posting by posting is found text by text, start by start and pattern by
pattern. -/
theorem flatMap_postings (f : Text → Nat → Nat → List β) :
    ((postings m texts).flatMap fun x => f x.text x.place.offset x.pattern) =
      texts.flatMap fun t => (List.range t.size).flatMap fun start =>
        (List.range m.patternCount).flatMap fun k =>
          if start + m.widthOf k ≤ t.size then f t start k else [] := by
  rw [← flatMap_spots 0 texts fun t start => (List.range m.patternCount).flatMap fun k =>
    if start + m.widthOf k ≤ t.size then f t start k else [],
    ← List.zipIdx_map_fst 0 (spots 0 texts), List.flatMap_map, postings, List.flatMap_assoc]
  exact List.flatMap_congr fun s _ => flatMap_postingsAt f s.1.1 s.1.2 s.2

theorem filterMap_postings (f : Text → Nat → Nat → Option β) :
    ((postings m texts).filterMap fun x => f x.text x.place.offset x.pattern) =
      texts.flatMap fun t => (List.range t.size).flatMap fun start =>
        (List.range m.patternCount).filterMap fun k =>
          if start + m.widthOf k ≤ t.size then f t start k else none := by
  simp only [List.filterMap_eq_flatMap_toList,
    flatMap_postings fun t start k => (f t start k).toList]
  refine List.flatMap_congr fun t _ => List.flatMap_congr fun start _ =>
    List.flatMap_congr fun k _ => ?_
  split <;> rfl

/-- Links are numbered in the order of the postings. -/
theorem postings_ascending : (postings m texts).Pairwise fun x y => x.link m < y.link m := by
  rw [postings, List.pairwise_flatMap]
  constructor
  · rintro ⟨⟨t, place⟩, position⟩ -
    refine List.pairwise_filterMap.mpr (List.pairwise_lt_range.imp ?_)
    intro k l less x foundX y foundY
    obtain rfl := Option.some.inj (Option.ite_none_right_eq_some.mp foundX).2
    obtain rfl := Option.some.inj (Option.ite_none_right_eq_some.mp foundY).2
    exact Nat.add_lt_add_left less _
  · have positions : (spots 0 texts).zipIdx.Pairwise fun s t => s.2 < t.2 := by
      rw [← List.pairwise_map, List.zipIdx_map_snd]
      exact List.pairwise_lt_range'
    refine positions.imp ?_
    rintro ⟨⟨t, place⟩, p⟩ ⟨⟨u, place'⟩, q⟩ less x memberX y memberY
    obtain ⟨-, -, atP, inside, -⟩ := mem_postingsAt.mp memberX
    obtain ⟨-, -, atQ, -, -⟩ := mem_postingsAt.mp memberY
    exact link_lt_of_position_lt inside (by rwa [atP, atQ])

theorem nodup_postings : (postings m texts).Nodup :=
  postings_ascending.imp fun less same => Nat.ne_of_lt less (congrArg (CorpusPosting.link m) same)

theorem link_lt (member : x ∈ postings m texts) :
    x.link m < ShardEngine.symbolCount texts * m.patternCount := by
  obtain ⟨found, inside, -⟩ := mem_postings.mp member
  have position : x.position < ShardEngine.symbolCount texts := by
    rw [← length_spots 0]
    exact (List.getElem?_eq_some_iff.mp found).1
  calc x.link m < (x.position + 1) * m.patternCount := by
        rw [CorpusPosting.link, Nat.succ_mul]
        exact Nat.add_lt_add_left inside _
    _ ≤ ShardEngine.symbolCount texts * m.patternCount := Nat.mul_le_mul_right _ position

/-- The posting of a link is found again by division. -/
theorem div_link (inside : x.pattern < m.patternCount) :
    x.link m / m.patternCount = x.position ∧ x.link m % m.patternCount = x.pattern := by
  have positive : 0 < m.patternCount := Nat.zero_lt_of_lt inside
  rw [CorpusPosting.link, Nat.mul_comm]
  exact ⟨by rw [Nat.mul_add_div positive, Nat.div_eq_of_lt inside, Nat.add_zero],
    by rw [Nat.mul_add_mod, Nat.mod_eq_of_lt inside]⟩

end

/-- The plan is one for these texts, and their links can be numbered. -/
structure ShardPlan.Serves (p : ShardPlan) (texts : List Text) : Prop where
  texts_eq : p.texts = texts.toArray
  layout_eq : p.layout = .ofTexts texts
  accepted : p.model.Accepted
  numbered : ShardEngine.symbolCount texts * p.model.patternCount < chainEnd.toNat

namespace ShardPlan.Serves

variable {p : ShardPlan} {texts : List Text} {x : CorpusPosting}

theorem size_layout (serves : p.Serves texts) :
    p.layout.size = ShardEngine.symbolCount texts := by
  rw [serves.layout_eq, size_ofTexts]

theorem link_lt (serves : p.Serves texts) (member : x ∈ postings p.model texts) :
    x.link p.model < chainEnd.toNat :=
  Nat.lt_trans (SharedRuns.link_lt member) serves.numbered

theorem toNat_link (serves : p.Serves texts) (member : x ∈ postings p.model texts) :
    (x.job p.model).link.toNat = x.link p.model :=
  Position.toNat_toUInt32 (Nat.lt_trans (serves.link_lt member) (by decide))

/-- In the layout a sample reads the mixed symbols of one text. -/
theorem sampleOf_mixed (serves : p.Serves texts) (member : x ∈ postings p.model texts) :
    x.position + p.model.widthOf x.pattern ≤ p.layout.mixed.size ∧
      p.model.sampleOf p.layout.mixed x.position x.pattern =
        p.model.sampleOf (x.text.symbols.map Fingerprint.mix) x.place.offset x.pattern := by
  obtain ⟨found, inside, fits⟩ := mem_postings.mp member
  have positive : 0 < p.model.widthOf x.pattern := Stencil.patternWidth_pos _
  have size : p.layout.mixed.size = ShardEngine.symbolCount texts := serves.size_layout
  have read : ∀ i < p.model.widthOf x.pattern, x.position + i < p.layout.mixed.size ∧
      p.layout.mixed[x.position + i]? =
        (x.text.symbols.map Fingerprint.mix)[x.place.offset + i]? := by
    intro i less
    have inText : x.place.offset + i < x.text.symbols.size := Nat.lt_of_lt_of_le (by omega) fits
    have there := spot_add found inText
    constructor
    · rw [size, ← length_spots 0]
      exact (List.getElem?_eq_some_iff.mp there).1
    · rw [serves.layout_eq, mixed_ofTexts, List.getElem?_toArray, List.getElem?_map, there,
        Array.getElem?_map, Array.getElem?_eq_getElem inText]
      simp [inText]
  have small : p.layout.mixed.size < Position.space := by
    rw [size]
    have := serves.numbered
    have := Nat.le_mul_of_pos_right (ShardEngine.symbolCount texts) (Nat.zero_lt_of_lt inside)
    have : chainEnd.toNat < Position.space := by decide
    omega
  constructor
  · have last := (read (p.model.widthOf x.pattern - 1) (by omega)).1
    omega
  · simp only [Stencil.sampleOf]
    congr 1
    refine List.map_congr_left fun offset inPattern => ?_
    have less : offset.toNat < p.model.widthOf x.pattern :=
      Stencil.toNat_lt_patternWidth inPattern
    obtain ⟨inLayout, same⟩ := read offset.toNat less
    have before := offset_le_of_spot found
    rw [Position.add_of_lt (by omega), Position.add_of_lt (by omega),
      Array.getD_eq_getD_getElem?, Array.getD_eq_getD_getElem?, same]

theorem jobOf_eq (serves : p.Serves texts) (member : x ∈ postings p.model texts) :
    p.jobOf x.position x.pattern = .ok (x.job p.model) := by
  obtain ⟨-, inside, -⟩ := mem_postings.mp member
  obtain ⟨fits, same⟩ := serves.sampleOf_mixed member
  rw [jobOf, Stencil.sample?_of_fits serves.accepted inside fits, Fault.within_some, ok_bind, same]
  rfl

/-- The jobs at a position are those of its postings. -/
theorem jobsAt_eq (serves : p.Serves texts) {t : Text} {place : Place} {pos : Nat}
    (found : (spots 0 texts)[pos]? = some (t, place)) :
    p.jobsAt pos = .ok ((postingsAt p.model t place pos).map (CorpusPosting.job p.model)) := by
  let posted (pattern : Nat) : CorpusPosting := { text := t, place, position := pos, pattern }
  have jobs : (p.model.placementsAt t.size place.offset).mapM
      (fun placement => p.jobOf pos placement.pattern) =
      .ok ((p.model.placementsAt t.size place.offset).map fun placement =>
        (posted placement.pattern).job p.model) := by
    apply mapM_ok
    intro placement member
    rw [Stencil.placementsAt_eq serves.accepted, List.mem_filterMap] at member
    obtain ⟨pattern, inside, placed⟩ := member
    obtain ⟨fits, same⟩ := Option.ite_none_right_eq_some.mp placed
    obtain rfl := Option.some.inj same
    exact serves.jobOf_eq (x := posted pattern)
      (mem_postings.mpr ⟨found, List.mem_range.mp inside, fits⟩)
  rw [jobsAt, serves.layout_eq, fetch_places found, ok_bind, serves.texts_eq, fetch_text found,
    ok_bind, jobs, Stencil.placementsAt_eq serves.accepted, postingsAt, List.map_filterMap,
    List.map_filterMap]
  congr 1
  apply List.filterMap_congr
  intro pattern _
  split <;> rfl

/-- A link leads back to its posting. -/
theorem postingOf_eq (serves : p.Serves texts) (member : x ∈ postings p.model texts) :
    p.postingOf (x.job p.model).link = .ok
      { text := x.text
        place := x.place
        width := p.model.widthOf x.pattern
        sample := x.sample p.model } := by
  obtain ⟨found, inside, fits⟩ := mem_postings.mp member
  obtain ⟨position, pattern⟩ := div_link inside
  rw [postingOf, serves.toNat_link member, position, pattern, serves.layout_eq,
    fetch_places found, ok_bind, serves.texts_eq, fetch_text found, ok_bind,
    Stencil.sample?_of_fits serves.accepted inside fits, Stencil.width?_eq serves.accepted,
    if_pos inside]
  rfl

end ShardPlan.Serves

end SharedRuns
