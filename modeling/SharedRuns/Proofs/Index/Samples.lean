import Mathlib.Data.List.Permutation
import SharedRuns.Index
import SharedRuns.Proofs.Checked
import SharedRuns.Proofs.Index.History
import SharedRuns.Proofs.Stencil.Sampling
import SharedRuns.Proofs.Text.Numbered

/-!
# A sample index finds every shared sample once and in order

`sharedSamples` lists the samples that a query shares with other texts by comparing the samples of
all patterns at all starts. `SampleIndex.search_perform_eq_sharedSamples` says that an index reports
the same list, whatever model it was made for, and that it does not fault.

The argument is the one for runs. What is new is that samples are taken, which could fault and does
not where patterns fit, and that a posting names its pattern in one byte, which is enough for the
patterns of an accepted model.
-/

namespace SharedRuns

/-- The match of the query's sample under `k₁` at `start₁` with the one of another text under `k₂`
at `start₂`, if that pattern fits, the texts have different names and the samples are equal. -/
def sharedSample? (m : Stencil) (query : Text) (start₁ k₁ : Nat) (t : Text) (start₂ k₂ : Nat) :
    Option Match :=
  if ¬ t.SameId query ∧ start₂ + m.widthOf k₂ ≤ t.size ∧
      m.sampleOf t.symbols start₂ k₂ = m.sampleOf query.symbols start₁ k₁ then
    some
      { a := { text := query, offset := start₁, len := m.widthOf k₁ }
        b := { text := t, offset := start₂, len := m.widthOf k₂ } }
  else none

/-- All pairs of equal samples of the query and of a text of another name: by the start and the
pattern in the query, then by the text, then by the start and the pattern in the text. -/
def sharedSamples (m : Stencil) (texts : List Text) (query : Text) : List Match :=
  (List.range query.size).flatMap fun start₁ =>
    (List.range m.patternCount).flatMap fun k₁ =>
      if start₁ + m.widthOf k₁ ≤ query.size then
        texts.flatMap fun t =>
          (List.range t.size).flatMap fun start₂ =>
            (List.range m.patternCount).filterMap (sharedSample? m query start₁ k₁ t start₂)
      else []

namespace SampleIndex

open Stencil (Placement)
open Checked

/-- The index after one more call. A refused text changes nothing. -/
def perform (ix : SampleIndex) : IndexCall → SampleIndex
  | .add t =>
    match ix.add t with
    | .ok filled => filled
    | .error _ => ix
  | .search _ => ix
  | .clear => ix.clear

/-- The fingerprint of a sample. -/
def sampleHash (m : Stencil) (t : Text) (place : Placement) : UInt32 :=
  Fingerprint.ofRun (m.sampleOf t.symbols place.start place.pattern)

/-- The samples of a text with their fingerprints. -/
def filings (m : Stencil) (t : Text) : List (UInt32 × Placement) :=
  (m.placements t.size).map fun place => (sampleHash m t place, place)

/-- The posting of a sample of a numbered text, with the fingerprint under which it is pushed. -/
def posting (entry : Nat × UInt32 × Placement) : UInt32 × PostedSample :=
  (entry.2.1, .encode entry.1.toUInt32 entry.2.2.start.toUInt32 entry.2.2.pattern.toUInt8 entry.2.1)

/-- The index of texts that were added in this order to an index without texts. -/
def ofTexts (m : Stencil) (texts : List Text) : SampleIndex where
  model := m
  texts := texts.toArray
  table := PostingTable.empty.pushAll ((numbered (filings m) 0 texts).map posting)

variable {m : Stencil} {texts : List Text}

@[simp] theorem texts_ofTexts : (ofTexts m texts).texts = texts.toArray := rfl

@[simp] theorem model_ofTexts : (ofTexts m texts).model = m := rfl

theorem sampleAt_of_fits {ix : SampleIndex} (accepted : ix.model.Accepted) {t : Text}
    {start k : Nat} (inside : k < ix.model.patternCount)
    (fits : start + ix.model.widthOf k ≤ t.size) :
    ix.sampleAt t start k = .ok (ix.model.sampleOf t.symbols start k) := by
  rw [sampleAt, Stencil.sample?_of_fits accepted inside fits, Fault.within_some]

/-- The table after the sample at a placement was filed. -/
def pushSample (t : Text) (m : Stencil) (number : Nat) (table : PostingTable PostedSample)
    (place : Placement) : PostingTable PostedSample :=
  table.push (sampleHash m t place) (.encode number.toUInt32 place.start.toUInt32
    place.pattern.toUInt8 (sampleHash m t place))

theorem file_eq {ix : SampleIndex} (accepted : ix.model.Accepted) {t : Text} {place : Placement}
    (member : place ∈ ix.model.placements t.size) (number : Nat)
    (table : PostingTable PostedSample) :
    ix.file t number table place = .ok (pushSample t ix.model number table place) := by
  obtain ⟨inside, width, fits⟩ := (Stencil.mem_placements accepted).mp member
  rw [file, sampleAt_of_fits accepted inside (width ▸ fits)]
  rfl

/-- Filing the samples of a text does not fault. -/
theorem foldlM_file {ix : SampleIndex} (accepted : ix.model.Accepted) (t : Text) (number : Nat)
    (table : PostingTable PostedSample) :
    (ix.model.placements t.size).foldlM (ix.file t number) table =
      .ok ((ix.model.placements t.size).foldl (pushSample t ix.model number) table) :=
  foldlM_ok table fun table _ member => file_eq accepted member number table

theorem add_ofTexts (accepted : m.Accepted) {t : Text} (taken : t.Addressable texts.length) :
    (ofTexts m texts).add t = .ok (ofTexts m (texts ++ [t])) := by
  have filed : (m.placements t.size).foldlM ((ofTexts m texts).file t texts.length)
        (ofTexts m texts).table =
      .ok ((ofTexts m texts).table.pushAll
        (((filings m t).map fun x => (texts.length, x)).map posting)) := by
    have one := @foldlM_file (ofTexts m texts) accepted t texts.length (ofTexts m texts).table
    rw [model_ofTexts] at one
    rw [one]
    simp only [PostingTable.pushAll, filings, List.map_map, List.foldl_map]
    rfl
  have check : t.checkAddressable texts.length = .ok () :=
    Text.checkAddressable_of_addressable taken
  simp only [add, check, ok_bind, model_ofTexts, texts_ofTexts, List.size_toArray, filed,
    pure_eq_ok]
  simp only [ofTexts, List.push_toArray, numbered_concat, List.map_append,
    PostingTable.pushAll_append, Nat.zero_add]

theorem perform_ofTexts (accepted : m.Accepted) (call : IndexCall) :
    (ofTexts m texts).perform call = ofTexts m (call.hold texts) := by
  cases call with
  | add t =>
      by_cases taken : t.Addressable texts.length
      · simp only [perform, IndexCall.hold, taken, if_true, add_ofTexts accepted]
      · obtain ⟨fault, refused⟩ := Text.checkAddressable_of_not taken
        have failed : (ofTexts m texts).add t = .error fault := by
          simp only [add, texts_ofTexts, List.size_toArray, refused]
          rfl
        simp only [perform, IndexCall.hold, taken, if_false, failed]
  | search query => rfl
  | clear => rfl

/-- However an index was called, it is the index of the texts that it holds. -/
theorem perform_eq_ofTexts (accepted : m.Accepted) (calls : List IndexCall) :
    calls.foldl perform { model := m } = ofTexts m (heldTexts calls) := by
  show calls.foldl perform (ofTexts m []) = _
  apply List.foldl_hom
  intro held call
  exact perform_ofTexts accepted call

/-- What is reported for a posting, the order of reports left aside. -/
def found? (ix : SampleIndex) (query : Text) (place : Placement) (hash : UInt32)
    (posting : PostedSample) : Option Match :=
  ix.texts[(posting.decode hash).1.toNat]?.bind fun other =>
    if posting.pattern.toNat < ix.model.patternCount then
      sharedSample? ix.model query place.start place.pattern other
        (posting.decode hash).2.1.toNat posting.pattern.toNat
    else none

theorem candidate?_eq {ix : SampleIndex} (accepted : ix.model.Accepted) {place : Placement}
    (width : place.width = ix.model.widthOf place.pattern) (query other : Text) (start k : Nat) :
    ix.candidate? query place (ix.model.sampleOf query.symbols place.start place.pattern)
        other start k =
      .ok (if k < ix.model.patternCount then
        sharedSample? ix.model query place.start place.pattern other start k else none) := by
  rw [candidate?, Stencil.width?_eq accepted]
  by_cases inside : k < ix.model.patternCount
  · simp only [inside, if_true, Window.fits_iff]
    by_cases rejected : other.SameId query ∨ ¬ start + ix.model.widthOf k ≤ other.size
    · rw [if_pos rejected, sharedSample?, if_neg]
      · rfl
      · rintro ⟨named, fits, -⟩
        exact rejected.elim named fun outside => outside fits
    · obtain ⟨named, fits⟩ := not_or.mp rejected
      rw [not_not] at fits
      rw [if_neg rejected, sampleAt_of_fits accepted inside fits, ok_bind, pure_eq_ok]
      congr 1
      simp only [sharedSample?, named, fits, width, not_false_eq_true, true_and]
      exact if_congr eq_comm rfl rfl
  · simp [inside]

/-- Reading a bin does not fault, whatever its postings unfold to. -/
theorem readBin_eq_reportAscending {ix : SampleIndex} (accepted : ix.model.Accepted)
    {query : Text} {place : Placement} (width : place.width = ix.model.widthOf place.pattern)
    (hash : UInt32) (last : Nat) (bin : List PostedSample) :
    ix.readBin query place (ix.model.sampleOf query.symbols place.start place.pattern) hash last
        bin =
      .ok (reportAscending (fun p => (p.decode hash).1.toNat) (ix.found? query place hash) last
        bin) := by
  induction bin generalizing last with
  | nil => rfl
  | cons p rest ih =>
      simp only [readBin, reportAscending, found?]
      cases ix.texts[(p.decode hash).1.toNat]? with
      | none => exact ih last
      | some other =>
          have candidate := candidate?_eq accepted width query other (p.decode hash).2.1.toNat
            p.pattern.toNat
          simp only [Option.bind_some]
          show (if _ then _ else ix.candidate? query place _ other _ p.pattern.toNat >>= _) = _
          rw [candidate, ok_bind]
          cases (if p.pattern.toNat < ix.model.patternCount then
              sharedSample? ix.model query place.start place.pattern other
                (p.decode hash).2.1.toNat p.pattern.toNat else none) with
          | none => simp only [ih, ite_self]
          | some reported =>
              by_cases behind : (p.decode hash).1.toNat < last
              · simp only [behind, Nat.not_le.mpr behind, if_true, if_false, ih]
              · simp only [behind, Nat.not_lt.mp behind, if_true, if_false, ih, ok_bind,
                  pure_eq_ok]

/-- What is reported for the query's sample at a placement. -/
def reportsAt (ix : SampleIndex) (query : Text) (place : Placement) : List Match :=
  let hash := sampleHash ix.model query place
  reportAscending (fun p => (p.decode hash).1.toNat) (ix.found? query place hash) 0
    (ix.table.bin hash).toList

theorem searchAt_eq {ix : SampleIndex} (accepted : ix.model.Accepted) {query : Text}
    {place : Placement} (member : place ∈ ix.model.placements query.size) :
    ix.searchAt query place = .ok (ix.reportsAt query place) := by
  obtain ⟨inside, width, fits⟩ := (Stencil.mem_placements accepted).mp member
  rw [searchAt, sampleAt_of_fits accepted inside (width ▸ fits), ok_bind]
  exact readBin_eq_reportAscending accepted width _ _ _

/-- Searching does not fault, whatever is filed in the bins. -/
theorem search_eq {ix : SampleIndex} (accepted : ix.model.Accepted) (query : Text) :
    ix.search query = .ok ((ix.model.placements query.size).flatMap (ix.reportsAt query)) := by
  rw [search, mapM_ok fun place member => searchAt_eq accepted member, List.flatMap_def]
  rfl

theorem mem_filings {number : Nat} {hash : UInt32} {place : Placement} :
    (number, hash, place) ∈ numbered (filings m) 0 texts ↔
      ∃ t, texts[number]? = some t ∧ place ∈ m.placements t.size ∧ sampleHash m t place = hash := by
  simp only [mem_numbered, filings, Nat.zero_le, true_and, Nat.sub_zero, List.mem_map,
    Prod.mk.injEq]
  refine exists_congr fun t => and_congr_right fun _ => ?_
  constructor
  · rintro ⟨place, member, hash, rfl⟩
    exact ⟨member, hash⟩
  · rintro ⟨member, hash⟩
    exact ⟨place, member, hash, rfl⟩

/-- A posting of the bin leads to the sample that was filed, or to no report at all. -/
theorem found?_posting (accepted : m.Accepted) (held : Holdable texts)
    (bounded : Unmistakable texts) {query : Text} {place : Placement}
    {entry : Nat × UInt32 × Placement} (member : entry ∈ numbered (filings m) 0 texts)
    (same : binNumber (posting entry).1 = binNumber (sampleHash m query place)) :
    (ofTexts m texts).found? query place (sampleHash m query place) (posting entry).2 =
      texts[entry.1]?.bind fun t =>
        sharedSample? m query place.start place.pattern t entry.2.2.start entry.2.2.pattern := by
  obtain ⟨number, hash, source⟩ := entry
  obtain ⟨t, lookup, placed, rfl⟩ := mem_filings.mp member
  obtain ⟨inside, width, fits⟩ := (Stencil.mem_placements accepted).mp placed
  have positive : 0 < m.widthOf source.pattern := Stencil.patternWidth_pos _
  have inText : source.start < t.size := by omega
  have numberWord := held.toNat_number lookup
  have startWord := held.toNat_start lookup inText
  have patternByte : source.pattern.toUInt8.toNat = source.pattern :=
    UInt8.toNat_ofNat_of_lt' (lt_of_lt_of_le inside accepted.patternCount_le)
  simp only [found?, posting, PostedSample.decode_encode] at same ⊢
  by_cases equal : sampleHash m t source = sampleHash m query place
  · -- The posting of a sample with the fingerprint asked for unfolds to that sample.
    simp only [equal, UInt32.xor_self, UInt32.xor_zero, numberWord, startWord, patternByte, lookup,
      Option.bind_some, texts_ofTexts, model_ofTexts, List.getElem?_toArray, inside, if_true,
      PostedSample.encode]
  · have different : m.sampleOf t.symbols source.start source.pattern ≠
        m.sampleOf query.symbols place.start place.pattern :=
      fun h => equal (congrArg Fingerprint.ofRun h)
    rw [lookup, Option.bind_some, sharedSample?, if_neg (fun h => different h.2.2),
      Option.bind_eq_none_iff]
    intro other found
    rw [texts_ofTexts, List.getElem?_toArray] at found
    simp only [PostedSample.encode, patternByte, model_ofTexts, inside, if_true]
    rw [sharedSample?, if_neg]
    rintro ⟨-, fitsThere, -⟩
    have lifted := bounded.size_le_unfolded held lookup inText same equal found
    omega

/-- Equal samples share a fingerprint, so what is to be reported lies in the bin that is read. -/
theorem posting_of_sharedSample (held : Holdable texts) {query : Text} {place : Placement}
    {entry : Nat × UInt32 × Placement} (member : entry ∈ numbered (filings m) 0 texts)
    (found : (texts[entry.1]?.bind fun t => sharedSample? m query place.start place.pattern t
      entry.2.2.start entry.2.2.pattern).isSome) :
    binNumber (posting entry).1 = binNumber (sampleHash m query place) ∧
      ((posting entry).2.decode (sampleHash m query place)).1.toNat = entry.1 := by
  obtain ⟨number, hash, source⟩ := entry
  obtain ⟨t, lookup, -, rfl⟩ := mem_filings.mp member
  have numberWord := held.toNat_number lookup
  have equal : m.sampleOf t.symbols source.start source.pattern =
      m.sampleOf query.symbols place.start place.pattern := by
    by_contra different
    simp [lookup, sharedSample?, different] at found
  have same : sampleHash m t source = sampleHash m query place := congrArg Fingerprint.ofRun equal
  simp [posting, same, numberWord]

/-- What is found at the placements in a text is found start by start and pattern by pattern. -/
theorem filterMap_placements (accepted : m.Accepted) (query : Text) (place : Placement) (t : Text) :
    (m.placements t.size).filterMap
        (fun p => sharedSample? m query place.start place.pattern t p.start p.pattern) =
      (List.range t.size).flatMap fun start₂ =>
        (List.range m.patternCount).filterMap
          (sharedSample? m query place.start place.pattern t start₂) := by
  rw [Stencil.placements_eq accepted, List.filterMap_flatMap]
  apply List.flatMap_congr
  intro start₂ _
  rw [List.filterMap_filterMap]
  apply List.filterMap_congr
  intro k _
  by_cases fits : start₂ + m.widthOf k ≤ t.size
  · simp [fits]
  · simp [fits, sharedSample?]

theorem reportsAt_ofTexts (accepted : m.Accepted) (held : Holdable texts)
    (bounded : Unmistakable texts) (query : Text) (place : Placement) :
    (ofTexts m texts).reportsAt query place =
      texts.flatMap fun t => (List.range t.size).flatMap fun start₂ =>
        (List.range m.patternCount).filterMap
          (sharedSample? m query place.start place.pattern t start₂) :=
  calc (ofTexts m texts).reportsAt query place
      = (numbered (filings m) 0 texts).filterMap fun entry =>
          texts[entry.1]?.bind fun t => sharedSample? m query place.start place.pattern t
            entry.2.2.start entry.2.2.pattern := by
        apply reportAscending_bin numbered_ascending
        · intro entry member same
          exact found?_posting accepted held bounded member same
        · intro entry member found
          exact posting_of_sharedSample held member found
    _ = texts.flatMap fun t => (filings m t).filterMap fun x =>
          sharedSample? m query place.start place.pattern t x.2.start x.2.pattern :=
        filterMap_numbered fun t (x : UInt32 × Placement) =>
          sharedSample? m query place.start place.pattern t x.2.start x.2.pattern
    _ = texts.flatMap fun t => (List.range t.size).flatMap fun start₂ =>
          (List.range m.patternCount).filterMap
            (sharedSample? m query place.start place.pattern t start₂) := by
        simp only [filings, List.filterMap_map, Function.comp_def, filterMap_placements accepted]

/-- The index of some texts reports what comparing all samples reports. -/
theorem search_ofTexts (accepted : m.Accepted) (held : Holdable texts)
    (bounded : Unmistakable texts) (query : Text) :
    (ofTexts m texts).search query = .ok (sharedSamples m texts query) := by
  rw [search_eq accepted, model_ofTexts]
  congr 1
  rw [List.flatMap_congr fun place _ => reportsAt_ofTexts accepted held bounded query place,
    Stencil.placements_eq accepted, List.flatMap_assoc]
  apply List.flatMap_congr
  intro start₁ _
  rw [List.filterMap_eq_flatMap_toList, List.flatMap_assoc]
  apply List.flatMap_congr
  intro k₁ _
  split <;> simp

end SampleIndex

end SharedRuns
