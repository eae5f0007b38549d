import SharedRuns.Proofs.Index.Runs
import SharedRuns.Proofs.Index.Samples
import SharedRuns.Proofs.Stencil.Contiguous

/-!
# A sample index without gaps is a run index

Made for a contiguous model, a sample index files for every posting of a run index the same numbers
under the same fingerprint, beside the one pattern there is. The two are kept in step by every call:
they read the same bins in the same order, unfold the same numbers, genuine or not, and accept the
same ones. So nothing is asked of the texts, not even that a fingerprint tells their windows apart.
-/

namespace SharedRuns

/-- The posting of a window as that of a sample under the first pattern. -/
def PostedRun.asSample (p : PostedRun) : PostedSample where
  text := p.text
  start := p.start
  pattern := 0

namespace SampleIndex

open Stencil (Placement)
open Checked

/-- A sample index in which nothing can be told from a run index: the same texts are held, equally
many postings are filed, a search reports the same list and a text is refused with the same fault.
A query is one whose positions are words. -/
structure Mirrors (samples : SampleIndex) (runs : RunIndex) : Prop where
  texts : samples.texts = runs.texts
  postingCount : samples.postingCount = runs.postingCount
  search : ∀ query : Text, query.size ≤ Position.space →
    samples.search query = .ok (runs.search query)
  refused : ∀ t fault, samples.add t = .error fault ↔ runs.add t = .error fault

variable {m : Stencil} {length : Nat} {texts : List Text}

theorem sampleHash_eq (gapless : m.Gapless length) {t : Text} {start : Nat}
    (fits : start + length ≤ t.size) (words : t.size ≤ Position.space) :
    sampleHash m t { start, pattern := 0, width := length } =
      Fingerprint.ofRun (t.run start length) := by
  rw [sampleHash, gapless.sampleOf_eq_run fits words]

theorem filings_eq (gapless : m.Gapless length) {t : Text} (words : t.size ≤ Position.space) :
    filings m t = (RunIndex.filings length t).map fun x =>
      (x.1, { start := x.2, pattern := 0, width := length }) := by
  rw [filings, RunIndex.filings, gapless.placements_eq, List.map_map, List.map_map]
  refine List.map_congr_left fun start member => ?_
  have fits := Window.fits_iff.mp (Text.mem_starts.mp member)
  simp only [Function.comp_apply, sampleHash_eq gapless fits words]

/-- What is pushed is the same, and so is the order of the pushes. -/
theorem postings_eq (gapless : m.Gapless length) (held : Holdable texts) :
    (numbered (filings m) 0 texts).map posting =
      ((numbered (RunIndex.filings length) 0 texts).map RunIndex.posting).map fun x =>
        (x.1, x.2.asSample) := by
  rw [numbered_eq_map fun t member => filings_eq gapless (held.size_le_space member), List.map_map,
    List.map_map]
  rfl

theorem bin_eq (gapless : m.Gapless length) (held : Holdable texts) (hash : UInt32) :
    ((ofTexts m texts).table.bin hash).toList =
      ((RunIndex.ofTexts length texts).table.bin hash).toList.map PostedRun.asSample := by
  simp only [ofTexts, RunIndex.ofTexts, postings_eq gapless held, PostingTable.toList_bin_pushAll,
    PostingTable.bin_empty, List.filter_map, List.map_map, List.nil_append, Function.comp_def]

/-- A posting leads both indices to the same report, or both to none, whatever it unfolds to. -/
theorem found?_asSample (gapless : m.Gapless length) (held : Holdable texts) {query : Text}
    {start : Nat} (fits : start + length ≤ query.size) (words : query.size ≤ Position.space)
    (hash : UInt32) (p : PostedRun) :
    (ofTexts m texts).found? query { start, pattern := 0, width := length } hash p.asSample =
      (RunIndex.ofTexts length texts).found? query start hash p := by
  have first : (0 : UInt8).toNat = 0 := rfl
  have one : 0 < m.patternCount := by rw [gapless.patternCount]; exact Nat.one_pos
  rw [found?, RunIndex.found?]
  simp only [PostedSample.decode, PostedRun.decode, PostedRun.asSample, texts_ofTexts,
    RunIndex.texts_ofTexts, model_ofTexts, List.getElem?_toArray, first, one, if_true]
  refine Option.bind_congr fun other lookup => ?_
  have otherWords := held.size_le_space (List.mem_of_getElem? lookup)
  rw [sharedSample?, gapless.widthOf]
  refine if_congr ?_ rfl rfl
  rw [RunIndex.agrees_iff]
  refine and_congr_right fun _ => and_congr_right fun inside => ?_
  rw [gapless.sampleOf_eq_run inside otherWords, gapless.sampleOf_eq_run fits words]

theorem reportsAt_eq_searchAt (gapless : m.Gapless length) (held : Holdable texts) {query : Text}
    {start : Nat} (fits : start + length ≤ query.size) (words : query.size ≤ Position.space) :
    (ofTexts m texts).reportsAt query { start, pattern := 0, width := length } =
      (RunIndex.ofTexts length texts).searchAt query start := by
  have unfolded (hash : UInt32) :
      (ofTexts m texts).found? query { start, pattern := 0, width := length } hash ∘
          PostedRun.asSample =
        (RunIndex.ofTexts length texts).found? query start hash :=
    funext (found?_asSample gapless held fits words hash)
  rw [reportsAt, model_ofTexts, sampleHash_eq gapless fits words, bin_eq gapless held,
    reportAscending_map, unfolded, RunIndex.searchAt_eq]
  rfl

theorem search_ofTexts_eq (gapless : m.Gapless length) (held : Holdable texts) {query : Text}
    (words : query.size ≤ Position.space) :
    (ofTexts m texts).search query = .ok ((RunIndex.ofTexts length texts).search query) := by
  rw [search_eq gapless.accepted, model_ofTexts, gapless.placements_eq, List.flatMap_map]
  congr 1
  refine List.flatMap_congr fun start member => ?_
  have fits := Window.fits_iff.mp (Text.mem_starts.mp member)
  exact reportsAt_eq_searchAt gapless held fits words

theorem add_eq_error_iff (accepted : m.Accepted) {t : Text} {fault : Fault} :
    (ofTexts m texts).add t = .error fault ↔ t.checkAddressable texts.length = .error fault := by
  by_cases taken : t.Addressable texts.length
  · rw [add_ofTexts accepted taken, Text.checkAddressable_of_addressable taken]
    simp only [reduceCtorEq]
  · obtain ⟨refused, check⟩ := Text.checkAddressable_of_not taken
    simp only [add, texts_ofTexts, List.size_toArray, check]
    show Except.error refused = _ ↔ _
    rw [Except.error.injEq, Except.error.injEq]

theorem mirrors_ofTexts (gapless : m.Gapless length) (held : Holdable texts) :
    (ofTexts m texts).Mirrors (RunIndex.ofTexts length texts) where
  texts := rfl
  postingCount := by
    simp only [postingCount, RunIndex.postingCount, ofTexts, RunIndex.ofTexts,
      PostingTable.size_pushAll, postings_eq gapless held, List.length_map]
    rfl
  search := fun _ words => search_ofTexts_eq gapless held words
  refused := fun t fault => by
    rw [add_eq_error_iff gapless.accepted, RunIndex.add_eq_error_iff]

/-- For every length that has a contiguous model, the index of runs and the index of the model's
samples stay in step: after any calls, and so after each of a sequence of calls, they hold the same
texts and as many postings, and report the same matches in the same order. -/
theorem mirrors_perform (made : Stencil.contiguous length = .ok m) (calls : List IndexCall) :
    ∃ runs, RunIndex.create length = .ok runs ∧
      (calls.foldl perform { model := m }).Mirrors (calls.foldl RunIndex.perform runs) := by
  have gapless := Stencil.gapless_of_contiguous made
  refine ⟨{ length }, if_neg (Nat.ne_of_gt gapless.length_pos), ?_⟩
  rw [perform_eq_ofTexts gapless.accepted, RunIndex.perform_eq_ofTexts]
  exact mirrors_ofTexts gapless (holdable_heldTexts calls)

/-- Calls that add texts, ask for one and forget all, of which neither index refuses any. -/
theorem mirrors_perform_after_clear :
    let m : Stencil := { size := 2, offsets := #[0, 1], widths := #[2], sorted := false }
    let query : Text := { id := "query", symbols := #[1, 2, 3] }
    let forgotten : Text := { id := "forgotten", symbols := #[1, 2] }
    let kept : Text := { id := "kept", symbols := #[2, 3, 1, 2] }
    let calls : List IndexCall := [.add forgotten, .search query, .clear, .add kept]
    Stencil.contiguous 2 = .ok m ∧
      ∃ runs, RunIndex.create 2 = .ok runs ∧
        (calls.foldl perform { model := m }).search query =
          .ok ((calls.foldl RunIndex.perform runs).search query) ∧
        (calls.foldl perform { model := m }).postingCount = 3 := by
  intro m query forgotten kept calls
  have made : Stencil.contiguous 2 = .ok m := by cbv
  obtain ⟨runs, created, mirrors⟩ := mirrors_perform made calls
  have three : (calls.foldl RunIndex.perform runs).postingCount = 3 := by
    cases created
    rfl
  exact ⟨made, runs, created, mirrors.search query (by decide), mirrors.postingCount.trans three⟩

end SampleIndex

end SharedRuns
