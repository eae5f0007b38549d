import SharedRuns.Proofs.Interleaving.Bounds
import SharedRuns.Proofs.Shard.Sampling
import SharedRuns.Proofs.Stencil.Width

/-!
# Samples are taken where their patterns fit

The width of a pattern is stored beside its offsets and exceeds each of them, in whatever order they
are. So a sample reads symbols that are there where the width fits, and at a start where it does not
fit there is no sample to be had (`Stencil.ReadsInside`). The engines test the width first:

* an index samples its texts and its queries at their placements, and a candidate only after its
  start and its pattern, which a posting of another fingerprint may decode to anything, were tested
  against the text that it names (`SampleIndex.SamplesInside`);
* a sharded engine tests a pattern against the text that a position belongs to, and samples the
  layout there, in which the text lies as a whole (`ShardEngine.SamplesInside`). The links that it
  follows are those of such positions.

`Engines.samples_inside` puts this together. It asks nothing of the postings in an index, of what a
sharded engine was used for, of the number of its workers or of the order in which they act.
-/

namespace SharedRuns

open Checked

namespace Stencil

/-- A model that was accepted: made from offsets, of one pattern without gaps, or of all patterns in
a window. -/
inductive Made : Stencil → Prop
  | ofOffsets {m : Stencil} {size : Nat} {offsets : Array UInt32} {sorted : Bool}
      (made : Stencil.ofOffsets size offsets sorted = .ok m) : Made m
  | contiguous {m : Stencil} {length : Nat} (made : Stencil.contiguous length = .ok m) : Made m
  | gapped {m : Stencil} {size width : Nat} {sorted : Bool}
      (made : Stencil.gapped size width sorted = .ok m) : Made m

/-- What a pattern of the model reads at a start of a list of symbols. -/
structure ReadsInside (m : Stencil) (k : Nat) (symbols : Array Symbol) (start : Nat) : Prop where
  /-- Where the width fits, the symbols at all offsets are there, and no sum wraps around. -/
  fits : ∃ width offsets, m.width? k = some width ∧ m.pattern? k = some offsets ∧
    (Window.fits start width symbols.size = true →
      (∀ offset ∈ offsets, start + offset.toNat < symbols.size ∧
        Position.add start offset.toNat < symbols.size) ∧
      ∃ sample, m.sample? symbols start k = some sample)
  /-- Where it does not fit, one of the symbols is missing. -/
  misses : ∀ width, m.width? k = some width → Window.fits start width symbols.size = false →
    start + Position.wordLimit ≤ Position.space → m.sample? symbols start k = none

variable {m : Stencil}

theorem Made.accepted (made : m.Made) : m.Accepted := by
  cases made with
  | ofOffsets made => exact accepted_of_ofOffsets made
  | contiguous made => exact accepted_of_ofOffsets made
  | gapped made =>
      obtain ⟨_, _, made⟩ := ofOffsets_of_gapped made
      exact accepted_of_ofOffsets made

theorem Accepted.readsInside (accepted : m.Accepted) {k : Nat} (inside : k < m.patternCount)
    (symbols : Array Symbol) (start : Nat) : m.ReadsInside k symbols start where
  fits := by
    refine ⟨m.widthOf k, _, by rw [width?_eq accepted, if_pos inside],
      pattern?_eq accepted inside, fun fits => ⟨fun offset member => ?_, ?_⟩⟩
    · have low : offset.toNat < m.widthOf k :=
        toNat_lt_patternWidth (List.mem_toArray.mp member)
      have there : start + offset.toNat < symbols.size := by
        have := Window.fits_iff.mp fits
        omega
      exact ⟨there, Nat.lt_of_le_of_lt (Nat.mod_le _ _) there⟩
    · exact ⟨_, sample?_of_fits accepted inside (Window.fits_iff.mp fits)⟩
  misses width known outside below := by
    rw [width?_eq accepted, if_pos inside] at known
    obtain rfl := Option.some.inj known
    rw [sample?_eq accepted inside, Option.map_eq_none_iff, Option.eq_none_iff_forall_ne_some]
    intro xs found
    have fits := Window.fits_iff.mpr (fits_of_read? accepted inside below found)
    rw [outside] at fits
    cases fits

end Stencil

/-- An index takes samples where patterns fit, and its calls do not fault. -/
structure SampleIndex.SamplesInside (ix : SampleIndex) : Prop where
  /-- A text that is added or searched for is sampled where a pattern fits. -/
  placed : ∀ t : Text, ∀ place ∈ ix.model.placements t.size,
    ix.model.width? place.pattern = some place.width ∧
      Window.fits place.start place.width t.size = true ∧
      ∃ sample, ix.sampleAt t place.start place.pattern = .ok sample ∧
        binNumber (Fingerprint.ofRun sample) < binCount
  /-- A candidate that names no pattern, or one that does not fit, is passed over. -/
  guarded : ∀ query place sample other start k,
    (∀ width, ix.model.width? k = some width → Window.fits start width other.size = false) →
      ix.candidate? query place sample other start k = .ok none
  added : ∀ t, (∃ filled, ix.add t = .ok filled) ∨
    ∃ fault, t.checkAddressable ix.texts.size = .error fault ∧ ix.add t = .error fault
  searched : ∀ query, ∃ found, ix.search query = .ok found

theorem SampleIndex.samplesInside {ix : SampleIndex} (accepted : ix.model.Accepted) :
    ix.SamplesInside where
  placed t place member := by
    obtain ⟨inside, width, fits⟩ := (Stencil.mem_placements accepted).mp member
    refine ⟨?_, Window.fits_iff.mpr fits, _, sampleAt_of_fits accepted inside (width ▸ fits),
      binNumber_lt _⟩
    rw [Stencil.width?_eq accepted, if_pos inside, width]
  guarded query place sample other start k outside := by
    rw [candidate?]
    cases known : ix.model.width? k with
    | none => rfl
    | some width => exact if_pos (.inr (by simp [outside width known]))
  added t := by
    cases checked : t.checkAddressable ix.texts.size with
    | error fault => exact .inr ⟨fault, rfl, by rw [add, checked]; rfl⟩
    | ok => exact .inl ⟨_, by rw [add, checked, ok_bind, foldlM_file accepted, ok_bind]; rfl⟩
  searched query := ⟨_, search_eq accepted query⟩

/-- The jobs at a position of the layout are taken from patterns that fit there, in the text that
the position belongs to and so in the layout, and the arena has their bins and cells. -/
def ShardPlan.LinksInside (p : ShardPlan) (arena : Arena) (pos : Nat) : Prop :=
  ∃ jobs, p.jobsAt pos = .ok jobs ∧ ∀ job ∈ jobs, arena.Admits job ∧
    ∃ k t place width, p.Placed pos k t place ∧ p.jobOf pos k = .ok job ∧
      p.model.width? k = some width ∧ Window.fits pos width p.layout.mixed.size = true

/-- A search takes samples where patterns fit, and keeps to its arena. -/
structure ShardEngine.SamplesInside (engine : ShardEngine) (texts : List Text) (m : Stencil) :
    Prop where
  /-- Workers that take turns are stopped by their visitor only. -/
  stopped : ∀ {σ : Type} (visit : Visitor σ) (out : σ) (fault : Fault),
    (engine.search texts m visit out).result = .error fault →
      checkCorpus texts m = .error fault ∨ ∃ worker payload,
        ShardPlan.Raises visit payload ∧ fault = .workerStopped .reading worker payload.message
  linked : checkCorpus texts m = .ok () →
    let laidOut := engine.layOut texts m
    ∀ pos < laidOut.layout.size, (laidOut.plan texts m).LinksInside laidOut.arena pos
  /-- Workers that interleave are stopped by nothing. -/
  interleaved : checkCorpus texts m = .ok () →
    let laidOut := engine.layOut texts m
    ∀ workers, Interleaving.KeepsInside (laidOut.plan texts m) laidOut.arena workers

theorem ShardPlan.Serves.linksInside {p : ShardPlan} {texts : List Text} {arena : Arena}
    (serves : p.Serves texts) (tied : p.Tied texts arena) {pos : Nat}
    (inLayout : pos < p.layout.size) : p.LinksInside arena pos := by
  rw [serves.size_layout, ← length_spots 0] at inLayout
  obtain ⟨⟨t, place⟩, spot⟩ : ∃ s, (spots 0 texts)[pos]? = some s :=
    ⟨_, List.getElem?_eq_getElem inLayout⟩
  refine ⟨_, serves.jobsAt_eq spot, fun job member => ?_⟩
  obtain ⟨x, here, rfl⟩ := List.mem_map.mp member
  obtain ⟨rfl, rfl, rfl, inside, fits⟩ := mem_postingsAt.mp here
  have inCorpus : x ∈ postings p.model texts := mem_postings.mpr ⟨spot, inside, fits⟩
  have width : p.model.width? x.pattern = some (p.model.widthOf x.pattern) := by
    rw [Stencil.width?_eq serves.accepted, if_pos inside]
  refine ⟨tied.elim fun _ holds => serves.admits holds (List.mem_map_of_mem inCorpus),
    x.pattern, x.text, x.place, _, ⟨?_, ?_, _, width, Window.fits_iff.mpr fits⟩,
    serves.jobOf_eq inCorpus, width, Window.fits_iff.mpr (serves.sampleOf_mixed inCorpus).1⟩
  · rw [serves.layout_eq]
    exact within_eq_ok.mp (fetch_places spot)
  · rw [serves.texts_eq]
    exact within_eq_ok.mp (fetch_text spot)

theorem ShardEngine.Ready.samplesInside {settings : ShardSettings} {engine : ShardEngine}
    (ready : Ready settings engine) {m : Stencil} (accepted : m.Accepted) (texts : List Text) :
    engine.SamplesInside texts m := by
  obtain ⟨settings', phase, layout, arena, cursor⟩ := engine
  have heads : arena.heads.size = binCount := ready.heads
  have serves (taken : checkCorpus texts m = .ok ()) : (planFor settings' texts m).Serves texts :=
    ⟨rfl, rfl, accepted, numbered_of_checkCorpus taken⟩
  refine ⟨fun visit out fault => stopped_of_search ready accepted, fun taken => ?_,
    fun taken => ?_⟩
  · exact fun pos inLayout => (serves taken).linksInside (ShardPlan.tied_prepare heads) inLayout
  · exact Interleaving.keepsInside (serves taken) (ShardPlan.tied_prepare heads)

/-- Under a model that was accepted, every sample is taken where its pattern fits: whatever is filed
in an index, whatever a sharded engine was used for, and for every text, query and corpus. -/
theorem Engines.samples_inside {m : Stencil} (made : m.Made) :
    (∀ k < m.patternCount, ∀ symbols start, m.ReadsInside k symbols start) ∧
    (∀ ix : SampleIndex, ix.model = m → ix.SamplesInside) ∧
    ∀ settings engine, ShardEngine.Reachable settings engine →
      ∀ texts, engine.SamplesInside texts m := by
  have accepted := made.accepted
  refine ⟨fun k => accepted.readsInside, fun ix same => ?_, fun settings engine reached texts => ?_⟩
  · subst same
    exact SampleIndex.samplesInside accepted
  · exact reached.ready.samplesInside accepted texts

/-- The offsets of the first pattern descend, and its width is that of the first one of them: it
does not fit into a text of two symbols. A posting that leads to a start far behind the text is
passed over. -/
theorem Engines.samples_inside_of_descending_offsets :
    let m : Stencil := { size := 2, offsets := #[3, 0, 0, 1], widths := #[4, 2], sorted := true }
    let t : Text := { id := "first", symbols := #[7, 9] }
    let u : Text := { id := "second", symbols := #[9, 7] }
    let hash := Fingerprint.ofRun [7, 9]
    let stray : PostedSample := .encode 0 0xffffffff 1 hash
    let ix : SampleIndex :=
      { model := m, table := PostingTable.empty.push hash stray, texts := #[t] }
    let settings : ShardSettings := { workers := 2, chunkSize := 1, maxChain := 3 }
    let engine : ShardEngine := { settings }
    let laidOut := engine.layOut [t, u] m
    m.Made ∧ m.sample? t.symbols 0 0 = none ∧ (∃ sample, m.sample? t.symbols 0 1 = some sample) ∧
      stray.decode hash = (0, 0xffffffff, 1) ∧ (∃ found, ix.search u = .ok found) ∧
      ShardEngine.Reachable settings engine ∧ ShardEngine.checkCorpus [t, u] m = .ok () ∧
      Interleaving.KeepsInside (laidOut.plan [t, u] m) laidOut.arena 2 := by
  intro m t u hash stray ix settings engine laidOut
  have accepted : Stencil.ofOffsets 2 #[3, 0, 0, 1] true = .ok m := by decide
  have created : ShardEngine.Reachable settings engine := .created rfl
  have taken : ShardEngine.checkCorpus [t, u] m = .ok () := rfl
  obtain ⟨reads, indices, sharded⟩ := Engines.samples_inside (.ofOffsets accepted)
  obtain ⟨width, offsets, known, -, fits⟩ := (reads 1 (by decide) t.symbols 0).fits
  obtain rfl : 2 = width := Option.some.inj known
  exact ⟨.ofOffsets accepted, (reads 0 (by decide) t.symbols 0).misses 4 rfl rfl (by decide),
    (fits rfl).2, by cbv, (indices ix rfl).searched u, created, taken,
    (sharded settings engine created [t, u]).interleaved taken 2⟩

end SharedRuns
