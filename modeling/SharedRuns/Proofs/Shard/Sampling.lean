import SharedRuns.Proofs.Index.Samples
import SharedRuns.Proofs.Shard.Engine

/-!
# Samples of a layout and samples of a text

The linking phase samples the layout, in which the texts stand one after another with their symbols
mixed. Where a pattern fits inside a text, such a sample reads that text only, and what it gives are
the text's own symbols, mixed (`ShardEngine.layout_samples_texts`). A sorted model puts the mixed
symbols in order, which is another order than that of the symbols. Equal samples still have the same
mixed symbols, so that they share a bin; in a model that sorts nothing, it is the bin under which a
sample index files the sample.
-/

namespace SharedRuns

open Checked
open Stencil (Placement)

/-- Position `pos` of the layout belongs to the text `t`, at `place`, and pattern `k` fits there. -/
structure ShardPlan.Placed (p : ShardPlan) (pos k : Nat) (t : Text) (place : Place) : Prop where
  place_eq : p.layout.places[pos]? = some place
  text_eq : p.texts[place.text]? = some t
  fits : ∃ width, p.model.width? k = some width ∧ Window.fits place.offset width t.size = true

namespace ShardPlan

variable {p : ShardPlan} {texts : List Text} {pos k : Nat} {t : Text} {place : Place}

/-- Where a pattern fits at a position, there is a posting of the corpus. -/
theorem Placed.mem_postings (placed : p.Placed pos k t place) (serves : p.Serves texts) :
    { text := t, place, position := pos, pattern := k } ∈ postings p.model texts := by
  obtain ⟨atPlace, atText, width, known, fits⟩ := placed
  rw [serves.layout_eq] at atPlace
  obtain ⟨u, spot⟩ := exists_spot_of_fetch (within_eq_ok.mpr atPlace)
  have lookup := fetch_text spot
  rw [← serves.texts_eq, fetch, within_eq_ok, atText] at lookup
  obtain rfl := Option.some.inj lookup
  rw [Stencil.width?_eq serves.accepted, Option.ite_none_right_eq_some] at known
  obtain ⟨inside, same⟩ := known
  obtain rfl := Option.some.inj same
  exact SharedRuns.mem_postings.mpr ⟨spot, inside, Window.fits_iff.mp fits⟩

namespace Serves

variable {x : CorpusPosting} {offset : UInt32}

end Serves

end ShardPlan

namespace ShardEngine

end ShardEngine

end SharedRuns
