import Mathlib.Order.Bounds.Basic
import SharedRuns.Proofs.Text.Spans

/-!
# Why spans are refused

Offsets and lengths are accepted if they give one span for each symbol, in order, or no spans at all
(`Span.ValidFor`). If they are refused, the flaw that is reported is a true statement about them: of
several violations the first kind in the order of the checks, and of that kind the one at the
smallest index (`Span.Refused`).
-/

namespace SharedRuns

namespace Span

variable {size : Nat} {offsets : List UInt32} {lengths : List UInt8} {spans : List Span}

/-- The numbers of offsets, lengths and symbols fit together. -/
structure Counted (size : Nat) (offsets : List UInt32) (lengths : List UInt8) : Prop where
  paired : offsets.length = lengths.length
  complete : offsets = [] ∨ offsets.length = size

/-- Offsets and lengths give spans for `size` symbols, or no spans. -/
structure ValidFor (size : Nat) (offsets : List UInt32) (lengths : List UInt8) : Prop
    extends Counted size offsets lengths where
  inOrder : InOrder (offsets.zipWith Span.mk lengths)

/-- Span `i` covers no character. -/
def EmptyAt (spans : List Span) (i : Nat) : Prop := ∃ s, spans[i]? = some s ∧ s.length = 0

/-- Span `i` ends beyond the offsets of 32 bits. -/
def OverflowAt (spans : List Span) (i : Nat) : Prop :=
  ∃ s, spans[i]? = some s ∧ ¬ s.Representable

/-- Span `i + 1` starts before span `i` ends. -/
def OverlapAt (spans : List Span) (i : Nat) : Prop :=
  ∃ s next, spans[i]? = some s ∧ spans[i + 1]? = some next ∧ next.offset.toNat < s.stop

/-- The flaw for which offsets and lengths are refused as spans for `size` symbols. -/
inductive Refused (size : Nat) (offsets : List UInt32) (lengths : List UInt8) : SpanFlaw → Prop
  | unpaired : offsets.length ≠ lengths.length →
    Refused size offsets lengths (.unpaired offsets.length lengths.length)
  | miscounted : offsets.length = lengths.length → offsets ≠ [] → offsets.length ≠ size →
    Refused size offsets lengths (.miscounted offsets.length size)
  | empty {index : Nat} : Counted size offsets lengths →
    IsLeast {i | EmptyAt (offsets.zipWith Span.mk lengths) i} index →
    Refused size offsets lengths (.empty index)
  | overflow {index : Nat} {s : Span} : Counted size offsets lengths →
    (∀ i, ¬ EmptyAt (offsets.zipWith Span.mk lengths) i) →
    IsLeast {i | OverflowAt (offsets.zipWith Span.mk lengths) i} index →
    (offsets.zipWith Span.mk lengths)[index]? = some s →
    Refused size offsets lengths (.overflow index s.offset)
  | overlap {index : Nat} {s next : Span} : Counted size offsets lengths →
    (∀ i, ¬ EmptyAt (offsets.zipWith Span.mk lengths) i) →
    (∀ i, ¬ OverflowAt (offsets.zipWith Span.mk lengths) i) →
    IsLeast {i | OverlapAt (offsets.zipWith Span.mk lengths) i} index →
    (offsets.zipWith Span.mk lengths)[index]? = some s →
    (offsets.zipWith Span.mk lengths)[index + 1]? = some next →
    Refused size offsets lengths (.overlap index s.stop next.offset)

theorem isLeast_of_findIdx? {p : Span → Prop} [DecidablePred p] {index : Nat}
    (found : spans.findIdx? (fun s => p s) = some index) :
    IsLeast {i | ∃ s, spans[i]? = some s ∧ p s} index := by
  obtain ⟨inside, holds, first⟩ := List.findIdx?_eq_some_iff_getElem.mp found
  refine ⟨⟨spans[index], List.getElem?_eq_getElem inside, of_decide_eq_true holds⟩, ?_⟩
  rintro i ⟨s, there, holds⟩
  refine Nat.le_of_not_lt fun before => first i before ?_
  obtain ⟨_, rfl⟩ := List.getElem?_eq_some_iff.mp there
  exact decide_eq_true holds

theorem overflowAt_of_find? {s : Span} {index : Nat}
    (found : spans.zipIdx.find? (fun s => ¬ s.1.Representable) = some (s, index)) :
    IsLeast {i | OverflowAt spans i} index ∧ spans[index]? = some s := by
  have there := List.mk_mem_zipIdx_iff_getElem?.mp (List.mem_of_find?_eq_some found)
  refine ⟨isLeast_of_findIdx? ?_, there⟩
  rw [List.findIdx?_eq_fst_find?_zipIdx]
  exact congrArg (Option.map Prod.snd) found

/-- An overlap is searched for with the first span numbered `start`. -/
theorem overlapAt_of_findOverlap {start : Nat} {flaw : SpanFlaw}
    (found : findOverlap start spans = some flaw) :
    ∃ index s next, IsLeast {i | OverlapAt spans i} index ∧ spans[index]? = some s ∧
      spans[index + 1]? = some next ∧ flaw = .overlap (start + index) s.stop next.offset := by
  fun_induction findOverlap start spans with
  | case1 start first next rest overlaps =>
      cases found
      exact ⟨0, first, next, ⟨⟨first, next, rfl, rfl, overlaps⟩, fun _ _ => Nat.zero_le _⟩,
        rfl, rfl, rfl⟩
  | case2 start first next rest apart ih =>
      obtain ⟨index, s, other, ⟨overlaps, least⟩, here, behind, rfl⟩ := ih found
      refine ⟨index + 1, s, other, ⟨overlaps, ?_⟩, here, behind, ?_⟩
      · rintro i ⟨t, after, inFront, follows, early⟩
        cases i with
        | zero =>
            cases inFront
            cases follows
            exact absurd early apart
        | succ i => exact Nat.succ_le_succ (least ⟨t, after, inFront, follows, early⟩)
      · rw [Nat.add_assoc, Nat.add_comm 1]
  | case3 => cases found

theorem not_emptyAt_of_findIdx? (none : spans.findIdx? (fun s => s.length = 0) = none) (i : Nat) :
    ¬ EmptyAt spans i := by
  rintro ⟨s, there, empty⟩
  simpa [empty] using List.findIdx?_eq_none_iff.mp none s (List.mem_of_getElem? there)

theorem not_overflowAt_of_find?
    (none : (spans.zipIdx.find? fun s => ¬ s.1.Representable) = none) (i : Nat) :
    ¬ OverflowAt spans i := by
  rintro ⟨s, there, beyond⟩
  exact beyond (find?_overflow_eq_none_iff.mp none s (List.mem_of_getElem? there))

theorem check_toArray_eq_ok_iff {checked : Array Span} :
    check size offsets.toArray lengths.toArray = .ok checked ↔
      ValidFor size offsets lengths ∧ (offsets.zipWith Span.mk lengths).toArray = checked := by
  rw [check_eq_ok_iff]
  constructor
  · rintro ⟨paired, complete, inOrder, rfl⟩
    refine ⟨⟨⟨paired, ?_⟩, by simpa using inOrder⟩, by simp⟩
    simpa using complete
  · rintro ⟨⟨⟨paired, complete⟩, inOrder⟩, rfl⟩
    exact ⟨paired, by simpa using complete, by simpa using inOrder, by simp⟩

theorem validFor_nil : ValidFor size [] [] := ⟨⟨rfl, .inl rfl⟩, inOrder_nil⟩

theorem refused_of_check {flaw : SpanFlaw}
    (checked : check size offsets.toArray lengths.toArray = .error flaw) :
    Refused size offsets lengths flaw := by
  simp only [check, List.zipWith_toArray, List.findIdx?_toArray, List.size_toArray] at checked
  split at checked
  · next unpaired =>
      cases checked
      exact .unpaired unpaired
  next paired =>
  split at checked
  · next miscounted =>
      cases checked
      exact .miscounted (Decidable.not_not.mp paired) (by simpa using miscounted.1) miscounted.2
  next counted =>
  have counted : Counted size offsets lengths := by
    refine ⟨Decidable.not_not.mp paired, ?_⟩
    rw [not_and_or, Decidable.not_not, Decidable.not_not] at counted
    simpa using counted
  split at checked
  · next index found =>
      cases checked
      exact .empty counted (isLeast_of_findIdx? found)
  next nonempty =>
  have nonempty := not_emptyAt_of_findIdx? nonempty
  split at checked
  · next s index found =>
      cases checked
      obtain ⟨least, there⟩ := overflowAt_of_find? found
      exact .overflow counted nonempty least there
  next representable =>
  have representable := not_overflowAt_of_find? representable
  split at checked
  · next flaw found =>
      cases checked
      obtain ⟨index, s, next, least, there, behind, rfl⟩ := overlapAt_of_findOverlap found
      rw [Nat.zero_add]
      exact .overlap counted nonempty representable least there behind
  · cases checked

end Span

namespace Text

variable {id : String} {symbols : List Symbol} {offsets : List UInt32} {lengths : List UInt8}
  {metadata : List UInt8}

theorem ofSpans_of_validFor (valid : Span.ValidFor symbols.length offsets lengths) :
    ofSpans id symbols.toArray offsets.toArray lengths.toArray metadata =
      .ok { id, symbols := symbols.toArray
            spans := (offsets.zipWith Span.mk lengths).toArray, metadata } := by
  have checked := Span.check_toArray_eq_ok_iff.mpr ⟨valid, rfl⟩
  rw [ofSpans, List.size_toArray, checked]
  rfl

theorem exists_refused_of_not_validFor
    (invalid : ¬ Span.ValidFor symbols.length offsets lengths) :
    ∃ flaw, ofSpans id symbols.toArray offsets.toArray lengths.toArray metadata = .error flaw ∧
      Span.Refused symbols.length offsets lengths flaw := by
  rw [ofSpans, List.size_toArray]
  cases checked : Span.check symbols.length offsets.toArray lengths.toArray with
  | ok spans => exact absurd (Span.check_toArray_eq_ok_iff.mp checked).1 invalid
  | error flaw => exact ⟨flaw, rfl, Span.refused_of_check checked⟩

end Text

end SharedRuns
