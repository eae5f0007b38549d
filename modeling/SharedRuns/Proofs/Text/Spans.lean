import Mathlib.Data.List.Chain
import SharedRuns.Proofs.Checked
import SharedRuns.Text.Session

/-!
# Two ways to give a text its spans

The spans of a text are given as a whole, or one after another to a builder. The checks differ: the
whole list is searched for each kind of flaw in turn, and its ends are sums of numbers, while the
builder only knows where the last span ended. Both accept the same spans, those that are in order
(`Span.InOrder`), and make the same text of them (`Text.ofSpans_iff_addAll`).
-/

namespace SharedRuns

namespace Span

/-- Each span covers a character and ends at an offset of 32 bits, and the next one starts where it
ends or later. -/
structure InOrder (spans : List Span) : Prop where
  nonempty : ∀ s ∈ spans, s.length ≠ 0
  representable : ∀ s ∈ spans, s.Representable
  apart : spans.IsChain fun s next => s.stop ≤ next.offset.toNat

theorem inOrder_nil : InOrder [] := ⟨nofun, nofun, .nil⟩

theorem inOrder_cons {s : Span} {rest : List Span} :
    InOrder (s :: rest) ↔ s.length ≠ 0 ∧ s.Representable ∧
      (∀ next ∈ rest.head?, s.stop ≤ next.offset.toNat) ∧ InOrder rest := by
  constructor
  · rintro ⟨nonempty, representable, apart⟩
    rw [List.forall_mem_cons] at nonempty representable
    rw [List.isChain_cons] at apart
    exact ⟨nonempty.1, representable.1, apart.1, nonempty.2, representable.2, apart.2⟩
  · rintro ⟨nonempty, representable, next, rest⟩
    exact ⟨List.forall_mem_cons.mpr ⟨nonempty, rest.nonempty⟩,
      List.forall_mem_cons.mpr ⟨representable, rest.representable⟩,
      List.isChain_cons.mpr ⟨next, rest.apart⟩⟩

theorem findOverlap_eq_none_iff {index : Nat} {spans : List Span} :
    findOverlap index spans = none ↔ spans.IsChain fun s next => s.stop ≤ next.offset.toNat := by
  fun_induction findOverlap index spans with
  | case1 index first next rest overlaps =>
      rw [List.isChain_cons_cons]
      exact iff_of_false nofun fun apart => absurd apart.1 (Nat.not_le.mpr overlaps)
  | case2 index first next rest apart ih =>
      rw [List.isChain_cons_cons, ih]
      exact ⟨fun chain => ⟨Nat.not_lt.mp apart, chain⟩, fun chain => chain.2⟩
  | case3 spans index short =>
      refine iff_of_true rfl ?_
      cases spans with
      | nil => exact .nil
      | cons s rest =>
          cases rest with
          | nil => exact .singleton s
          | cons next rest => exact absurd rfl (short s next rest)

theorem find?_overflow_eq_none_iff {spans : List Span} :
    (spans.zipIdx.find? fun s => ¬ s.1.Representable) = none ↔ ∀ s ∈ spans, s.Representable := by
  rw [List.find?_eq_none]
  constructor
  · intro none s member
    obtain ⟨i, there⟩ := List.getElem?_of_mem member
    simpa using none (s, i) (List.mk_mem_zipIdx_iff_getElem?.mpr there)
  · rintro all ⟨s, i⟩ member
    simpa using all s (List.fst_mem_of_mem_zipIdx member)

theorem findIdx?_empty_eq_none_iff {spans : Array Span} :
    spans.findIdx? (·.length = 0) = none ↔ ∀ s ∈ spans.toList, s.length ≠ 0 := by
  simp only [Array.findIdx?_eq_none_iff, decide_eq_false_iff_not, Array.mem_toList_iff, ne_eq]

theorem check_eq_ok_iff {size : Nat} {offsets : Array UInt32} {lengths : Array UInt8}
    {spans : Array Span} :
    check size offsets lengths = .ok spans ↔
      offsets.size = lengths.size ∧ (offsets.size = 0 ∨ offsets.size = size) ∧
        InOrder (offsets.zipWith Span.mk lengths).toList ∧
          offsets.zipWith Span.mk lengths = spans := by
  simp only [check]
  split
  · next unpaired => exact iff_of_false nofun fun ok => unpaired ok.1
  next paired =>
  split
  · next miscounted => exact iff_of_false nofun fun ok => by omega
  next counted =>
  split
  · next index found =>
      refine iff_of_false nofun fun ok => ?_
      rw [findIdx?_empty_eq_none_iff.mpr ok.2.2.1.nonempty] at found
      cases found
  next nonempty =>
  split
  · next s index found =>
      refine iff_of_false nofun fun ok => ?_
      rw [find?_overflow_eq_none_iff.mpr ok.2.2.1.representable] at found
      cases found
  next representable =>
  split
  · next flaw found =>
      refine iff_of_false nofun fun ok => ?_
      rw [findOverlap_eq_none_iff.mpr ok.2.2.1.apart] at found
      cases found
  next apart =>
  have inOrder : InOrder (offsets.zipWith Span.mk lengths).toList :=
    ⟨findIdx?_empty_eq_none_iff.mp nonempty, find?_overflow_eq_none_iff.mp representable,
      findOverlap_eq_none_iff.mp apart⟩
  rw [Except.ok.injEq]
  exact ⟨fun same => ⟨Decidable.not_not.mp paired, by omega, inOrder, same⟩, fun ok => ok.2.2.2⟩

end Span

namespace TextBuilder

variable {b b' : TextBuilder}

/-- Takes symbols one after another, each with its span. -/
def addAll (b : TextBuilder) (entries : List (Symbol × Span)) : Except SpanFlaw TextBuilder :=
  entries.foldlM (fun b entry => b.add entry.1 entry.2) b

/-- The builder after the symbols with their spans. -/
def extended (b : TextBuilder) (entries : List (Symbol × Span)) : TextBuilder where
  symbols := b.symbols ++ (entries.map Prod.fst).toArray
  spans := b.spans ++ (entries.map Prod.snd).toArray
  lastStop := (entries.map Prod.snd).getLast?.elim b.lastStop Span.stop

theorem add_eq_ok_iff {symbol : Symbol} {span : Span} :
    b.add symbol span = .ok b' ↔
      span.length ≠ 0 ∧ span.Representable ∧ b.lastStop ≤ span.offset.toNat ∧
        b.extended [(symbol, span)] = b' := by
  rw [add]
  split
  · simp_all
  · split
    · simp_all
    · split <;> simp_all [extended]

theorem extended_cons (b : TextBuilder) (entry : Symbol × Span) (rest : List (Symbol × Span)) :
    b.extended (entry :: rest) = (b.extended [entry]).extended rest := by
  simp only [extended, List.map_cons, List.map_nil, List.getLast?_cons, List.getLast?_nil]
  cases (rest.map Prod.snd).getLast? <;> simp

/-- Spans are taken if they are in order and start behind what the builder has taken before. -/
theorem addAll_eq_ok_iff {entries : List (Symbol × Span)} :
    b.addAll entries = .ok b' ↔
      (∀ next ∈ (entries.map Prod.snd).head?, b.lastStop ≤ next.offset.toNat) ∧
        Span.InOrder (entries.map Prod.snd) ∧ b.extended entries = b' := by
  induction entries generalizing b with
  | nil => simp [addAll, extended, Span.inOrder_nil]
  | cons entry rest ih =>
      rw [List.map_cons, Span.inOrder_cons, extended_cons]
      constructor
      · intro taken
        obtain ⟨next, first, others⟩ := Checked.exists_of_bind_ok taken
        obtain ⟨nonempty, representable, behind, rfl⟩ := add_eq_ok_iff.mp first
        obtain ⟨apart, inOrder, rfl⟩ := ih.mp others
        exact ⟨by simpa using behind, ⟨nonempty, representable, apart, inOrder⟩, rfl⟩
      · rintro ⟨behind, ⟨nonempty, representable, apart, inOrder⟩, rfl⟩
        have first : b.add entry.1 entry.2 = .ok (b.extended [entry]) :=
          add_eq_ok_iff.mpr ⟨nonempty, representable, by simpa using behind, rfl⟩
        rw [addAll, List.foldlM_cons, first]
        exact ih.mpr ⟨apart, inOrder, rfl⟩

theorem addAll_empty_eq_ok_iff {entries : List (Symbol × Span)} :
    empty.addAll entries = .ok b' ↔
      Span.InOrder (entries.map Prod.snd) ∧ empty.extended entries = b' := by
  rw [addAll_eq_ok_iff]
  exact and_iff_right fun _ _ => Nat.zero_le _

end TextBuilder

theorem Text.ofSpans_eq_ok_iff {id : String} {metadata : List UInt8} {symbols : Array Symbol}
    {offsets : Array UInt32} {lengths : Array UInt8} {t : Text}
    (pairs : offsets.size = lengths.size) (counted : offsets.size = symbols.size) :
    ofSpans id symbols offsets lengths metadata = .ok t ↔
      Span.InOrder (offsets.zipWith Span.mk lengths).toList ∧
        { id, symbols, spans := offsets.zipWith Span.mk lengths, metadata } = t := by
  constructor
  · intro made
    obtain ⟨spans, taken, same⟩ := Checked.exists_of_bind_ok made
    obtain ⟨-, -, inOrder, rfl⟩ := Span.check_eq_ok_iff.mp taken
    exact ⟨inOrder, Except.ok.inj same⟩
  · rintro ⟨inOrder, rfl⟩
    have taken := Span.check_eq_ok_iff.mpr ⟨pairs, .inr counted, inOrder, rfl⟩
    rw [ofSpans, taken]
    rfl

/-- Offsets and lengths that pair up can be read back from their spans. -/
theorem Span.columns_zipWith {offsets : Array UInt32} {lengths : Array UInt8}
    (pairs : offsets.size = lengths.size) :
    (offsets.zipWith Span.mk lengths).map Span.offset = offsets ∧
      (offsets.zipWith Span.mk lengths).map Span.length = lengths := by
  constructor
  · exact Array.ext (by simp [pairs]) (by simp)
  · exact Array.ext (by simp [pairs]) (by simp)

theorem TextBuilder.finishTagged_extended (id : String) (metadata : List UInt8)
    {symbols : Array Symbol} {spans : Array Span} (counted : symbols.size = spans.size) :
    (empty.extended (symbols.toList.zip spans.toList)).finishTagged id metadata =
      { id, symbols, spans, metadata } := by
  have firsts : (symbols.toList.zip spans.toList).map Prod.fst = symbols.toList :=
    List.map_fst_zip (by simp [counted])
  have seconds : (symbols.toList.zip spans.toList).map Prod.snd = spans.toList :=
    List.map_snd_zip (by simp [counted])
  simp [finishTagged, extended, empty, firsts, seconds]

/-- Given as a whole or one after another, the same spans are accepted, and of those that are
accepted the same text is made, which holds what was given. -/
theorem Text.ofSpans_iff_addAll (id : String) (metadata : List UInt8) (b : TextBuilder)
    (symbols : Array Symbol) (offsets : Array UInt32) (lengths : Array UInt8)
    (offsetsCount : offsets.size = symbols.size) (lengthsCount : lengths.size = symbols.size) :
    let spans := offsets.zipWith Span.mk lengths
    let whole := Text.ofSpans id symbols offsets lengths metadata
    let stepwise := b.reset.addAll (symbols.toList.zip spans.toList)
    ((∃ t, whole = .ok t) ↔ ∃ built, stepwise = .ok built) ∧
    ((∃ t, whole = .ok t) ↔ Span.InOrder spans.toList) ∧
    ∀ t built, whole = .ok t → stepwise = .ok built →
      built.finishTagged id metadata = t ∧ t.id = id ∧ t.symbols = symbols ∧
        t.spans.map Span.offset = offsets ∧ t.spans.map Span.length = lengths ∧
        t.metadata = metadata := by
  intro spans whole stepwise
  have pairs : offsets.size = lengths.size := offsetsCount.trans lengthsCount.symm
  have counted : symbols.size = spans.size := by simp [spans, offsetsCount, lengthsCount]
  have seconds : (symbols.toList.zip spans.toList).map Prod.snd = spans.toList :=
    List.map_snd_zip (by simp [counted])
  have made (t : Text) : whole = .ok t ↔ _ := Text.ofSpans_eq_ok_iff pairs offsetsCount
  have taken (built : TextBuilder) : stepwise = .ok built ↔ _ := TextBuilder.addAll_empty_eq_ok_iff
  rw [seconds] at taken
  refine ⟨?_, ?_, ?_⟩
  · simp only [made, taken, exists_and_left, exists_eq', and_true, spans]
  · simp only [made, exists_and_left, exists_eq', and_true, spans]
  · intro t built given added
    obtain ⟨-, rfl⟩ := (made t).mp given
    obtain ⟨-, rfl⟩ := (taken built).mp added
    obtain ⟨first, second⟩ := Span.columns_zipWith pairs
    exact ⟨TextBuilder.finishTagged_extended id metadata counted, rfl, rfl, first, second, rfl⟩

/-- Two spans that touch, the second of which ends at the last offset that a word can hold. -/
theorem Text.ofSpans_iff_addAll_of_touching :
    ∃ t built, Text.ofSpans "a" #[7, 8] #[4294967280, 4294967285] #[5, 10] [1] = .ok t ∧
      TextBuilder.empty.addAll [(7, ⟨4294967280, 5⟩), (8, ⟨4294967285, 10⟩)] = .ok built ∧
      built.finishTagged "a" [1] = t ∧ t.spans.map Span.offset = #[4294967280, 4294967285] := by
  have spans : (#[4294967280, 4294967285].zipWith Span.mk #[5, 10]).toList =
      [⟨4294967280, 5⟩, ⟨4294967285, 10⟩] := Array.toList_zipWith
  have inOrder : Span.InOrder [⟨4294967280, 5⟩, ⟨4294967285, 10⟩] :=
    ⟨by decide, by decide, by decide⟩
  obtain ⟨alike, accepted, same⟩ := Text.ofSpans_iff_addAll "a" [1] TextBuilder.empty #[7, 8]
    #[4294967280, 4294967285] #[5, 10] rfl rfl
  obtain ⟨t, whole⟩ := accepted.mpr (spans ▸ inOrder)
  obtain ⟨built, stepwise⟩ := alike.mp ⟨t, whole⟩
  obtain ⟨finished, -, -, offsets, -⟩ := same t built whole stepwise
  rw [spans] at stepwise
  exact ⟨t, built, whole, stepwise, finished, offsets⟩

end SharedRuns
