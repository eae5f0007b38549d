import SharedRuns.Proofs.Corpus
import SharedRuns.Proofs.Text.Spans
import SharedRuns.Text.Session

/-!
# What a builder holds after many calls

A builder is filled, reset and asked for texts in any order. What it holds are the symbols that it
took since the last reset, and a text finished then has these symbols with their spans. Which
symbols were taken is read off the answers (`takenSince`), without a builder. A refused symbol
leaves no trace.

Wherever a text comes from, from a builder, from lists of spans or from a corpus file, its spans
can be read without overflow and do not overlap (`TextBuilder.session_finishes_taken`).
-/

namespace SharedRuns

/-- The text of symbols with their spans. -/
def Text.ofEntries (id : String) (entries : List (Symbol × Span)) (metadata : List UInt8) :
    Text where
  id := id
  symbols := (entries.map Prod.fst).toArray
  spans := (entries.map Prod.snd).toArray
  metadata := metadata

/-- The symbols held after a call, with their spans, by the answer to the call. -/
def BuilderCall.hold (held : List (Symbol × Span)) :
    BuilderCall → BuilderAnswer → List (Symbol × Span)
  | .add symbol span, .taken => held ++ [(symbol, span)]
  | .reset, _ => []
  | _, _ => held

/-- The symbols taken since the last reset, by the answers to the calls. -/
def takenSince (calls : List BuilderCall) (answers : List BuilderAnswer) : List (Symbol × Span) :=
  (calls.zip answers).foldl (fun held exchange => exchange.1.hold held exchange.2) []

namespace TextBuilder

/-- The answers to calls one after another. -/
def answers (b : TextBuilder) : List BuilderCall → List BuilderAnswer
  | [] => []
  | call :: rest => (b.perform call).1 :: answers (b.perform call).2 rest

/-- The builder after calls one after another. -/
def after (b : TextBuilder) (calls : List BuilderCall) : TextBuilder :=
  calls.foldl (fun b call => (b.perform call).2) b

variable {b : TextBuilder} {held : List (Symbol × Span)} {symbol : Symbol} {span : Span}

theorem addAll_concat (entry : Symbol × Span) :
    b.addAll (held ++ [entry]) = b.addAll held >>= fun b => b.add entry.1 entry.2 := by
  simp only [addAll, List.foldlM_append, List.foldlM_cons, List.foldlM_nil, bind_pure]

/-- What is held can be given to an empty builder again, and this stays so with each call. -/
theorem addAll_hold (kept : empty.addAll held = .ok b) (call : BuilderCall) :
    empty.addAll (call.hold held (b.perform call).1) = .ok (b.perform call).2 := by
  cases call with
  | add symbol span =>
      rw [perform_add]
      cases made : b.add symbol span with
      | ok extended =>
          change empty.addAll (held ++ [(symbol, span)]) = .ok extended
          rw [addAll_concat, kept, Checked.ok_bind, made]
      | error flaw => exact kept
  | reset => rfl
  | size | finish | finishTagged | finishUnnamed => exact kept

theorem addAll_foldl_hold (kept : empty.addAll held = .ok b) (calls : List BuilderCall) :
    empty.addAll ((calls.zip (b.answers calls)).foldl
      (fun held exchange => exchange.1.hold held exchange.2) held) = .ok (b.after calls) := by
  induction calls generalizing b held with
  | nil => exact kept
  | cons call rest ih => exact ih (addAll_hold kept call)

/-- After any calls a builder is the one that took what was taken since the last reset. -/
theorem addAll_takenSince (calls : List BuilderCall) :
    empty.addAll (takenSince calls (empty.answers calls)) = .ok (empty.after calls) :=
  addAll_foldl_hold rfl calls

theorem finishTagged_of_addAll (kept : empty.addAll held = .ok b) (id : String)
    (metadata : List UInt8) : b.finishTagged id metadata = .ofEntries id held metadata := by
  obtain ⟨-, rfl⟩ := addAll_empty_eq_ok_iff.mp kept
  simp [finishTagged, extended, empty, Text.ofEntries]

/-- A symbol is taken if the spans stay in order with it. -/
theorem perform_add_eq_taken_iff (kept : empty.addAll held = .ok b) :
    (b.perform (.add symbol span)).1 = .taken ↔
      Span.InOrder ((held ++ [(symbol, span)]).map Prod.snd) := by
  have again : empty.addAll (held ++ [(symbol, span)]) = b.add symbol span := by
    rw [addAll_concat, kept, Checked.ok_bind]
  rw [perform_add]
  constructor
  · intro taken
    cases made : b.add symbol span with
    | ok extended => exact (addAll_empty_eq_ok_iff.mp (again.trans made)).1
    | error flaw =>
        rw [made] at taken
        cases taken
  · intro inOrder
    have made := addAll_empty_eq_ok_iff.mpr ⟨inOrder, rfl⟩
    rw [again] at made
    rw [made]

/-- A symbol that is refused leaves the builder as it was. -/
theorem perform_add_of_refused {flaw : SpanFlaw}
    (refused : (b.perform (.add symbol span)).1 = .refused flaw) :
    b.perform (.add symbol span) = (.refused flaw, b) := by
  rw [perform_add] at refused ⊢
  cases made : b.add symbol span with
  | ok extended =>
      rw [made] at refused
      cases refused
  | error other =>
      rw [made] at refused
      cases refused
      rfl

/-- Whatever text a call is answered with, it was finished. -/
theorem exists_finishTagged_of_perform {call : BuilderCall} {t : Text}
    (answered : (b.perform call).1 = .text t) :
    ∃ id metadata, b.finishTagged id metadata = t := by
  cases call with
  | add symbol span =>
      rw [perform_add] at answered
      cases made : b.add symbol span <;> rw [made] at answered <;> cases answered
  | size => cases answered
  | reset => cases answered
  | finish id => exact ⟨_, _, BuilderAnswer.text.inj answered⟩
  | finishTagged id metadata => exact ⟨_, _, BuilderAnswer.text.inj answered⟩
  | finishUnnamed => exact ⟨_, _, BuilderAnswer.text.inj answered⟩

theorem answers_append (calls later : List BuilderCall) :
    b.answers (calls ++ later) = b.answers calls ++ (b.after calls).answers later := by
  induction calls generalizing b with
  | nil => rfl
  | cons call rest ih => exact congrArg _ ih

end TextBuilder

theorem Span.toNat_endChar {s : Span} (representable : s.Representable) :
    s.endChar.toNat = s.stop := by
  rw [endChar, UInt32.toNat_add, UInt8.toNat_toUInt32]
  exact Nat.mod_eq_of_lt representable

namespace Text

variable {t : Text}

/-- Each symbol has a span that can be read: it covers a character, its end is an offset of 32 bits,
and the next symbol starts there or later. -/
structure WellSpanned (t : Text) : Prop where
  covered : ∀ i < t.size, ∃ first length stop,
    t.firstChar? i = some first ∧ t.length? i = some length ∧ t.endChar? i = some stop ∧
      0 < length.toNat ∧ first.toNat + length.toNat < UInt32.size ∧
      stop.toNat = first.toNat + length.toNat
  ascending : ∀ i, i + 1 < t.size → ∃ stop next,
    t.endChar? i = some stop ∧ t.firstChar? (i + 1) = some next ∧ stop ≤ next

/-- Spans in order, one for each symbol, can be read. -/
theorem wellSpanned_of_inOrder (counted : t.spans.size = t.size)
    (inOrder : Span.InOrder t.spans.toList) : t.WellSpanned where
  covered i inside := by
    rw [← counted] at inside
    have member : t.spans[i] ∈ t.spans.toList := Array.mem_toList_iff.mpr (Array.getElem_mem inside)
    have there : t.spans[i]? = some t.spans[i] := Array.getElem?_eq_getElem inside
    have representable := inOrder.representable _ member
    refine ⟨_, _, _, congrArg _ there, congrArg _ there, congrArg _ there, ?_, representable,
      Span.toNat_endChar representable⟩
    apply Nat.pos_of_ne_zero
    exact fun zero => inOrder.nonempty _ member (UInt8.toNat_inj.mp zero)
  ascending i inside := by
    rw [← counted] at inside
    have here : t.spans[i]? = some t.spans[i] := Array.getElem?_eq_getElem (by omega)
    have next : t.spans[i + 1]? = some t.spans[i + 1] := Array.getElem?_eq_getElem inside
    refine ⟨_, _, congrArg _ here, congrArg _ next, ?_⟩
    have member : t.spans[i] ∈ t.spans.toList := Array.mem_toList_iff.mpr (Array.getElem_mem _)
    rw [UInt32.le_iff_toNat_le, Span.toNat_endChar (inOrder.representable _ member)]
    exact List.isChain_iff_getElem.mp inOrder.apart i (by simpa using inside)

/-- The spans of a text that was made of lists of spans are in order, one for each symbol if there
are any. -/
theorem inOrder_of_ofSpans {id : String} {symbols : Array Symbol} {offsets : Array UInt32}
    {lengths : Array UInt8} {metadata : List UInt8}
    (made : ofSpans id symbols offsets lengths metadata = .ok t) :
    Span.InOrder t.spans.toList ∧ (t.hasSpans = true → t.spans.size = t.size) := by
  obtain ⟨spans, checked, same⟩ := Checked.exists_of_bind_ok made
  cases same
  obtain ⟨pairs, counted, inOrder, rfl⟩ := Span.check_eq_ok_iff.mp checked
  refine ⟨inOrder, fun spanned => ?_⟩
  have size : (offsets.zipWith Span.mk lengths).size = offsets.size := by simp [pairs]
  have nonempty : offsets.size ≠ 0 := by
    intro zero
    rw [zero] at size
    simp [hasSpans, Array.isEmpty, size] at spanned
  exact size.trans (counted.resolve_left nonempty)

theorem wellSpanned_of_ofSpans {id : String} {symbols : Array Symbol} {offsets : Array UInt32}
    {lengths : Array UInt8} {metadata : List UInt8}
    (made : ofSpans id symbols offsets lengths metadata = .ok t) (spanned : t.hasSpans = true) :
    t.WellSpanned := by
  obtain ⟨inOrder, counted⟩ := inOrder_of_ofSpans made
  exact wellSpanned_of_inOrder (counted spanned) inOrder

/-- A text as a caller obtains it: finished by a builder after any calls, made of lists of spans, or
read from a corpus file. -/
inductive Obtained : Text → Prop
  | finished {calls : List BuilderCall} {call : BuilderCall} {t : Text} :
    ((TextBuilder.empty.after calls).perform call).1 = .text t → Obtained t
  | ofSpans {id : String} {symbols : Array Symbol} {offsets : Array UInt32} {lengths : Array UInt8}
    {metadata : List UInt8} {t : Text} :
    ofSpans id symbols offsets lengths metadata = .ok t → Obtained t
  | ofFile {file : String} {texts : List Text} {t : Text} :
    Corpus.ofFile file = .ok texts → t ∈ texts → Obtained t

theorem Obtained.wellSpanned (obtained : t.Obtained) (spanned : t.hasSpans = true) :
    t.WellSpanned := by
  cases obtained with
  | @finished calls call _ answered =>
      obtain ⟨id, metadata, rfl⟩ := TextBuilder.exists_finishTagged_of_perform answered
      have kept := TextBuilder.addAll_takenSince calls
      rw [TextBuilder.finishTagged_of_addAll kept]
      apply wellSpanned_of_inOrder
      · simp [ofEntries, size]
      · exact (TextBuilder.addAll_empty_eq_ok_iff.mp kept).1
  | ofSpans made => exact wellSpanned_of_ofSpans made spanned
  | ofFile read member =>
      obtain ⟨_, _, _, _, made⟩ := Corpus.exists_ofSpans_of_mem_ofFile read member
      exact wellSpanned_of_ofSpans made spanned

end Text

/-- After any calls of a builder, a symbol is taken if the spans stay in order with it, and one that
is refused leaves the builder as it was, so that later calls are answered as if it had not been
given. A text that is finished then has the symbols that were taken since the last reset, with
their spans. And a text with spans, from a builder, from lists of spans or from a corpus file, has
spans that can be read without overflow, one behind the other. -/
theorem TextBuilder.session_finishes_taken :
    (∀ calls : List BuilderCall,
      let b := empty.after calls
      let held := takenSince calls (empty.answers calls)
      (∀ symbol span, (b.perform (.add symbol span)).1 = .taken ↔
        Span.InOrder ((held ++ [(symbol, span)]).map Prod.snd)) ∧
      (∀ symbol span flaw, (b.perform (.add symbol span)).1 = .refused flaw →
        (b.perform (.add symbol span)).2 = b ∧
        ∀ later, ∃ rest,
          empty.answers (calls ++ later) = empty.answers calls ++ rest ∧
          empty.answers (calls ++ .add symbol span :: later) =
            empty.answers calls ++ .refused flaw :: rest) ∧
      (∀ id, (b.perform (.finish id)).1 = .text (.ofEntries id held [])) ∧
      (∀ id metadata,
        (b.perform (.finishTagged id metadata)).1 = .text (.ofEntries id held metadata)) ∧
      (b.perform .finishUnnamed).1 =
        .text (.ofEntries (ContentCode.ofSymbols (held.map Prod.fst)) held [])) ∧
    ∀ t : Text, t.Obtained → t.hasSpans = true → t.WellSpanned := by
  refine ⟨?_, fun t obtained spanned => obtained.wellSpanned spanned⟩
  intro calls b held
  have kept : empty.addAll held = .ok b := addAll_takenSince calls
  have finished := finishTagged_of_addAll kept
  refine ⟨fun symbol span => perform_add_eq_taken_iff kept, ?_, fun id => ?_, fun id metadata => ?_,
    ?_⟩
  · intro symbol span flaw refused
    have unchanged := perform_add_of_refused refused
    refine ⟨congrArg Prod.snd unchanged, fun later => ⟨b.answers later, answers_append _ _, ?_⟩⟩
    rw [answers_append]
    apply congrArg
    change (b.perform _).1 :: (b.perform _).2.answers later = _
    rw [unchanged]
  · exact congrArg _ (finished id [])
  · exact congrArg _ (finished id metadata)
  · have symbols : b.symbols.toList = held.map Prod.fst :=
      congrArg (fun t => t.symbols.toList) (finished "" [])
    rw [← symbols]
    exact congrArg _ (finished _ [])

/-- A reset, two spans that touch, and a symbol that would start within the second one. -/
theorem TextBuilder.session_finishes_taken_of_refused :
    let calls : List BuilderCall := [.add 9 ⟨0, 1⟩, .reset, .add 7 ⟨4, 2⟩, .add 5 ⟨6, 255⟩]
    let b := empty.after calls
    let t := Text.ofEntries "t" [(7, ⟨4, 2⟩), (5, ⟨6, 255⟩)] []
    (b.perform (.add 8 ⟨260, 1⟩)).1 = .refused (.precedes 260 261) ∧
    (b.perform (.add 8 ⟨260, 1⟩)).2 = b ∧ (b.perform (.finish "t")).1 = .text t ∧
    t.Obtained ∧ t.hasSpans = true ∧ t.WellSpanned := by
  intro calls b t
  have refused : (b.perform (.add 8 ⟨260, 1⟩)).1 = .refused (.precedes 260 261) := rfl
  obtain ⟨sessions, spanned⟩ := session_finishes_taken
  obtain ⟨-, frames, finishes, -, -⟩ := sessions calls
  have finished : (b.perform (.finish "t")).1 = .text t := finishes "t"
  have obtained : t.Obtained := .finished finished
  exact ⟨refused, (frames _ _ _ refused).1, finished, obtained, rfl, spanned t obtained rfl⟩

end SharedRuns
