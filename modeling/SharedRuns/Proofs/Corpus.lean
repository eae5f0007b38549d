import Mathlib.Data.Nat.Find
import SharedRuns.Corpus
import SharedRuns.Proofs.Checked
import SharedRuns.Proofs.Text.Refusals

/-!
# The texts of a corpus file

Each text of a corpus file that is accepted was made of an entry, of its symbols and of its spans.
A file is accepted as a whole or not at all: if all entries are well formed, it has the texts that
they describe, and otherwise the first entry that is not is reported, whatever comes behind it
(`ofFile_all_or_first_flaw`).
-/

namespace SharedRuns.Corpus

variable {index : Nat} {t : Text} {e : Entry}

namespace Entry

/-- The offsets of the spans that an entry gives. -/
def givenOffsets (e : Entry) : List UInt32 := e.offsets.getD []

/-- The lengths of the spans that an entry gives. -/
def givenLengths (e : Entry) : List UInt8 := e.lengths.getD []

/-- An entry has offsets and lengths or neither, and they give spans for its symbols. -/
structure WellFormed (e : Entry) : Prop where
  paired : e.offsets.isSome = e.lengths.isSome
  valid : Span.ValidFor e.symbols.length e.givenOffsets e.givenLengths

/-- The flaw for which an entry at an index is refused. -/
inductive Flawed (e : Entry) (index : Nat) : Flaw → Prop
  | unpaired : e.offsets.isSome ≠ e.lengths.isSome → e.Flawed index (.unpaired index e.textId)
  | badSpans {flaw : SpanFlaw} : e.offsets.isSome = e.lengths.isSome →
    Span.Refused e.symbols.length e.givenOffsets e.givenLengths flaw →
    e.Flawed index (.badSpans index e.textId flaw)

/-- The text that an entry describes. -/
def text (e : Entry) : Text where
  id := match e.id with
    | some id => id
    | none => ContentCode.ofSymbols e.symbols
  symbols := e.symbols.toArray
  spans := (e.givenOffsets.zipWith Span.mk e.givenLengths).toArray
  metadata := []

theorem id_text (e : Entry) : e.text.id = e.textId := by
  unfold text textId
  cases e.id <;> rfl

/-- What is made of an entry that has offsets and lengths or neither. -/
theorem toText_of_paired (paired : e.offsets.isSome = e.lengths.isSome) :
    e.toText index =
      match Text.ofSpans e.textId e.symbols.toArray e.givenOffsets.toArray e.givenLengths.toArray
        [] with
      | .ok t => .ok t
      | .error flaw => .error (.badSpans index e.textId flaw) := by
  unfold toText givenOffsets givenLengths
  cases hasOffsets : e.offsets <;> cases hasLengths : e.lengths
  case none.some | some.none => simp [hasOffsets, hasLengths] at paired
  all_goals rfl

theorem toText_of_not_paired (unpaired : e.offsets.isSome ≠ e.lengths.isSome) :
    e.toText index = .error (.unpaired index e.textId) := by
  unfold toText
  cases hasOffsets : e.offsets <;> cases hasLengths : e.lengths
  case none.none | some.some => simp [hasOffsets, hasLengths] at unpaired
  all_goals rfl

theorem toText_of_wellFormed (wellFormed : e.WellFormed) : e.toText index = .ok e.text := by
  rw [toText_of_paired wellFormed.paired, Text.ofSpans_of_validFor wellFormed.valid, ← id_text]
  rfl

theorem exists_flawed_of_not_wellFormed (index : Nat) (bad : ¬ e.WellFormed) :
    ∃ flaw, e.toText index = .error flaw ∧ e.Flawed index flaw := by
  by_cases paired : e.offsets.isSome = e.lengths.isSome
  · have invalid : ¬ Span.ValidFor e.symbols.length e.givenOffsets e.givenLengths :=
      fun valid => bad ⟨paired, valid⟩
    obtain ⟨flaw, refused, why⟩ := Text.exists_refused_of_not_validFor invalid
    refine ⟨_, ?_, .badSpans paired why⟩
    rw [toText_of_paired paired, refused]
  · exact ⟨_, toText_of_not_paired paired, .unpaired paired⟩

/-- A message about an entry starts with its index and its name. -/
theorem Flawed.messages {flaw : Flaw} (flawed : e.Flawed index flaw) :
    ∃ detail causes,
      flaw.messages =
        ("entry " ++ toString index ++ " (" ++ e.text.id ++ ")" ++ detail) :: causes := by
  rw [id_text]
  cases flawed with
  | unpaired => exact ⟨_, _, rfl⟩
  | badSpans => exact ⟨_, _, rfl⟩

theorem Flawed.ne_unreadable {flaw : Flaw} (flawed : e.Flawed index flaw) : flaw ≠ .unreadable := by
  cases flawed <;> exact nofun

end Entry

theorem textsFrom_of_wellFormed {entries : List Entry} (wellFormed : ∀ e ∈ entries, e.WellFormed) :
    textsFrom index entries = .ok (entries.map Entry.text) := by
  induction entries generalizing index with
  | nil => rfl
  | cons e rest ih =>
      rw [List.forall_mem_cons] at wellFormed
      rw [textsFrom, Entry.toText_of_wellFormed wellFormed.1, Checked.ok_bind, ih wellFormed.2]
      rfl

/-- The first entry that is not well formed is reported, whatever comes behind it. -/
theorem textsFrom_of_flawed {before after : List Entry} {flaw : Flaw}
    (wellFormed : ∀ e ∈ before, e.WellFormed)
    (flawed : e.toText (index + before.length) = .error flaw) :
    textsFrom index (before ++ e :: after) = .error flaw := by
  induction before generalizing index with
  | nil =>
      have here : e.toText index = .error flaw := flawed
      rw [List.nil_append, textsFrom, here]
      rfl
  | cons first rest ih =>
      rw [List.forall_mem_cons] at wellFormed
      have later : e.toText (index + 1 + rest.length) = .error flaw := by
        rw [← flawed, List.length_cons]
        congr 1
        omega
      rw [List.cons_append, textsFrom, Entry.toText_of_wellFormed wellFormed.1, Checked.ok_bind,
        ih wellFormed.2 later]
      rfl

/-- Entry `i` is the first one that is not well formed. -/
def FirstBad (entries : List Entry) (i : Nat) : Prop :=
  IsLeast {i | ∃ e, entries[i]? = some e ∧ ¬ e.WellFormed} i

theorem exists_firstBad {entries : List Entry} (bad : ¬ ∀ e ∈ entries, e.WellFormed) :
    ∃ i, FirstBad entries i := by
  have found : ∃ (i : Nat) (e : Entry), entries[i]? = some e ∧ ¬ e.WellFormed := by
    push Not at bad
    obtain ⟨e, member, bad⟩ := bad
    obtain ⟨i, there⟩ := List.getElem?_of_mem member
    exact ⟨i, e, there, bad⟩
  classical
  exact ⟨Nat.find found, Nat.find_spec found, fun i bad => Nat.find_min' found bad⟩

theorem FirstBad.wellFormed {entries : List Entry} {i : Nat} (first : FirstBad entries i) :
    ∀ e ∈ entries.take i, e.WellFormed := by
  intro e member
  obtain ⟨j, there⟩ := List.getElem?_of_mem member
  rw [List.getElem?_take] at there
  split at there
  · next before =>
      by_contra bad
      exact absurd (first.2 ⟨e, there, bad⟩) (Nat.not_le.mpr before)
  · cases there

variable {file : String} {entries : List Entry}

theorem ofFile_of_entries (read : entries? file = some entries) :
    ofFile file = textsFrom 0 entries := by
  rw [ofFile, read]

theorem ofFile_of_wellFormed (read : entries? file = some entries)
    (wellFormed : ∀ e ∈ entries, e.WellFormed) : ofFile file = .ok (entries.map Entry.text) := by
  rw [ofFile_of_entries read, textsFrom_of_wellFormed wellFormed]

/-- The first bad entry decides about each file whose entries are the same up to it. -/
theorem exists_flawed_of_firstBad {i : Nat} (first : FirstBad entries i) :
    ∃ e flaw, entries[i]? = some e ∧ e.Flawed i flaw ∧
      ∀ {file : String} {others : List Entry}, entries? file = some others →
        others.take (i + 1) = entries.take (i + 1) → ofFile file = .error flaw := by
  obtain ⟨e, there, bad⟩ := first.1
  obtain ⟨flaw, refused, flawed⟩ := e.exists_flawed_of_not_wellFormed i bad
  refine ⟨e, flaw, there, flawed, fun {file others} read same => ?_⟩
  have split : others = entries.take i ++ e :: others.drop (i + 1) := by
    conv_lhs => rw [← List.take_append_drop (i + 1) others, same, List.take_add_one, there]
    simp
  have place : (entries.take i).length = i := by
    have inside := (List.getElem?_eq_some_iff.mp there).1
    rw [List.length_take, Nat.min_eq_left inside.le]
  rw [ofFile_of_entries read, split]
  exact textsFrom_of_flawed first.wellFormed (by rw [place, Nat.zero_add, refused])

theorem entries?_of_no_list (noList : ∀ items, Json.read? file ≠ some (.array items)) :
    entries? file = none := by
  rw [entries?]
  cases read : Json.read? file with
  | none => rfl
  | some value =>
      cases value with
      | array items => exact absurd read (noList items)
      | _ => rfl

theorem entries?_eq_none_iff {items : List Json.Value}
    (read : Json.read? file = some (.array items)) :
    entries? file = none ↔ ∃ item ∈ items, Entry.ofValue? item = none := by
  rw [entries?, read]
  exact Checked.mapM_eq_none_iff

/-- Whether a file writes a list can be found out by reading it. -/
theorem isList_iff :
    ((Json.read? file).bind (·.list? some)).isSome = true ↔
      ∃ items, Json.read? file = some (.array items) := by
  cases Json.read? file with
  | none => simp
  | some value =>
      cases value <;>
        simp [Json.Value.list?, Option.isSome_iff_ne_none, Checked.mapM_eq_none_iff]

theorem ofFile_eq_unreadable_iff : ofFile file = .error .unreadable ↔ entries? file = none := by
  constructor
  · intro unreadable
    cases read : entries? file with
    | none => rfl
    | some entries =>
        by_cases wellFormed : ∀ e ∈ entries, e.WellFormed
        · rw [ofFile_of_wellFormed read wellFormed] at unreadable
          cases unreadable
        · obtain ⟨i, first⟩ := exists_firstBad wellFormed
          obtain ⟨e, flaw, -, flawed, decides⟩ := exists_flawed_of_firstBad first
          rw [decides read rfl, Except.error.injEq] at unreadable
          exact absurd unreadable flawed.ne_unreadable
  · intro read
    rw [ofFile, read]

theorem ofFile_eq_ok_iff {texts : List Text} (read : entries? file = some entries) :
    ofFile file = .ok texts ↔ (∀ e ∈ entries, e.WellFormed) ∧ entries.map Entry.text = texts := by
  by_cases wellFormed : ∀ e ∈ entries, e.WellFormed
  · rw [ofFile_of_wellFormed read wellFormed, Except.ok.injEq]
    exact (and_iff_right wellFormed).symm
  · refine iff_of_false (fun loaded => ?_) fun loaded => wellFormed loaded.1
    obtain ⟨i, first⟩ := exists_firstBad wellFormed
    obtain ⟨e, flaw, -, -, decides⟩ := exists_flawed_of_firstBad first
    rw [decides read rfl] at loaded
    cases loaded

theorem exists_ofSpans_of_mem_ofFile {texts : List Text} (read : ofFile file = .ok texts)
    (member : t ∈ texts) :
    ∃ id symbols offsets lengths, Text.ofSpans id symbols offsets lengths [] = .ok t := by
  cases given : entries? file with
  | none =>
      rw [ofFile_eq_unreadable_iff.mpr given] at read
      cases read
  | some entries =>
      obtain ⟨wellFormed, rfl⟩ := (ofFile_eq_ok_iff given).mp read
      obtain ⟨e, inEntries, rfl⟩ := List.mem_map.mp member
      exact ⟨_, _, _, _, Text.ofSpans_of_validFor (wellFormed e inEntries).valid⟩

/-- A file is loaded as a whole or not at all. One that is no list of entries is unreadable,
whatever else is wrong with it. A list of entries is loaded if each entry has offsets and lengths
or neither, and they give spans for its symbols; then there is one text for each entry, with its
symbols, its spans and its name, or the code of its symbols if it has no name. Otherwise the first
bad entry is reported, by a message that begins with its index and its name, and the report does not
depend on the entries behind it. -/
theorem ofFile_all_or_first_flaw (file : String) :
    ((∀ items, Json.read? file ≠ some (.array items)) → ofFile file = .error .unreadable) ∧
    (∀ items, Json.read? file = some (.array items) →
      (ofFile file = .error .unreadable ↔ ∃ item ∈ items, Entry.ofValue? item = none)) ∧
    ∀ entries, entries? file = some entries →
      ((∃ texts, ofFile file = .ok texts) ↔ ∀ e ∈ entries, e.WellFormed) ∧
      (∀ texts, ofFile file = .ok texts → texts = entries.map Entry.text) ∧
      ((¬ ∃ texts, ofFile file = .ok texts) → ∃ i e flaw detail causes,
        FirstBad entries i ∧ entries[i]? = some e ∧ ofFile file = .error flaw ∧ e.Flawed i flaw ∧
          flaw.messages =
            ("entry " ++ toString i ++ " (" ++ e.text.id ++ ")" ++ detail) :: causes ∧
          ∀ other others, entries? other = some others →
            others.take (i + 1) = entries.take (i + 1) → ofFile other = .error flaw) := by
  refine ⟨fun noList => ?_, fun items list => ?_, fun entries read => ⟨?_, ?_, fun failed => ?_⟩⟩
  · exact ofFile_eq_unreadable_iff.mpr (entries?_of_no_list noList)
  · rw [ofFile_eq_unreadable_iff, entries?_eq_none_iff list]
  · simp only [ofFile_eq_ok_iff read, exists_and_left, exists_eq', and_true]
  · intro texts loaded
    exact ((ofFile_eq_ok_iff read).mp loaded).2.symm
  · have bad : ¬ ∀ e ∈ entries, e.WellFormed :=
      fun wellFormed => failed ⟨_, ofFile_of_wellFormed read wellFormed⟩
    obtain ⟨i, first⟩ := exists_firstBad bad
    obtain ⟨e, flaw, there, flawed, decides⟩ := exists_flawed_of_firstBad first
    obtain ⟨detail, causes, names⟩ := flawed.messages
    exact ⟨i, e, flaw, detail, causes, first, there, decides read rfl, flawed, names,
      fun other others => decides⟩

/-- A file that is no list, a list whose second item is no entry behind an entry without lengths,
and entries of which the second has spans that overlap and the third has no lengths. -/
theorem ofFile_all_or_first_flaw_of_overlap :
    let noList := "true"
    let noEntry := "[\x7b\"symbols\": [1], \"offsets\": [0]\x7d, \x7b\"symbols\": [-1]\x7d]"
    let overlap := "[[\"a\", [5]], [\"b\", [1, 2], [0, 2], [3, 1]], [\"c\", [1], [0]]]"
    let entries : List Entry := [⟨some "a", [5], none, none⟩,
      ⟨some "b", [1, 2], some [0, 2], some [3, 1]⟩, ⟨some "c", [1], some [0], none⟩]
    (∀ items, Json.read? noList ≠ some (.array items)) ∧ ofFile noList = .error .unreadable ∧
      ofFile noEntry = .error .unreadable ∧ entries? overlap = some entries ∧
      (¬ ∃ texts, ofFile overlap = .ok texts) ∧
      ∃ e flaw detail causes, entries[1]? = some e ∧ ofFile overlap = .error flaw ∧
        e.Flawed 1 flaw ∧ flaw.messages = ("entry 1 (b)" ++ detail) :: causes := by
  intro noList noEntry overlap entries
  have unlisted : ∀ items, Json.read? noList ≠ some (.array items) := fun items list =>
    absurd (isList_iff.mpr ⟨items, list⟩) (by decide +kernel)
  obtain ⟨items, list⟩ : ∃ items, Json.read? noEntry = some (.array items) :=
    isList_iff.mp (by decide +kernel)
  have noneRead : entries? noEntry = none := by decide +kernel
  have read : entries? overlap = some entries := by decide +kernel
  obtain ⟨refused, -, -⟩ := ofFile_all_or_first_flaw noList
  obtain ⟨-, listed, -⟩ := ofFile_all_or_first_flaw noEntry
  obtain ⟨-, -, blames⟩ := ofFile_all_or_first_flaw overlap
  obtain ⟨loads, -, blames⟩ := blames entries read
  have bad : ¬ (Entry.mk (some "b") [1, 2] (some [0, 2]) (some [3, 1])).WellFormed := by
    intro wellFormed
    have apart := wellFormed.valid.inOrder.apart
    revert apart
    decide
  have failed : ¬ ∃ texts, ofFile overlap = .ok texts :=
    fun loaded => bad (loads.mp loaded _ (by simp [entries]))
  obtain ⟨i, e, flaw, detail, causes, first, there, reported, flawed, named, -⟩ := blames failed
  have second : i = 1 := by
    have early : i ≤ 1 := first.2 ⟨_, rfl, bad⟩
    have notFirst : i ≠ 0 := by
      rintro rfl
      obtain ⟨e, there, bad⟩ := first.1
      cases there
      exact bad ⟨rfl, Span.validFor_nil⟩
    omega
  subst second
  cases there
  have prefixed : "entry " ++ toString 1 ++ " (" ++ "b" ++ ")" = "entry 1 (b)" := by decide
  exact ⟨unlisted, refused unlisted,
    (listed items list).mpr ((entries?_eq_none_iff list).mp noneRead), read, failed, _, flaw,
    detail, causes, rfl, reported, flawed, prefixed ▸ named⟩

end SharedRuns.Corpus
