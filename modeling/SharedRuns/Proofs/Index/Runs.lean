import SharedRuns.Proofs.Index.History
import SharedRuns.Proofs.Text.Numbered

/-!
# A run index finds every shared window once and in order

`sharedRuns` lists the windows that a query shares with other texts by comparing all of them. An
index never compares all windows: it looks at those whose fingerprints fall into one bin, unfolds
their numbers with a fingerprint that may not be theirs, and passes over whatever goes back behind
the last report. `RunIndex.search_perform_eq_sharedRuns` says that nevertheless it reports the same
list. Only a posting that is read with a fingerprint that is not its own, and so leads to a shared
window that is not its own either, could disturb it (`RunIndex.Decoy`), and the bound on the texts
leaves no room for one.

An index is a function of the texts that it holds (`RunIndex.perform_eq_ofTexts`), so what was added
before the last clearing leaves no trace.
-/

namespace SharedRuns

/-- The match of two windows of `length` symbols, if their texts have different names and the
windows hold the same symbols. -/
def sharedRun? (length : Nat) (query : Text) (start₁ : Nat) (t : Text) (start₂ : Nat) :
    Option Match :=
  if ¬ t.SameId query ∧ t.run start₂ length = query.run start₁ length then
    some
      { a := { text := query, offset := start₁, len := length }
        b := { text := t, offset := start₂, len := length } }
  else none

/-- All pairs of equal windows of `length` symbols in the query and in a text of another name: by
the window of the query, then by the text, then by its window. -/
def sharedRuns (length : Nat) (texts : List Text) (query : Text) : List Match :=
  (query.starts length).flatMap fun start₁ =>
    texts.flatMap fun t => (t.starts length).filterMap (sharedRun? length query start₁ t)

namespace RunIndex

/-- The index after one more call. A refused text changes nothing. -/
def perform (ix : RunIndex) : IndexCall → RunIndex
  | .add t =>
    match ix.add t with
    | .ok filled => filled
    | .error _ => ix
  | .search _ => ix
  | .clear => ix.clear

/-- The windows of a text with their fingerprints. -/
def filings (length : Nat) (t : Text) : List (UInt32 × Nat) :=
  (t.starts length).map fun start => (Fingerprint.ofRun (t.run start length), start)

/-- The posting of a window of a numbered text, with the fingerprint under which it is pushed. -/
def posting (entry : Nat × UInt32 × Nat) : UInt32 × PostedRun :=
  (entry.2.1, .encode entry.1.toUInt32 entry.2.2.toUInt32 entry.2.1)

/-- The index of texts that were added in this order to an index without texts. -/
def ofTexts (length : Nat) (texts : List Text) : RunIndex where
  length := length
  texts := texts.toArray
  table := PostingTable.empty.pushAll ((numbered (filings length) 0 texts).map posting)

variable {length : Nat} {texts : List Text}

@[simp] theorem texts_ofTexts : (ofTexts length texts).texts = texts.toArray := rfl

theorem eq_of_create {ix : RunIndex} (made : create length = .ok ix) : ix = { length } := by
  rw [create] at made
  split at made
  · cases made
  · exact (Except.ok.inj made).symm

theorem add_ofTexts {t : Text} (accepted : t.Addressable texts.length) :
    (ofTexts length texts).add t = .ok (ofTexts length (texts ++ [t])) := by
  have filed (table : PostingTable PostedRun) :
      (t.starts length).foldl ((ofTexts length texts).file t texts.length) table =
        table.pushAll (((filings length t).map fun x => (texts.length, x)).map posting) := by
    simp only [PostingTable.pushAll, filings, List.map_map, List.foldl_map]
    rfl
  have check : t.checkAddressable (ofTexts length texts).texts.size = .ok () :=
    Text.checkAddressable_of_addressable (by simpa using accepted)
  simp only [add, check]
  show Except.ok _ = Except.ok _
  congr 1
  simp only [ofTexts, List.push_toArray, numbered_concat, List.map_append,
    PostingTable.pushAll_append, Nat.zero_add, List.size_toArray] at filed ⊢
  rw [← filed]

theorem add_eq_error_iff {t : Text} {fault : Fault} :
    (ofTexts length texts).add t = .error fault ↔
      t.checkAddressable texts.length = .error fault := by
  simp only [add, texts_ofTexts, List.size_toArray]
  cases t.checkAddressable texts.length with
  | ok _ => exact iff_of_false nofun nofun
  | error refused =>
      show Except.error refused = _ ↔ _
      rw [Except.error.injEq, Except.error.injEq]

theorem perform_ofTexts (call : IndexCall) :
    (ofTexts length texts).perform call = ofTexts length (call.hold texts) := by
  cases call with
  | add t =>
      by_cases accepted : t.Addressable texts.length
      · simp only [perform, IndexCall.hold, accepted, if_true, add_ofTexts]
      · obtain ⟨fault, refused⟩ := Text.checkAddressable_of_not accepted
        have failed : (ofTexts length texts).add t = .error fault := by
          simp only [add, texts_ofTexts, List.size_toArray, refused]
          rfl
        simp only [perform, IndexCall.hold, accepted, if_false, failed]
  | search query => rfl
  | clear => rfl

/-- However an index was called, it is the index of the texts that it holds. -/
theorem perform_eq_ofTexts (calls : List IndexCall) :
    calls.foldl perform { length } = ofTexts length (heldTexts calls) := by
  show calls.foldl perform (ofTexts length []) = _
  apply List.foldl_hom
  intro held call
  exact perform_ofTexts call

/-- What is reported for a posting, the order of reports left aside. -/
def found? (ix : RunIndex) (query : Text) (start : Nat) (hash : UInt32) (posting : PostedRun) :
    Option Match :=
  ix.texts[(posting.decode hash).1.toNat]?.bind fun other =>
    if ix.agrees query start other (posting.decode hash).2.toNat then
      some (ix.matchOf query start other (posting.decode hash).2.toNat)
    else none

theorem readBin_eq_reportAscending (ix : RunIndex) (query : Text) (start : Nat) (hash : UInt32)
    (last : Nat) (bin : List PostedRun) :
    ix.readBin query start hash last bin =
      reportAscending (fun p => (p.decode hash).1.toNat) (ix.found? query start hash) last bin := by
  induction bin generalizing last with
  | nil => rfl
  | cons p rest ih =>
      simp only [readBin, reportAscending, found?]
      cases ix.texts[(p.decode hash).1.toNat]? with
      | none => exact ih last
      | some other =>
          by_cases agree : ix.agrees query start other (p.decode hash).2.toNat
          · by_cases le : last ≤ (p.decode hash).1.toNat
            · simp [agree, le, ih]
            · simp [agree, le, ih]
          · simp [agree, ih]

theorem searchAt_eq (ix : RunIndex) (query : Text) (start : Nat) :
    ix.searchAt query start =
      reportAscending (fun p => (p.decode (Fingerprint.ofRun (query.run start ix.length))).1.toNat)
        (ix.found? query start (Fingerprint.ofRun (query.run start ix.length))) 0
        (ix.table.bin (Fingerprint.ofRun (query.run start ix.length))).toList := by
  rw [searchAt, readBin_eq_reportAscending]
  rfl

theorem agrees_iff {query other : Text} {start₁ start₂ : Nat} :
    (ofTexts length texts).agrees query start₁ other start₂ ↔
      ¬ other.SameId query ∧ start₂ + length ≤ other.size ∧
        other.run start₂ length = query.run start₁ length := by
  simp only [agrees, ofTexts, runAt, Text.run, Bool.and_eq_true, Window.fits_iff, beq_iff_eq,
    Bool.not_eq_true', decide_eq_false_iff_not, and_assoc, ← Array.toList_inj]
  exact and_congr_right fun _ => and_congr_right fun _ => eq_comm

theorem found?_of_decode {query other : Text} {start : Nat} {hash number start₂ : UInt32}
    {p : PostedRun} (unfolds : p.decode hash = (number, start₂))
    (lookup : texts[number.toNat]? = some other) (named : ¬ other.SameId query)
    (fits : start₂.toNat + length ≤ other.size)
    (same : other.run start₂.toNat length = query.run start length) :
    (ofTexts length texts).found? query start hash p =
      some
        { a := { text := query, offset := start, len := length }
          b := { text := other, offset := start₂.toNat, len := length } } := by
  rw [found?, unfolds, texts_ofTexts, List.getElem?_toArray, lookup, Option.bind_some,
    if_pos (agrees_iff.mpr ⟨named, fits, same⟩)]
  rfl

theorem mem_filings {number start : Nat} {hash : UInt32} :
    (number, hash, start) ∈ numbered (filings length) 0 texts ↔
      ∃ t, texts[number]? = some t ∧ start + length ≤ t.size ∧
        Fingerprint.ofRun (t.run start length) = hash := by
  simp only [mem_numbered, filings, Nat.zero_le, true_and, Nat.sub_zero, List.mem_map,
    Text.mem_starts, Window.fits_iff, Prod.mk.injEq]
  refine exists_congr fun t => and_congr_right fun _ => ?_
  constructor
  · rintro ⟨start, fits, hash, rfl⟩
    exact ⟨fits, hash⟩
  · rintro ⟨fits, hash⟩
    exact ⟨start, fits, hash, rfl⟩

/-- A window of a held text is a decoy for the window of the query at `start`: its fingerprint is
another one of the same bin, and its posting, unfolded by the fingerprint that is asked for, leads
to a window that the query shares. -/
def Decoy (length : Nat) (texts : List Text) (query : Text) (start number start₂ : Nat) : Prop :=
  ∃ t, texts[number]? = some t ∧ start₂ + length ≤ t.size ∧
    let own := Fingerprint.ofRun (t.run start₂ length)
    let asked := Fingerprint.ofRun (query.run start length)
    own ≠ asked ∧ binNumber own = binNumber asked ∧
      ∃ other, texts[number ^^^ (own ^^^ asked).toNat]? = some other ∧
        let there := start₂ ^^^ (own ^^^ asked).toNat
        ¬ other.SameId query ∧ there + length ≤ other.size ∧
          other.run there length = query.run start length

/-- The bound on texts rules decoys out. -/
theorem not_decoy_of_unmistakable (held : Holdable texts) (bounded : Unmistakable texts)
    (pos : 0 < length) (query : Text) (start number start₂ : Nat) :
    ¬ Decoy length texts query start number start₂ := by
  rintro ⟨t, lookup, fits, different, same, other, found, -, fitsThere, -⟩
  have inside : start₂ < t.size := by omega
  have atText (mask : UInt32) : (number.toUInt32 ^^^ mask).toNat = number ^^^ mask.toNat := by
    rw [UInt32.toNat_xor, held.toNat_number lookup]
  have atStart (mask : UInt32) : (start₂.toUInt32 ^^^ mask).toNat = start₂ ^^^ mask.toNat := by
    rw [UInt32.toNat_xor, held.toNat_start lookup inside]
  rw [← atText] at found
  rw [← atStart] at fitsThere
  have lifted := bounded.size_le_unfolded held lookup inside same different found
  omega

/-- A posting of the bin leads to the window that was filed or, unless that is a decoy, to no report
at all. -/
theorem found?_posting (held : Holdable texts) (pos : 0 < length) {query : Text} {start : Nat}
    (clear : ∀ number start₂, ¬ Decoy length texts query start number start₂)
    {entry : Nat × UInt32 × Nat} (member : entry ∈ numbered (filings length) 0 texts)
    (same : binNumber (posting entry).1 =
      binNumber (Fingerprint.ofRun (query.run start length))) :
    (ofTexts length texts).found? query start (Fingerprint.ofRun (query.run start length))
        (posting entry).2 =
      texts[entry.1]?.bind fun t => sharedRun? length query start t entry.2.2 := by
  obtain ⟨number, hash, start₂⟩ := entry
  obtain ⟨t, lookup, fits, rfl⟩ := mem_filings.mp member
  have inside : start₂ < t.size := by omega
  have numberWord := held.toNat_number lookup
  have startWord := held.toNat_start lookup inside
  simp only [found?, posting, PostedRun.decode_encode] at same ⊢
  by_cases equal : Fingerprint.ofRun (t.run start₂ length) =
      Fingerprint.ofRun (query.run start length)
  · -- The posting of a window with the fingerprint asked for unfolds to that window.
    simp only [equal, UInt32.xor_self, UInt32.xor_zero, numberWord, startWord, agrees_iff, lookup,
      Option.bind_some, sharedRun?, fits, true_and, texts_ofTexts, List.getElem?_toArray]
    rfl
  · have different : t.run start₂ length ≠ query.run start length := fun h => equal (by rw [h])
    rw [lookup, Option.bind_some, sharedRun?, if_neg (fun h => different h.2),
      Option.bind_eq_none_iff]
    intro other found
    rw [texts_ofTexts, List.getElem?_toArray] at found
    rw [if_neg]
    intro agree
    rw [UInt32.toNat_xor, numberWord] at found
    rw [UInt32.toNat_xor, startWord, agrees_iff] at agree
    exact clear number start₂ ⟨t, lookup, fits, equal, same, other, found, agree⟩

/-- Equal windows share a fingerprint, so what is to be reported lies in the bin that is read. -/
theorem posting_of_sharedRun {query : Text} {start : Nat} (held : Holdable texts)
    {entry : Nat × UInt32 × Nat} (member : entry ∈ numbered (filings length) 0 texts)
    (found : (texts[entry.1]?.bind fun t => sharedRun? length query start t entry.2.2).isSome) :
    binNumber (posting entry).1 = binNumber (Fingerprint.ofRun (query.run start length)) ∧
      ((posting entry).2.decode (Fingerprint.ofRun (query.run start length))).1.toNat =
        entry.1 := by
  obtain ⟨number, hash, start₂⟩ := entry
  obtain ⟨t, lookup, -, rfl⟩ := mem_filings.mp member
  have numberWord := held.toNat_number lookup
  have equal : t.run start₂ length = query.run start length := by
    by_contra different
    simp [lookup, sharedRun?, different] at found
  simp [posting, equal, numberWord]

/-- Where there are no decoys, an index of texts reports what comparing all windows reports. -/
theorem search_ofTexts_of_no_decoy (held : Holdable texts) (pos : 0 < length) {query : Text}
    (clear : ∀ start ∈ query.starts length, ∀ number start₂,
      ¬ Decoy length texts query start number start₂) :
    (ofTexts length texts).search query = sharedRuns length texts query := by
  apply List.flatMap_congr
  intro start inQuery
  calc (ofTexts length texts).searchAt query start
      = (numbered (filings length) 0 texts).filterMap fun entry =>
          texts[entry.1]?.bind fun t => sharedRun? length query start t entry.2.2 := by
        rw [searchAt_eq]
        apply reportAscending_bin numbered_ascending
        · intro entry member same
          exact found?_posting held pos (clear start inQuery) member same
        · intro entry member found
          exact posting_of_sharedRun held member found
    _ = texts.flatMap fun t => (filings length t).filterMap fun x =>
          sharedRun? length query start t x.2 :=
        filterMap_numbered fun t (x : UInt32 × Nat) => sharedRun? length query start t x.2
    _ = texts.flatMap fun t => (t.starts length).filterMap (sharedRun? length query start t) := by
        simp only [filings, List.filterMap_map, Function.comp_def]

/-- The index of some texts that are few or short reports what comparing all windows reports. -/
theorem search_ofTexts (held : Holdable texts) (bounded : Unmistakable texts) (pos : 0 < length)
    (query : Text) : (ofTexts length texts).search query = sharedRuns length texts query :=
  search_ofTexts_of_no_decoy held pos fun start _ =>
    not_decoy_of_unmistakable held bounded pos query start

/-- However an index was filled, asked and cleared, it reports all windows that the query shares
with the texts added since the last clearing: each pair once, by the window of the query, then by
the text in the order of addition, then by its window. At most `binCount` texts may be held, or
texts of at most `binCount` symbols. -/
theorem search_perform_eq_sharedRuns (pos : 0 < length) (calls : List IndexCall) (query : Text)
    (bounded : (heldTexts calls).length ≤ 2 ^ 20 ∨ ∀ t ∈ heldTexts calls, t.size ≤ 2 ^ 20) :
    ∃ ix, create length = .ok ix ∧
      (calls.foldl perform ix).search query = sharedRuns length (heldTexts calls) query := by
  refine ⟨{ length }, if_neg (Nat.ne_of_gt pos), ?_⟩
  rw [perform_eq_ofTexts]
  exact search_ofTexts (holdable_heldTexts calls) bounded pos query

/-- A text that was forgotten is not found any more, nor is a text of the query's own name. -/
theorem search_perform_after_clear :
    let query : Text := { id := "query", symbols := #[1, 2, 3] }
    let forgotten : Text := { id := "forgotten", symbols := #[1, 2] }
    let kept : Text := { id := "kept", symbols := #[2, 3, 1, 2] }
    let calls : List IndexCall :=
      [.add forgotten, .search query, .clear, .add kept, .add query]
    0 < 2 ∧ (heldTexts calls).length ≤ 2 ^ 20 ∧
      ∃ ix, create 2 = .ok ix ∧ (calls.foldl perform ix).search query =
        [{ a := ⟨query, 0, 2⟩, b := ⟨kept, 2, 2⟩ }, { a := ⟨query, 1, 2⟩, b := ⟨kept, 0, 2⟩ }] := by
  intro query forgotten kept calls
  have small : (heldTexts calls).length ≤ 2 ^ 20 := by decide
  obtain ⟨ix, made, found⟩ : ∃ ix, create 2 = .ok ix ∧ _ :=
    search_perform_eq_sharedRuns (by decide) calls query (.inl small)
  exact ⟨by decide, small, ix, made, found.trans rfl⟩

end RunIndex

end SharedRuns
