import SharedRuns.Proofs.Index.Runs
import SharedRuns.Proofs.Match.Windows

/-!
# Very large indices

Once an index holds more than `binCount` texts and a text of more than `binCount` symbols, a posting
of another fingerprint can unfold to a window that holds the query's symbols. Such a window is a
decoy (`RunIndex.Decoy`). Where there is none, an index of any size reports each shared window once
(`RunIndex.search_perform_of_no_decoy`).

Where there is one, the window that it leads to may be reported twice, and what is read in between
is passed over as if it went back behind the last report (`RunIndex.search_decoyCorpus`).
-/

namespace SharedRuns.RunIndex

/-- However many texts an index holds and however long they are, it reports all windows that the
query shares with them, each pair once and in order, unless one of its windows is a decoy for a
window of the query. -/
theorem search_perform_of_no_decoy {length : Nat} (pos : 0 < length) (calls : List IndexCall)
    (query : Text)
    (clear : ∀ start ∈ query.starts length, ∀ number start₂,
      ¬ Decoy length (heldTexts calls) query start number start₂) :
    ∃ ix, create length = .ok ix ∧
      (calls.foldl perform ix).search query = sharedRuns length (heldTexts calls) query := by
  refine ⟨{ length }, if_neg (Nat.ne_of_gt pos), ?_⟩
  rw [perform_eq_ofTexts]
  exact search_ofTexts_of_no_decoy (holdable_heldTexts calls) pos clear

/-- Texts without symbols and a last one behind them. -/
def behindEmpty (count : Nat) (last : Text) : List Text :=
  List.replicate count { id := "empty", symbols := #[] } ++ [last]

theorem length_behindEmpty (count : Nat) (last : Text) :
    (behindEmpty count last).length = count + 1 := by
  rw [behindEmpty, List.length_append, List.length_replicate, List.length_singleton]

theorem mem_behindEmpty {count : Nat} {last t : Text} (member : t ∈ behindEmpty count last) :
    t.size = 0 ∨ t = last := by
  rcases List.mem_append.mp member with empty | atEnd
  · exact .inl (List.eq_of_mem_replicate empty ▸ rfl)
  · exact .inr (List.mem_singleton.mp atEnd)

theorem holdable_behindEmpty {count : Nat} {last : Text} (few : count < Position.wordLimit)
    (short : last.size < Position.wordLimit) : Holdable (behindEmpty count last) where
  length_le := by
    rw [length_behindEmpty]
    exact few
  size_lt t member := by
    rcases mem_behindEmpty member with empty | rfl
    · rw [empty]
      decide
    · exact short

/-- Windows are shared with the last text only. -/
theorem sharedRuns_behindEmpty {length : Nat} (pos : 0 < length) (count : Nat)
    (last query : Text) :
    sharedRuns length (behindEmpty count last) query = sharedRuns length [last] query := by
  refine List.flatMap_congr fun start _ => ?_
  rw [behindEmpty, List.flatMap_append, List.flatMap_eq_nil_iff.mpr, List.nil_append]
  intro t member
  have none : t.starts length = [] := by
    rw [List.eq_of_mem_replicate member, Text.starts, Text.size]
    exact List.range_eq_nil.mpr (by simp; omega)
  rw [none, List.filterMap_nil]

/-- A text in which all symbols are the same. -/
def uniform (id : String) (count : Nat) (symbol : Symbol) : Text :=
  { id, symbols := Array.replicate count symbol }

theorem run_uniform {id : String} {count start : Nat} {symbol : Symbol}
    (fits : start + 1 ≤ (uniform id count symbol).size) :
    (uniform id count symbol).run start 1 = [symbol] := by
  refine Text.run_one ?_
  rw [Text.size, uniform, Array.size_replicate] at fits
  rw [uniform, Array.getElem?_replicate, if_pos (Nat.lt_of_succ_le fits)]

/-- An index of more texts than there are bins, one of them longer than that, in which every symbol
is the one that is asked for. -/
theorem search_perform_of_equal_symbols :
    let query : Text := { id := "query", symbols := #[7] }
    let long := uniform "long" (2 ^ 20 + 1) 7
    let texts := behindEmpty (2 ^ 20) long
    2 ^ 20 < texts.length ∧ 2 ^ 20 < long.size ∧ 0 < 1 ∧
      (∀ start ∈ query.starts 1, ∀ number start₂,
        ¬ Decoy 1 (heldTexts (texts.map .add)) query start number start₂) ∧
      ∃ ix, create 1 = .ok ix ∧ ((texts.map IndexCall.add).foldl perform ix).search query =
        (List.range (2 ^ 20 + 1)).map fun start =>
          { a := ⟨query, 0, 1⟩, b := ⟨long, start, 1⟩ } := by
  intro query long texts
  have size : long.size = 2 ^ 20 + 1 := Array.size_replicate
  have count : texts.length = 2 ^ 20 + 1 := length_behindEmpty _ _
  have holdable : Holdable texts := holdable_behindEmpty (by decide) (by rw [size]; decide)
  have asked : query.run 0 1 = [7] := rfl
  have clear : ∀ start ∈ query.starts 1, ∀ number start₂,
      ¬ Decoy 1 (heldTexts (texts.map .add)) query start number start₂ := by
    rw [holdable.heldTexts_map_add]
    rintro start inQuery number start₂ ⟨t, lookup, fits, different, -⟩
    obtain rfl : start = 0 := by simpa [Text.starts, Text.size, query] using inQuery
    rcases mem_behindEmpty (List.mem_of_getElem? lookup) with empty | rfl
    · omega
    · exact different (by rw [run_uniform fits, asked])
  obtain ⟨ix, created, found⟩ :=
    search_perform_of_no_decoy Nat.one_pos (texts.map .add) query clear
  refine ⟨by omega, by omega, Nat.one_pos, clear, ix, created, found.trans ?_⟩
  rw [holdable.heldTexts_map_add, sharedRuns_behindEmpty Nat.one_pos]
  have starts : query.starts 1 = [0] := rfl
  rw [sharedRuns, starts, List.flatMap_singleton, List.flatMap_singleton, Text.starts, size,
    ← List.filterMap_eq_map]
  refine List.filterMap_congr fun start member => ?_
  have fits : start + 1 ≤ long.size := by
    have := List.mem_range.mp member
    omega
  rw [sharedRun?, run_uniform fits, asked]
  exact if_pos ⟨by decide, rfl⟩

/-- A text of one symbol. -/
def single (id : String) (symbol : Symbol) : Text := { id, symbols := #[symbol] }

/-- A text with the symbol that is asked for behind equal ones. -/
def padded (count : Nat) (blank asked : Symbol) : Text :=
  { id := "padded", symbols := (Array.replicate count blank).push asked }

/-- Texts with a decoy in the first one. The number of the last text and the start of its last
symbol are both `count + 2`. -/
def decoyCorpus (count : Nat) (decoy blank asked : Symbol) : List Text :=
  single "decoy" decoy :: single "single" asked ::
    behindEmpty count (padded (count + 2) blank asked)

section

variable {count : Nat} {decoy blank asked : Symbol}

theorem size_padded : (padded count blank asked).size = count + 1 := by
  rw [Text.size, padded, Array.size_push, Array.size_replicate]

theorem run_padded : (padded count blank asked).run count 1 = [asked] := by
  refine Text.run_one ?_
  rw [padded, Array.getElem?_push, Array.size_replicate, if_pos rfl]

theorem run_padded_of_lt {start : Nat} (inside : start < count) :
    (padded count blank asked).run start 1 = [blank] := by
  refine Text.run_one ?_
  rw [padded, Array.getElem?_push, Array.size_replicate, if_neg (Nat.ne_of_lt inside),
    Array.getElem?_replicate, if_pos inside]

theorem starts_padded :
    (padded count blank asked).starts 1 = List.range count ++ [count] := by
  rw [Text.starts, size_padded, Nat.add_sub_cancel, List.range_succ]

theorem filings_padded :
    filings 1 (padded count blank asked) =
      ((List.range count).map fun start => (Fingerprint.ofRun [blank], start)) ++
        [(Fingerprint.ofRun [asked], count)] := by
  rw [filings, starts_padded, List.map_append, List.map_singleton, run_padded]
  refine congrArg (· ++ _) (List.map_congr_left fun start member => ?_)
  rw [run_padded_of_lt (List.mem_range.mp member)]

/-- The bin of the symbol that is asked for holds the decoy, and the two postings of the symbol. -/
theorem bin_decoyCorpus
    (same : binNumber (Fingerprint.ofRun [decoy]) = binNumber (Fingerprint.ofRun [asked]))
    (other : binNumber (Fingerprint.ofRun [blank]) ≠ binNumber (Fingerprint.ofRun [asked])) :
    ((ofTexts 1 (decoyCorpus count decoy blank asked)).table.bin
        (Fingerprint.ofRun [asked])).toList =
      [.encode 0 0 (Fingerprint.ofRun [decoy]), .encode 1 0 (Fingerprint.ofRun [asked]),
        .encode (count + 2).toUInt32 (count + 2).toUInt32 (Fingerprint.ofRun [asked])] := by
  have single (id : String) (symbol : Symbol) :
      filings 1 (single id symbol) = [(Fingerprint.ofRun [symbol], 0)] := rfl
  have none : ∀ t ∈ List.replicate count ({ id := "empty", symbols := #[] } : Text),
      filings 1 t = [] := by
    intro t member
    rw [List.eq_of_mem_replicate member]
    rfl
  have filed : numbered (filings 1) 0 (decoyCorpus count decoy blank asked) =
      (0, Fingerprint.ofRun [decoy], 0) :: (1, Fingerprint.ofRun [asked], 0) ::
        ((filings 1 (padded (count + 2) blank asked)).map fun x => (count + 2, x)) := by
    rw [decoyCorpus, numbered_cons, numbered_cons, behindEmpty, numbered_append,
      numbered_eq_nil none, List.nil_append, List.length_replicate, numbered_cons, single, single]
    simp [numbered, Nat.add_comm]
  rw [ofTexts, filed, PostingTable.toList_bin_pushAll, PostingTable.bin_empty, filings_padded]
  simp only [List.map_cons, List.map_append, List.map_map, List.filter_cons, List.filter_append,
    posting, same, List.filter_map, Function.comp_def]
  simp [other]

theorem getElem?_decoyCorpus :
    (decoyCorpus count decoy blank asked)[count + 2]? = some (padded (count + 2) blank asked) := by
  rw [decoyCorpus, List.getElem?_cons_succ, List.getElem?_cons_succ, behindEmpty,
    List.getElem?_append_right (by rw [List.length_replicate]), List.length_replicate,
    Nat.sub_self, List.getElem?_cons_zero]

/-- Where the fingerprints of two symbols differ by `binCount`, the decoy is read as the last window
of the corpus. So this window is reported before and after the one of the text of one symbol, and
that one is taken for one that goes back behind it. -/
theorem search_decoyCorpus
    (apart : Fingerprint.ofRun [decoy] ^^^ Fingerprint.ofRun [asked] = 0x100000)
    (same : binNumber (Fingerprint.ofRun [decoy]) = binNumber (Fingerprint.ofRun [asked]))
    (other : binNumber (Fingerprint.ofRun [blank]) ≠ binNumber (Fingerprint.ofRun [asked])) :
    let query := single "query" asked
    let last := padded (2 ^ 20) blank asked
    let report : Match := { a := ⟨query, 0, 1⟩, b := ⟨last, 2 ^ 20, 1⟩ }
    (ofTexts 1 (decoyCorpus (2 ^ 20 - 2) decoy blank asked)).search query = [report, report] := by
  intro query last report
  let corpus := decoyCorpus (2 ^ 20 - 2) decoy blank asked
  let hash := Fingerprint.ofRun [asked]
  let report? := (ofTexts 1 corpus).found? query 0 hash
  have atEnd : corpus[2 ^ 20]? = some last := getElem?_decoyCorpus
  have inside : 2 ^ 20 + 1 ≤ last.size := Nat.le_of_eq size_padded.symm
  have named : ∀ id, id ≠ "query" → ∀ symbols, ¬ Text.SameId { id, symbols } query :=
    fun _ different _ => different
  -- Unfolded by another fingerprint, the decoy is the last window.
  have decoyed : (PostedRun.encode 0 0 (Fingerprint.ofRun [decoy])).decode hash =
      (0x100000, 0x100000) := by
    rw [PostedRun.decode_encode, apart]
    rfl
  have reported₁ : report? (.encode 0 0 (Fingerprint.ofRun [decoy])) = some report :=
    found?_of_decode decoyed atEnd (named _ (by decide) _) inside run_padded
  have reported₃ : report? (.encode 0x100000 0x100000 hash) = some report :=
    found?_of_decode (PostedRun.decode_encode_self _ _ hash) atEnd (named _ (by decide) _) inside
      run_padded
  let number (p : PostedRun) : Nat := (p.decode hash).1.toNat
  have number₁ : number (.encode 0 0 (Fingerprint.ofRun [decoy])) = 2 ^ 20 := by
    simp only [number, decoyed]
    rfl
  have number₂ : number (.encode 1 0 hash) = 1 := by
    simp only [number, PostedRun.decode_encode_self]
    rfl
  have number₃ : number (.encode 0x100000 0x100000 hash) = 2 ^ 20 := by
    simp only [number, PostedRun.decode_encode_self]
    rfl
  have starts : query.starts 1 = [0] := rfl
  have asks : query.run 0 1 = [asked] := rfl
  have length : (ofTexts 1 corpus).length = 1 := rfl
  have bin : ((ofTexts 1 corpus).table.bin hash).toList =
      [.encode 0 0 (Fingerprint.ofRun [decoy]), .encode 1 0 hash,
        .encode 0x100000 0x100000 hash] := bin_decoyCorpus same other
  calc (ofTexts 1 corpus).search query
      = (ofTexts 1 corpus).searchAt query 0 := by
        show (query.starts 1).flatMap _ = _
        rw [starts, List.flatMap_singleton]
    _ = reportAscending number report? 0 ((ofTexts 1 corpus).table.bin hash).toList := by
        rw [searchAt_eq, length, asks]
    _ = [report, report] := by
        rw [bin, reportAscending_cons_of_le reported₁ (Nat.zero_le _), number₁,
          reportAscending_cons_of_lt (by rw [number₂]; decide),
          reportAscending_cons_of_le reported₃ (by rw [number₃])]
        rfl

/-- The windows that are shared with the corpus: that of the text of one symbol, and the last one of
the last text. -/
theorem sharedRuns_decoyCorpus (apart : decoy ≠ asked) (other : blank ≠ asked) :
    let query := single "query" asked
    let last := padded (count + 2) blank asked
    sharedRuns 1 (decoyCorpus count decoy blank asked) query =
      [{ a := ⟨query, 0, 1⟩, b := ⟨single "single" asked, 0, 1⟩ },
        { a := ⟨query, 0, 1⟩, b := ⟨last, count + 2, 1⟩ }] := by
  intro query last
  let found (t : Text) : List Match := (t.starts 1).filterMap (sharedRun? 1 query 0 t)
  have ofTexts (texts : List Text) : sharedRuns 1 texts query = texts.flatMap found :=
    List.flatMap_singleton ..
  have asks : query.run 0 1 = [asked] := rfl
  have named : ∀ id, id ≠ "query" → ∀ symbols, ¬ Text.SameId { id, symbols } query :=
    fun _ different _ => different
  have inDecoy : found (single "decoy" decoy) = [] := by
    have none : sharedRun? 1 query 0 (single "decoy" decoy) 0 = none :=
      if_neg fun h => apart (List.singleton_inj.mp h.2)
    show [0].filterMap (sharedRun? 1 query 0 (single "decoy" decoy)) = []
    rw [List.filterMap_cons_none none, List.filterMap_nil]
  have inSingle : found (single "single" asked) =
      [{ a := ⟨query, 0, 1⟩, b := ⟨single "single" asked, 0, 1⟩ }] := by
    have some : sharedRun? 1 query 0 (single "single" asked) 0 = some _ :=
      if_pos ⟨named _ (by decide) _, rfl⟩
    show [0].filterMap (sharedRun? 1 query 0 (single "single" asked)) = _
    rw [List.filterMap_cons_some some, List.filterMap_nil]
  have inLast : found last = [{ a := ⟨query, 0, 1⟩, b := ⟨last, count + 2, 1⟩ }] := by
    have some : sharedRun? 1 query 0 last (count + 2) = some _ :=
      if_pos ⟨named _ (by decide) _, run_padded⟩
    have none : (List.range (count + 2)).filterMap (sharedRun? 1 query 0 last) = [] := by
      rw [List.filterMap_eq_nil_iff]
      intro start member
      refine if_neg fun h => other ?_
      rw [run_padded_of_lt (List.mem_range.mp member)] at h
      exact List.singleton_inj.mp h.2
    show (last.starts 1).filterMap _ = _
    rw [starts_padded, List.filterMap_append, none, List.nil_append,
      List.filterMap_cons_some some, List.filterMap_nil]
  have behind := sharedRuns_behindEmpty Nat.one_pos count last query
  rw [ofTexts, ofTexts, List.flatMap_singleton, inLast] at behind
  rw [ofTexts, decoyCorpus, List.flatMap_cons, List.flatMap_cons, behind, inDecoy, inSingle]
  rfl

theorem length_decoyCorpus : (decoyCorpus count decoy blank asked).length = count + 3 := by
  rw [decoyCorpus, List.length_cons, List.length_cons, length_behindEmpty]

theorem holdable_decoyCorpus (few : count + 3 < Position.wordLimit) :
    Holdable (decoyCorpus count decoy blank asked) where
  length_le := by
    rw [length_decoyCorpus]
    exact Nat.le_of_lt few
  size_lt t member := by
    have one : 1 < Position.wordLimit := by decide
    rcases List.mem_cons.mp member with rfl | member
    · exact one
    · rcases List.mem_cons.mp member with rfl | member
      · exact one
      · rcases mem_behindEmpty member with empty | rfl
        · omega
        · rw [size_padded]
          exact few

end

/-- Of the two windows that the query shares with it, an index of more texts than there are bins,
one of them longer than that, reports one twice and the other one not at all. -/
theorem search_perform_of_decoy :
    let query := single "query" 136
    let last := padded (2 ^ 20) 0 136
    let texts := decoyCorpus (2 ^ 20 - 2) 5664633 0 136
    let first : Match := { a := ⟨query, 0, 1⟩, b := ⟨single "single" 136, 0, 1⟩ }
    let second : Match := { a := ⟨query, 0, 1⟩, b := ⟨last, 2 ^ 20, 1⟩ }
    2 ^ 20 < texts.length ∧ last ∈ texts ∧ 2 ^ 20 < last.size ∧
      heldTexts (texts.map .add) = texts ∧ sharedRuns 1 texts query = [first, second] ∧
      ∃ ix, create 1 = .ok ix ∧
        ((texts.map IndexCall.add).foldl perform ix).search query = [second, second] := by
  intro query last texts first second
  have count : texts.length = 2 ^ 20 - 2 + 3 := length_decoyCorpus
  have size : last.size = 2 ^ 20 + 1 := size_padded
  have holdable : Holdable texts := holdable_decoyCorpus (by decide)
  have held := holdable.heldTexts_map_add
  refine ⟨by omega, List.mem_of_getElem? getElem?_decoyCorpus, by omega, held,
    sharedRuns_decoyCorpus (by decide) (by decide), { length := 1 }, rfl, ?_⟩
  rw [perform_eq_ofTexts, held]
  exact search_decoyCorpus (by decide) (by decide) (by decide)

end SharedRuns.RunIndex
