import SharedRuns.Preferences
import SharedRuns.Proofs.Json.Objects

/-!
# Preferences that are kept

Preferences are words of 64 bits, and those that are written to a file are read back from it. Since
whatever a file says is read as such words, a file that was loaded and saved is a fixed point: it
holds what was loaded, and loading and saving it again leaves it as it is (`load_file_stable`).
-/

namespace SharedRuns.Preferences

variable {p : Preferences} {text : String}

/-- The fields are words of 64 bits. -/
structure InWords (p : Preferences) : Prop where
  workers : p.workers < Position.space
  chunkSize : p.chunkSize < Position.space
  maxChain : p.maxChain < Position.space
  matchLength : p.matchLength < Position.space

theorem inWords_default : InWords {} := ⟨by decide, by decide, by decide, by decide⟩

theorem lt_of_field? {fallback n : Nat} {value : Option Json.Value}
    (small : fallback < Position.space) (read : field? fallback value = some n) :
    n < Position.space := by
  cases value with
  | none => exact Option.some.inj read ▸ small
  | some value => exact Json.Value.lt_of_natBelow? read

/-- Preferences are read as words. -/
theorem words_of_ofFile? (read : ofFile? text = some p) : p.InWords := by
  obtain ⟨value, -, read⟩ := Option.bind_eq_some_iff.mp read
  obtain ⟨fields, -, read⟩ := Option.bind_eq_some_iff.mp read
  split at read
  · obtain ⟨workers, readWorkers, read⟩ := Option.bind_eq_some_iff.mp read
    obtain ⟨chunkSize, readChunkSize, read⟩ := Option.bind_eq_some_iff.mp read
    obtain ⟨maxChain, readMaxChain, read⟩ := Option.bind_eq_some_iff.mp read
    obtain ⟨matchLength, readMatchLength, read⟩ := Option.bind_eq_some_iff.mp read
    obtain rfl := Option.some.inj read
    exact ⟨lt_of_field? inWords_default.workers readWorkers,
      lt_of_field? inWords_default.chunkSize readChunkSize,
      lt_of_field? inWords_default.maxChain readMaxChain,
      lt_of_field? inWords_default.matchLength readMatchLength⟩
  · cases read

theorem words_of_load {stored : Option String} (loaded : load stored = some p) : p.InWords := by
  cases stored with
  | none => exact Option.some.inj loaded ▸ inWords_default
  | some text => exact words_of_ofFile? loaded

/-- However its object is laid out, a text of all fields is read as the preferences. -/
theorem ofFile?_of_read? (words : p.InWords)
    (read : Json.read? text = some (.object (p.fields.map Json.memberOf))) :
    ofFile? text = some p := by
  have readFields : Json.fields? .pass fieldNames (.object (p.fields.map Json.memberOf)) =
      some (p.fields.map fun field => some field.2.value) :=
    Json.fields?_object .pass (show fieldNames.Nodup by decide)
  rw [ofFile?, read, Option.bind_eq_bind, Option.bind_some, readFields]
  simp [fields, fieldNames, field?, Json.Value.orDefault?, Json.Scalar.value,
    Json.Value.natBelow?_nat, words.workers, words.chunkSize, words.maxChain, words.matchLength]

theorem load_file (words : p.InWords) : load (some p.file) = some p :=
  ofFile?_of_read? words (Json.read?_pretty p.fields)

theorem load_compact (words : p.InWords) : load (some p.compact) = some p :=
  ofFile?_of_read? words (Json.read?_compact p.fields)

/-- Preferences that are saved are loaded again, whether their file has one line or one for each
field. Whatever is loaded, from any file or from none, is saved to a file that holds the same
preferences, and loading and saving that file leaves it as it is. -/
theorem load_file_stable :
    (∀ p : Preferences, p.InWords → load (some p.file) = some p ∧ load (some p.compact) = some p) ∧
    ∀ stored p, load stored = some p →
      load (some p.file) = load stored ∧ (load (some p.file)).map file = some p.file := by
  refine ⟨fun p words => ⟨load_file words, load_compact words⟩, fun stored p loaded => ?_⟩
  have again := load_file (words_of_load loaded)
  exact ⟨again.trans loaded.symm, congrArg (Option.map file) again⟩

/-- The largest and the smallest fields, a file that gives two fields the other way around and a
member that is none, and a file with an array of the first two fields. -/
theorem load_file_stable_of_forms :
    let extreme : Preferences := ⟨0xffffffffffffffff, 1, 0xffffffffffffffff, 0⟩
    let object := "\x7b\"max_chain\":7,\"a\":[],\"workers\":1\x7d"
    let array := "[3,4]"
    (extreme.InWords ∧ load (some extreme.file) = some extreme) ∧
    (load (some object) = some ⟨1, 16, 7, 6⟩ ∧
      load (some (file ⟨1, 16, 7, 6⟩)) = load (some object)) ∧
    load (some array) = some ⟨3, 4, 1000, 6⟩ ∧
      (load (some (file ⟨3, 4, 1000, 6⟩))).map file = some (file ⟨3, 4, 1000, 6⟩) := by
  intro extreme object array
  obtain ⟨written, stored⟩ := load_file_stable
  have words : extreme.InWords := ⟨by decide, by decide, by decide, by decide⟩
  have ofObject : load (some object) = some ⟨1, 16, 7, 6⟩ := by decide +kernel
  have ofArray : load (some array) = some ⟨3, 4, 1000, 6⟩ := by decide +kernel
  exact ⟨⟨words, (written extreme words).1⟩, ⟨ofObject, (stored _ _ ofObject).1⟩, ofArray,
    (stored _ _ ofArray).2⟩

end SharedRuns.Preferences
