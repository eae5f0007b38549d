import SharedRuns.Json.Reader
import SharedRuns.Json.Value
import SharedRuns.Proofs.Checked
import SharedRuns.Proofs.Json.Tokens

/-!
# Objects that are read back

An object of texts and numbers is read back from each of its two layouts, on one line and with one
member on each line (`read?_compact`, `read?_pretty`). Both are one layout that differs in the
blanks before a member, behind a colon and before the closing brace.
-/

namespace SharedRuns.Json

variable {lead gap trail rest : List Char} {c : Char} {field : String × Scalar}
  {fields : List (String × Scalar)}

/-- The member of an object that a field is written as. -/
def memberOf (field : String × Scalar) : Option String × Value := (some field.1, field.2.value)

theorem skipBlanks_cons (noBlank : isBlank c = false) : skipBlanks (c :: rest) = c :: rest := by
  simp [skipBlanks, noBlank]

theorem skipBlanks_append (blanks : ∀ c ∈ lead, isBlank c) :
    skipBlanks (lead ++ rest) = skipBlanks rest :=
  List.dropWhile_append_of_pos blanks

/-- A value is read from its first character on, which is no blank. -/
theorem readValue_writeScalar (fuel : Nat) (scalar : Scalar) (ends : EndsNumber rest) :
    readValue (fuel + 1) (writeScalar scalar ++ rest) = some (scalar.value, rest) := by
  cases scalar with
  | text s =>
      obtain ⟨body, written, read⟩ := exists_readString_writeString s
      rw [writeScalar, written, List.cons_append, readValue, read]
      rfl
  | nat n =>
      obtain ⟨d, ds, digit, written, read⟩ := exists_readNumber_toDigits n
      rw [writeScalar, written, List.cons_append, readValue, ← List.cons_append, read ends]
      · rfl
      all_goals
        intro _ same
        obtain ⟨first, -⟩ := List.cons.inj same
        exact ne_of_isDigit digit (by decide) first

theorem isBlank_of_isDigit (digit : c.isDigit) : isBlank c = false := by
  simp only [isBlank, Bool.or_eq_false_iff, decide_eq_false_iff_not]
  refine ⟨⟨⟨?_, ?_⟩, ?_⟩, ?_⟩
  all_goals
    rintro rfl
    exact absurd digit (by decide)

/-- No value starts with a blank. -/
theorem skipBlanks_writeScalar (scalar : Scalar) :
    skipBlanks (writeScalar scalar ++ rest) = writeScalar scalar ++ rest := by
  cases scalar with
  | text s => exact skipBlanks_cons rfl
  | nat n =>
      obtain ⟨d, ds, digit, written, -⟩ := exists_readNumber_toDigits n
      rw [writeScalar, written, List.cons_append]
      exact skipBlanks_cons (isBlank_of_isDigit digit)

theorem endsNumber_blanks (blanks : ∀ c ∈ trail, isBlank c) (ends : EndsNumber rest) :
    EndsNumber (trail ++ rest) := by
  cases trail with
  | nil => exact ends
  | cons blank others =>
      rintro c same
      obtain rfl : blank = c := Option.some.inj same
      have isOne := blanks blank List.mem_cons_self
      simp only [isBlank, Bool.or_eq_true, decide_eq_true_eq] at isOne
      obtain ((rfl | rfl) | rfl) | rfl := isOne <;> decide

/-- A member is read up to what stands behind its value. -/
theorem readMembers_writeMember (fuel : Nat) (gaps : ∀ c ∈ gap, isBlank c)
    (ends : EndsNumber rest) :
    readMembers (fuel + 2) (writeMember (':' :: gap) field ++ rest) =
      match skipBlanks rest with
      | '\x7d' :: rest => return ([memberOf field], rest)
      | ',' :: rest => do
        let (members, rest) ← readMembers (fuel + 1) (skipBlanks rest)
        return (memberOf field :: members, rest)
      | _ => none := by
  obtain ⟨body, written, read⟩ := exists_readString_writeString field.1
  have text : writeMember (':' :: gap) field ++ rest =
      '"' :: (body ++ ':' :: (gap ++ (writeScalar field.2 ++ rest))) := by
    simp [writeMember, written]
  rw [text, readMembers, read]
  simp only [Option.bind_eq_bind, Option.bind_some, skipBlanks_cons (c := ':') rfl,
    skipBlanks_append gaps, skipBlanks_writeScalar, readValue_writeScalar _ _ ends]
  rfl

/-- The members of an object, from the first key to the closing brace. -/
def membersText (lead gap trail : List Char) (field : String × Scalar) :
    List (String × Scalar) → List Char
  | [] => writeMember (':' :: gap) field ++ (trail ++ ['\x7d'])
  | next :: fields =>
    writeMember (':' :: gap) field ++ (',' :: (lead ++ membersText lead gap trail next fields))

theorem exists_membersText_eq_quote_cons (lead gap trail : List Char) (field : String × Scalar)
    (fields : List (String × Scalar)) :
    ∃ body, membersText lead gap trail field fields = '"' :: body := by
  cases fields <;> exact ⟨_, rfl⟩

theorem lt_length_membersText (lead gap trail : List Char) (field : String × Scalar)
    (fields : List (String × Scalar)) :
    fields.length < (membersText lead gap trail field fields).length := by
  induction fields generalizing field with
  | nil =>
      simp only [membersText, List.length_append, List.length_cons, List.length_nil]
      omega
  | cons next fields ih =>
      have later := ih next
      simp only [membersText, List.length_append, List.length_cons]
      omega

theorem skipBlanks_membersText (leads : ∀ c ∈ lead, isBlank c) :
    skipBlanks (lead ++ (membersText lead gap trail field fields ++ rest)) =
      membersText lead gap trail field fields ++ rest := by
  obtain ⟨body, text⟩ := exists_membersText_eq_quote_cons lead gap trail field fields
  rw [skipBlanks_append leads, text]
  exact skipBlanks_cons rfl

theorem readMembers_membersText (leads : ∀ c ∈ lead, isBlank c) (gaps : ∀ c ∈ gap, isBlank c)
    (trails : ∀ c ∈ trail, isBlank c) {fuel : Nat} (enough : fields.length + 2 ≤ fuel) :
    readMembers fuel (membersText lead gap trail field fields ++ rest) =
      some ((field :: fields).map memberOf, rest) := by
  obtain ⟨fuel, rfl⟩ : ∃ few, fuel = few + 2 := ⟨fuel - 2, by omega⟩
  induction fields generalizing field fuel with
  | nil =>
      have closes : EndsNumber ('\x7d' :: rest) := by
        rintro c ⟨⟩
        decide
      rw [membersText, List.append_assoc, List.append_assoc, List.singleton_append,
        readMembers_writeMember fuel gaps (endsNumber_blanks trails closes),
        skipBlanks_append trails, skipBlanks_cons rfl]
      rfl
  | cons next fields ih =>
      have goesOn (cs : List Char) : EndsNumber (',' :: cs) := by
        rintro c ⟨⟩
        decide
      obtain ⟨fuel, rfl⟩ : ∃ few, fuel = few + 1 := ⟨fuel - 1, by simp at enough; omega⟩
      rw [membersText, List.append_assoc, List.cons_append,
        readMembers_writeMember _ gaps (goesOn _), skipBlanks_cons rfl]
      simp only [List.append_assoc, skipBlanks_membersText leads]
      rw [ih _ (by simp at enough; omega)]
      rfl

/-- An object with the same blanks before each member, behind each colon and before the brace. -/
def layOut (lead gap trail : List Char) (fields : List (String × Scalar)) : List Char :=
  '\x7b' ::
    List.intercalate [','] (fields.map fun field => lead ++ writeMember (':' :: gap) field) ++
    (trail ++ ['\x7d'])

theorem intercalate_writeMember (field : String × Scalar) (fields : List (String × Scalar)) :
    List.intercalate [','] ((field :: fields).map fun field =>
      lead ++ writeMember (':' :: gap) field) ++ (trail ++ ['\x7d']) =
        lead ++ membersText lead gap trail field fields := by
  induction fields generalizing field with
  | nil => simp [membersText]
  | cons next fields ih =>
      have later := ih next
      rw [List.map_cons] at later
      rw [List.map_cons, List.map_cons, List.intercalate_cons_cons, membersText, List.append_assoc,
        later]
      simp

theorem layOut_cons (lead gap trail : List Char) (field : String × Scalar)
    (fields : List (String × Scalar)) :
    layOut lead gap trail (field :: fields) =
      '\x7b' :: (lead ++ membersText lead gap trail field fields) := by
  rw [layOut, List.cons_append, intercalate_writeMember]

theorem length_le_length_layOut (lead gap trail : List Char) (fields : List (String × Scalar)) :
    fields.length ≤ (layOut lead gap trail fields).length := by
  cases fields with
  | nil => exact Nat.zero_le _
  | cons field fields =>
      have many := lt_length_membersText lead gap trail field fields
      simp only [layOut_cons, List.length_cons, List.length_append]
      omega

theorem readValue_layOut (leads : ∀ c ∈ lead, isBlank c) (gaps : ∀ c ∈ gap, isBlank c)
    (trails : ∀ c ∈ trail, isBlank c) {fuel : Nat} (enough : fields.length + 1 ≤ fuel) :
    readValue (fuel + 1) (layOut lead gap trail fields ++ rest) =
      some (.object (fields.map memberOf), rest) := by
  cases fields with
  | nil =>
      have text : layOut lead gap trail [] ++ rest = '\x7b' :: (trail ++ '\x7d' :: rest) := by
        simp [layOut]
      rw [text, readValue, skipBlanks_append trails, skipBlanks_cons rfl]
      rfl
  | cons field fields =>
      obtain ⟨body, key⟩ := exists_membersText_eq_quote_cons lead gap trail field fields
      have members : readMembers fuel ('"' :: (body ++ rest)) =
          some ((field :: fields).map memberOf, rest) := by
        rw [← List.cons_append, ← key]
        exact readMembers_membersText leads gaps trails enough
      rw [layOut_cons, List.cons_append, List.append_assoc, readValue,
        skipBlanks_membersText leads, key, List.cons_append]
      change (do
        let (members, rest) ← readMembers fuel ('"' :: (body ++ rest))
        return (Value.object members, rest)) = _
      rw [members]
      rfl

theorem readChars?_layOut (leads : ∀ c ∈ lead, isBlank c) (gaps : ∀ c ∈ gap, isBlank c)
    (trails : ∀ c ∈ trail, isBlank c) (fields : List (String × Scalar)) :
    readChars? (layOut lead gap trail fields) = some (.object (fields.map memberOf)) := by
  have enough : fields.length + 1 ≤ 2 * (layOut lead gap trail fields).length + 1 := by
    have := length_le_length_layOut lead gap trail fields
    omega
  have value : readValue (2 * (layOut lead gap trail fields).length + 1 + 1)
      (layOut lead gap trail fields ++ []) = some (.object (fields.map memberOf), []) :=
    readValue_layOut leads gaps trails enough
  rw [List.append_nil] at value
  have start : skipBlanks (layOut lead gap trail fields) = layOut lead gap trail fields :=
    skipBlanks_cons rfl
  rw [readChars?, start, value]
  rfl

theorem toList_compact (fields : List (String × Scalar)) :
    (compact fields).toList = layOut [] [] [] fields := by
  rw [compact, String.toList_ofList]
  rfl

theorem toList_pretty (fields : List (String × Scalar)) :
    (pretty fields).toList = layOut ['\n', ' ', ' '] [' '] ['\n'] fields := by
  rw [pretty, String.toList_ofList]
  rfl

theorem read?_compact (fields : List (String × Scalar)) :
    read? (compact fields) = some (.object (fields.map memberOf)) := by
  rw [read?, toList_compact]
  exact readChars?_layOut (by simp) (by simp) (by simp) fields

theorem read?_pretty (fields : List (String × Scalar)) :
    read? (pretty fields) = some (.object (fields.map memberOf)) := by
  rw [read?, toList_pretty]
  exact readChars?_layOut (by simp [isBlank]) (by simp [isBlank]) (by simp [isBlank]) fields

theorem visible_of_mem_writeMember :
    ∀ c ∈ writeMember [':'] field, 0x20 ≤ c.toNat := by
  intro c member
  rw [writeMember, List.mem_append, List.mem_append, List.mem_singleton] at member
  obtain (key | rfl) | value := member
  · exact visible_of_mem_writeString c key
  · decide
  · exact visible_of_mem_writeScalar c value

theorem visible_of_mem_membersText : ∀ c ∈ membersText [] [] [] field fields, 0x20 ≤ c.toNat := by
  induction fields generalizing field with
  | nil =>
      intro c member
      rw [membersText, List.nil_append, List.mem_append, List.mem_singleton] at member
      obtain inside | rfl := member
      · exact visible_of_mem_writeMember c inside
      · decide
  | cons next fields ih =>
      intro c member
      rw [membersText, List.nil_append, List.mem_append, List.mem_cons] at member
      obtain inside | rfl | later := member
      · exact visible_of_mem_writeMember c inside
      · decide
      · exact ih c later

/-- An object on one line has no control characters, a newline for one. -/
theorem visible_of_mem_compact : ∀ c ∈ (compact fields).toList, 0x20 ≤ c.toNat := by
  rw [toList_compact]
  cases fields with
  | nil => simp [layOut]
  | cons field fields =>
      rw [layOut_cons, List.nil_append, List.forall_mem_cons]
      exact ⟨by decide, visible_of_mem_membersText⟩

theorem Value.natBelow?_nat {limit n : Nat} (small : n < limit) :
    (nat n).natBelow? limit = some n :=
  if_pos small

theorem Value.lt_of_natBelow? {limit n : Nat} {value : Value}
    (read : value.natBelow? limit = some n) : n < limit := by
  cases value with
  | nat m =>
      rw [natBelow?] at read
      split at read
      · next small => exact Option.some.inj read ▸ small
      · cases read
  | _ => cases read

theorem membersOf_eq_nil {name : String} (absent : ∀ field ∈ fields, field.1 ≠ name) :
    membersOf name (fields.map memberOf) = [] := by
  rw [membersOf, List.filterMap_map, List.filterMap_eq_nil_iff]
  intro field member
  exact if_neg fun same => absent field member (Option.some.inj same)

theorem membersOf_of_mem (distinct : (fields.map Prod.fst).Nodup) (member : field ∈ fields) :
    membersOf field.1 (fields.map memberOf) = [field.2.value] := by
  induction fields with
  | nil => cases member
  | cons first rest ih =>
      rw [List.map_cons, List.nodup_cons] at distinct
      have step (name : String) : membersOf name ((first :: rest).map memberOf) =
          (if first.1 = name then [first.2.value] else []) ++
            membersOf name (rest.map memberOf) := by
        by_cases same : first.1 = name <;> simp [membersOf, memberOf, same]
      rw [step]
      rcases List.mem_cons.mp member with rfl | inRest
      · rw [if_pos rfl, membersOf_eq_nil, List.append_nil]
        rintro other member same
        exact distinct.1 (same ▸ List.mem_map_of_mem member)
      · have other : first.1 ≠ field.1 :=
          fun same => distinct.1 (same ▸ List.mem_map_of_mem inRest)
        rw [if_neg other, List.nil_append, ih distinct.2 inRest]

/-- An object that has each of a record's fields once is read as that record. -/
theorem fields?_object (unknown : Unknown) (distinct : (fields.map Prod.fst).Nodup) :
    fields? unknown (fields.map Prod.fst) (.object (fields.map memberOf)) =
      some (fields.map fun field => some field.2.value) := by
  have known : ((fields.map memberOf).all fun member =>
      admissible unknown (fields.map Prod.fst) member.1) = true := by
    simp only [List.all_map, List.all_eq_true, Function.comp, memberOf, admissible]
    intro field member
    simp [List.mem_map_of_mem (f := Prod.fst) member]
  rw [fields?, if_pos known, List.mapM_map]
  apply Checked.mapM_some
  intro field member
  rw [Function.comp_apply, membersOf_of_mem distinct member]

end SharedRuns.Json
