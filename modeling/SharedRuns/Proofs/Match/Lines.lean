import SharedRuns.Proofs.Json.Objects
import SharedRuns.Text.Description

/-!
# Records are read back from their lines

Each record is written on a line of its own, and no name, whatever its characters, brings a newline
or the end of its string into that line. Hence the output falls into the lines of its records at its
newlines, each line is read back as its record, and the output determines the records
(`Record.jsonLines_decodes`).
-/

namespace SharedRuns

/-- Lines that are each ended by a newline are found again at the newlines. -/
theorem splitOn_flatMap_newline {lines : List (List Char)} (plain : ∀ line ∈ lines, '\n' ∉ line) :
    (lines.flatMap (· ++ ['\n'])).splitOn '\n' = lines ++ [[]] := by
  have joined : lines.flatMap (· ++ ['\n']) = ['\n'].intercalate (lines ++ [[]]) := by
    clear plain
    induction lines with
    | nil => rfl
    | cons line rest ih =>
        rw [List.flatMap_cons, List.cons_append, List.intercalate_cons_of_ne_nil (by simp), ih]
  rw [joined, List.splitOn_intercalate]
  · intro line member
    rcases List.mem_append.mp member with inLines | last
    · exact plain line inLines
    · rw [List.mem_singleton.mp last]
      exact List.not_mem_nil
  · simp

namespace Record

variable {r : Record} {records : List Record}

/-- The numbers of a record are words of 64 bits. -/
structure InWords (r : Record) : Prop where
  offsetA : r.offsetA < Position.space
  lenA : r.lenA < Position.space
  offsetB : r.offsetB < Position.space
  lenB : r.lenB < Position.space

theorem read?_toJson (r : Record) :
    Json.read? r.toJson = some (.object (r.fields.map Json.memberOf)) :=
  Json.read?_compact r.fields

theorem newline_notMem_toJson (r : Record) : '\n' ∉ r.toJson.toList := by
  intro member
  have visible : 0x20 ≤ '\n'.toNat := Json.visible_of_mem_compact '\n' member
  revert visible
  decide

theorem ofValue?_object (words : r.InWords) :
    ofValue? (.object (r.fields.map Json.memberOf)) = some r := by
  have read : Json.fields? .refuse fieldNames (.object (r.fields.map Json.memberOf)) =
      some (r.fields.map fun field => some field.2.value) :=
    Json.fields?_object .refuse (show fieldNames.Nodup by decide)
  rw [ofValue?, read]
  simp [fields, fieldNames, Json.Scalar.value, Json.Value.text?, Json.Value.natBelow?_nat,
    words.offsetA, words.lenA, words.offsetB, words.lenB]

theorem ofJson?_toJson (words : r.InWords) : ofJson? r.toJson = some r := by
  rw [ofJson?, read?_toJson]
  exact ofValue?_object words

theorem toList_jsonLines (records : List Record) :
    (jsonLines records).toList = (records.map fun r => r.toJson.toList).flatMap (· ++ ['\n']) := by
  simp [jsonLines, String.toList_join, List.flatMap_map]

theorem splitOn_jsonLines (records : List Record) :
    (jsonLines records).toList.splitOn '\n' = (records.map fun r => r.toJson.toList) ++ [[]] := by
  rw [toList_jsonLines]
  apply splitOn_flatMap_newline
  intro line member
  obtain ⟨r, -, rfl⟩ := List.mem_map.mp member
  exact newline_notMem_toJson r

theorem count_newline_jsonLines (records : List Record) :
    (jsonLines records).toList.count '\n' = records.length := by
  rw [toList_jsonLines]
  induction records with
  | nil => rfl
  | cons r rest ih =>
      rw [List.map_cons, List.flatMap_cons, List.count_append, List.count_append, ih,
        List.count_eq_zero_of_not_mem (newline_notMem_toJson r), List.length_cons]
      exact Nat.add_comm 1 _

/-- What the lines of a text are read as, without the end behind the last newline. -/
def ofJsonLines (text : String) : List (Option Record) :=
  (text.toList.splitOn '\n').dropLast.map fun line => ofJson? (String.ofList line)

theorem ofJsonLines_jsonLines (words : ∀ r ∈ records, r.InWords) :
    ofJsonLines (jsonLines records) = records.map some := by
  rw [ofJsonLines, splitOn_jsonLines, List.dropLast_concat, List.map_map]
  apply List.map_congr_left
  intro r member
  rw [Function.comp_apply, String.ofList_toList, ofJson?_toJson (words r member)]

/-- Each record has a line of its own, ended by the only newline that belongs to it, and the line
holds an object of the six fields in their order, from which the record is read back. Hence other
records are written differently. Names may hold any characters. -/
theorem jsonLines_decodes (records : List Record) (words : ∀ r ∈ records, r.InWords) :
    (∃ lines : List String, lines.length = records.length ∧
      (jsonLines records).toList.splitOn '\n' = lines.map String.toList ++ [[]] ∧
      (jsonLines records).toList.count '\n' = lines.length ∧
      ∀ (i : Nat) r, records[i]? = some r → ∃ line, lines[i]? = some line ∧
        Json.read? line = some (.object [
          (some "text_a", .string r.textA), (some "offset_a", .nat r.offsetA),
          (some "len_a", .nat r.lenA), (some "text_b", .string r.textB),
          (some "offset_b", .nat r.offsetB), (some "len_b", .nat r.lenB)]) ∧
        ofJson? line = some r) ∧
    ∀ others : List Record, (∀ r ∈ others, r.InWords) → others ≠ records →
      jsonLines others ≠ jsonLines records := by
  refine ⟨⟨records.map toJson, List.length_map _, ?_, ?_, ?_⟩, ?_⟩
  · rw [splitOn_jsonLines, List.map_map]
    rfl
  · rw [count_newline_jsonLines, List.length_map]
  · intro i r there
    refine ⟨r.toJson, ?_, read?_toJson r, ofJson?_toJson (words r (List.mem_of_getElem? there))⟩
    rw [List.getElem?_map, there, Option.map_some]
  · intro others othersWords different same
    apply different
    have read := congrArg ofJsonLines same
    rw [ofJsonLines_jsonLines words, ofJsonLines_jsonLines othersWords] at read
    exact List.map_injective_iff.mpr (fun _ _ => Option.some.inj) read

/-- A record whose names hold quotes, backslashes, newlines, a control character, DEL and characters
beyond ASCII, before one whose name reads like the rest of a line. -/
theorem jsonLines_decodes_of_escapes :
    let awkward : Record := ⟨"a\"\\\n\x01\x7fé😀", 0xffffffffffffffff, 0, "", 1, 2⟩
    let crafty : Record := ⟨"a\",\"offset_a\":7\n", 3, 4, "b", 5, 6⟩
    awkward.InWords ∧ crafty.InWords ∧
      (jsonLines [awkward, crafty]).toList.count '\n' = 2 ∧
      (∃ first second, ofJson? first = some awkward ∧ ofJson? second = some crafty ∧
        (jsonLines [awkward, crafty]).toList.splitOn '\n' =
          [first.toList, second.toList, []]) ∧
      jsonLines [crafty, awkward] ≠ jsonLines [awkward, crafty] := by
  intro awkward crafty
  have awkwardWords : awkward.InWords := ⟨by decide, by decide, by decide, by decide⟩
  have craftyWords : crafty.InWords := ⟨by decide, by decide, by decide, by decide⟩
  have words : ∀ r ∈ [awkward, crafty], r.InWords := by simp [awkwardWords, craftyWords]
  obtain ⟨⟨lines, two, split, newlines, read⟩, different⟩ :=
    jsonLines_decodes [awkward, crafty] words
  obtain ⟨first, second, rfl⟩ := List.length_eq_two.mp two
  obtain ⟨_, isFirst, -, readFirst⟩ := read 0 awkward rfl
  obtain ⟨_, isSecond, -, readSecond⟩ := read 1 crafty rfl
  obtain rfl := Option.some.inj isFirst
  obtain rfl := Option.some.inj isSecond
  refine ⟨awkwardWords, craftyWords, newlines, ⟨_, _, readFirst, readSecond, split⟩, ?_⟩
  refine different [crafty, awkward] (by simp [awkwardWords, craftyWords]) ?_
  decide

end Record

end SharedRuns
