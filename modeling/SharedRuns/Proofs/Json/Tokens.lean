import Mathlib.Data.List.Basic
import SharedRuns.Json.Reader
import SharedRuns.Json.Value

/-!
# Strings and numbers that are read back

A string is read back from what is written for it, whatever characters it has, and whatever stands
behind it (`exists_readString_writeString`). A number is read back from its digits if what stands
behind them cannot go on with it (`exists_readNumber_toDigits`). No written string or number has a
control character, a newline for one.
-/

namespace SharedRuns.Json

variable {c : Char} {cs rest : List Char}

theorem hexValue?_hexDigit : ∀ n < 16, hexValue? (hexDigit n) = some n := by decide

/-- A control character is written by its number. -/
theorem hexNumber?_of_control (control : c.toNat < 0x20) :
    hexNumber? '0' '0' (hexDigit (c.toNat / 16)) (hexDigit (c.toNat % 16)) = some c.toNat := by
  have zero : hexValue? '0' = some 0 := by decide
  have high := hexValue?_hexDigit (c.toNat / 16) (by omega)
  have low := hexValue?_hexDigit (c.toNat % 16) (by omega)
  simp only [hexNumber?, zero, high, low, Option.bind_eq_bind, Option.bind_some]
  congr 1
  omega

theorem ofCode_of_control (control : c.toNat < 0x20) : CharUnit.ofCode c.toNat = .char c := by
  have high : isHighSurrogate c.toNat = false := by simp [isHighSurrogate]; omega
  have low : isLowSurrogate c.toNat = false := by simp [isLowSurrogate]; omega
  rw [CharUnit.ofCode, high, low, Char.ofNat_toNat]
  rfl

/-- A character is written by a letter, by its number, or as itself. -/
inductive Written (c : Char) : List Char → Prop
  | letter {l : Char} : l ≠ 'u' → 0x20 ≤ l.toNat → escaped? l = some c → Written c ['\\', l]
  | number : c.toNat < 0x20 →
    Written c ['\\', 'u', '0', '0', hexDigit (c.toNat / 16), hexDigit (c.toNat % 16)]
  | itself : c ≠ '"' → c ≠ '\\' → 0x20 ≤ c.toNat → Written c [c]

theorem written_writeChar (c : Char) : Written c (writeChar c) := by
  unfold writeChar
  -- The quote, the backslash and five control characters are written by a letter.
  iterate 7
    split
    · next is =>
        subst is
        exact .letter (by decide) (by decide) rfl
  split
  · next control => exact .number control
  · next visible => exact .itself ‹_› ‹_› (Nat.le_of_not_lt visible)

/-- A written character is read as one unit. -/
theorem readUnits_of_written {written : List Char} (w : Written c written) (rest : List Char) :
    readUnits (written ++ rest) =
      (readUnits rest).map fun (units, rest) => (.char c :: units, rest) := by
  cases w with
  | @letter l plain _ escapes =>
      have step : readUnits ('\\' :: l :: rest) = do
          let c ← escaped? l
          let (units, rest) ← readUnits rest
          return (.char c :: units, rest) := by
        rw [readUnits]
        exact fun a b c d rest isU _ => plain isU
      rw [List.cons_append, List.singleton_append, step, escapes]
      cases readUnits rest <;> rfl
  | number control =>
      simp only [List.cons_append, List.nil_append, readUnits, hexNumber?_of_control control,
        Option.bind_eq_bind, Option.bind_some, ofCode_of_control control]
      cases readUnits rest <;> rfl
  | itself noQuote noBackslash visible =>
      have plain : ¬ (c = '\\' ∨ isControl c) := by simp [isControl, noBackslash, visible]
      rw [List.singleton_append, readUnits, if_neg plain]
      · cases readUnits rest <;> rfl
      · exact noQuote
      · exact fun _ _ _ _ _ backslash _ => noBackslash backslash
      · exact fun _ _ backslash _ => noBackslash backslash

theorem readUnits_flatMap (cs rest : List Char) :
    readUnits (cs.flatMap writeChar ++ '"' :: rest) = some (cs.map .char, rest) := by
  induction cs with
  | nil => rw [List.flatMap_nil, List.nil_append, readUnits, List.map_nil]
  | cons c cs ih =>
      rw [List.flatMap_cons, List.append_assoc, readUnits_of_written (written_writeChar c), ih]
      rfl

theorem textOfUnits_map_char (cs : List Char) : textOfUnits (cs.map .char) = some cs := by
  induction cs with
  | nil => rfl
  | cons c cs ih => rw [List.map_cons, textOfUnits, ih, Option.map_some]

/-- A written string begins with a quote, and from there on it is read back. -/
theorem exists_readString_writeString (s : String) :
    ∃ body, writeString s = '"' :: body ∧
      ∀ rest, readString (body ++ rest) = some (some s, rest) := by
  refine ⟨_, rfl, fun rest => ?_⟩
  rw [List.append_assoc, readString, List.singleton_append, readUnits_flatMap]
  simp [textOfUnits_map_char]

/-- What stands behind a number cannot go on with it. -/
def EndsNumber (rest : List Char) : Prop :=
  ∀ c ∈ rest.head?, c.isDigit = false ∧ c ≠ '.' ∧ c ≠ 'e' ∧ c ≠ 'E'

theorem isDigit_of_mem_toDigits {n : Nat} : ∀ c ∈ Nat.toDigits 10 n, c.isDigit :=
  fun _ => Nat.isDigit_of_mem_toDigits (by decide) (by decide)

theorem toDigits_ne_nil (n : Nat) : Nat.toDigits 10 n ≠ [] :=
  List.ne_nil_of_length_pos Nat.length_toDigits_pos

/-- The digits of a number start with a zero only if there is no other. -/
theorem eq_nil_of_toDigits_eq_zero_cons {n : Nat} (zero : Nat.toDigits 10 n = '0' :: cs) :
    cs = [] := by
  induction n using Nat.strongRecOn generalizing cs with
  | ind n ih =>
      rcases Nat.lt_or_ge n 10 with single | several
      · rw [Nat.toDigits_of_lt_base single] at zero
        exact (List.cons.inj zero).2.symm
      · rw [Nat.toDigits_of_base_le (by decide) several] at zero
        cases front : Nat.toDigits 10 (n / 10) with
        | nil => exact absurd front (toDigits_ne_nil _)
        | cons first others =>
            rw [front] at zero
            obtain ⟨rfl, -⟩ := List.cons.inj zero
            obtain rfl := ih (n / 10) (by omega) front
            have value := Nat.ofDigitChars_toDigits (n := n / 10) (by decide : 1 < 10) (by decide)
            rw [front] at value
            have : Nat.ofDigitChars 10 ['0'] 0 = 0 := by decide
            omega

theorem takeDigits_toDigits {n : Nat} (ends : EndsNumber rest) :
    takeDigits (Nat.toDigits 10 n ++ rest) = (Nat.toDigits 10 n, rest) := by
  rw [takeDigits, List.takeWhile_append_of_pos isDigit_of_mem_toDigits,
    List.dropWhile_append_of_pos isDigit_of_mem_toDigits]
  cases rest with
  | nil => rw [List.takeWhile_nil, List.append_nil, List.dropWhile_nil]
  | cons c cs =>
      obtain ⟨noDigit, -⟩ := ends c rfl
      have stops : ¬ c.isDigit = true := by simp [noDigit]
      rw [List.takeWhile_cons_of_neg stops, List.append_nil, List.dropWhile_cons_of_neg stops]

theorem readInteger_toDigits {n : Nat} (ends : EndsNumber rest) :
    readInteger (Nat.toDigits 10 n ++ rest) = some (n, rest) := by
  rw [readInteger, takeDigits_toDigits ends]
  split
  · next none => exact absurd (Prod.mk.inj none).1 (toDigits_ne_nil n)
  · next zero =>
      have := eq_nil_of_toDigits_eq_zero_cons (Prod.mk.inj zero).1
      cases this
  · next same =>
      obtain ⟨rfl, rfl⟩ := Prod.mk.inj same
      rw [Nat.ofDigitChars_toDigits (by decide) (by decide)]

theorem skipFraction_of_endsNumber (ends : EndsNumber rest) :
    skipFraction rest = some (false, rest) := by
  rw [skipFraction]
  rintro cs rfl
  exact (ends '.' rfl).2.1 rfl

theorem skipExponent_of_endsNumber (ends : EndsNumber rest) :
    skipExponent rest = some (false, rest) := by
  cases rest with
  | nil => rfl
  | cons c cs =>
      obtain ⟨-, -, lower, upper⟩ := ends c rfl
      exact if_neg (not_or_intro lower upper)

theorem readUnsigned_toDigits {n : Nat} (ends : EndsNumber rest) :
    readUnsigned (Nat.toDigits 10 n ++ rest) = some (.nat n, rest) := by
  rw [readUnsigned, readInteger_toDigits ends]
  simp [skipFraction_of_endsNumber ends, skipExponent_of_endsNumber ends]

theorem ne_of_isDigit {other : Char} (digit : c.isDigit) (noDigit : other.isDigit = false) :
    c ≠ other := by
  rintro rfl
  rw [noDigit] at digit
  cases digit

/-- A number begins with a digit, and from there on it is read back. -/
theorem exists_readNumber_toDigits (n : Nat) :
    ∃ d ds, d.isDigit ∧ Nat.toDigits 10 n = d :: ds ∧ ∀ {rest : List Char}, EndsNumber rest →
      readNumber (d :: ds ++ rest) = some (.nat n, rest) := by
  cases digits : Nat.toDigits 10 n with
  | nil => exact absurd digits (toDigits_ne_nil n)
  | cons d ds =>
      have digit : d.isDigit := isDigit_of_mem_toDigits (n := n) d (by simp [digits])
      refine ⟨d, ds, digit, rfl, fun {rest} ends => ?_⟩
      have unsigned : readNumber (d :: ds ++ rest) = readUnsigned (d :: ds ++ rest) := by
        rw [readNumber]
        intro cs same
        obtain ⟨minus, -⟩ := List.cons.inj same
        exact ne_of_isDigit digit (by decide) minus
      rw [unsigned, ← digits, readUnsigned_toDigits ends]

theorem visible_of_isDigit (digit : c.isDigit) : 0x20 ≤ c.toNat :=
  Nat.le_trans (by decide) (Char.isDigit_iff_toNat.mp digit).1

theorem visible_of_written {written : List Char} (w : Written c written) :
    ∀ c ∈ written, 0x20 ≤ c.toNat := by
  have hex : ∀ n < 16, 0x20 ≤ (hexDigit n).toNat := by decide
  cases w with
  | letter _ visible => simpa using visible
  | number control =>
      have high := hex (c.toNat / 16) (by omega)
      have low := hex (c.toNat % 16) (by omega)
      simpa using ⟨high, low⟩
  | itself _ _ visible => simpa using visible

theorem visible_of_mem_writeString {s : String} : ∀ c ∈ writeString s, 0x20 ≤ c.toNat := by
  intro c member
  simp only [writeString, List.mem_cons, List.mem_append, List.mem_flatMap, List.not_mem_nil,
    or_false] at member
  obtain rfl | ⟨origin, -, member⟩ | rfl := member
  · decide
  · exact visible_of_written (written_writeChar origin) c member
  · decide

theorem visible_of_mem_writeScalar {scalar : Scalar} :
    ∀ c ∈ writeScalar scalar, 0x20 ≤ c.toNat := by
  cases scalar with
  | text s => exact visible_of_mem_writeString
  | nat n => exact fun c member => visible_of_isDigit (isDigit_of_mem_toDigits c member)

end SharedRuns.Json
