import SharedRuns.Json.Value

/-!
# Reading JSON

Blanks, numbers and strings are read from the characters that are left, and give what was read with
what is left after it, or nothing if the text is not well formed there.

A text is read as one value with blanks around it. The reader goes through the text once; its
recursion is counted by `fuel`, and `read?` starts it with more than any text of that length needs.
-/

namespace SharedRuns.Json

/-- The characters that may stand between tokens. -/
def isBlank (c : Char) : Bool := c = ' ' || c = '\t' || c = '\n' || c = '\r'

/-- The text behind its leading blanks. -/
def skipBlanks (cs : List Char) : List Char := cs.dropWhile isBlank

/-- The longest front of digits, and the rest. -/
def takeDigits (cs : List Char) : List Char × List Char := (cs.takeWhile Char.isDigit,
  cs.dropWhile Char.isDigit)

/-- Skips a fraction, if there is one: whether there was, and the rest. -/
def skipFraction : List Char → Option (Bool × List Char)
  | '.' :: rest =>
    match takeDigits rest with
    | ([], _) => none
    | (_, rest) => some (true, rest)
  | rest => some (false, rest)

/-- Skips an exponent, if there is one: whether there was, and the rest. -/
def skipExponent : List Char → Option (Bool × List Char)
  | c :: rest =>
    if c = 'e' ∨ c = 'E' then
      let unsigned := match rest with
        | '+' :: rest | '-' :: rest => rest
        | rest => rest
      match takeDigits unsigned with
      | ([], _) => none
      | (_, rest) => some (true, rest)
    else some (false, c :: rest)
  | [] => some (false, [])

/-- Reads the digits before the point: one zero, or digits that do not start with zero. -/
def readInteger (cs : List Char) : Option (Nat × List Char) :=
  match takeDigits cs with
  | ([], _) => none
  | ('0' :: _ :: _, _) => none
  | (digits, rest) => some (Nat.ofDigitChars 10 digits 0, rest)

/-- Reads a number without sign. -/
def readUnsigned (cs : List Char) : Option (Value × List Char) := do
  let (n, rest) ← readInteger cs
  let (fraction, rest) ← skipFraction rest
  let (exponent, rest) ← skipExponent rest
  return (if fraction || exponent then .numeral else .nat n, rest)

/-- Reads a number. -/
def readNumber : List Char → Option (Value × List Char)
  | '-' :: rest => do return (.numeral, (← readUnsigned rest).2)
  | cs => readUnsigned cs

/-- One character of a string, or half of a surrogate pair. -/
inductive CharUnit where
  | char (c : Char)
  | surrogate (code : Nat)

/-- The value of a hexadecimal digit. -/
def hexValue? (c : Char) : Option Nat :=
  if '0' ≤ c ∧ c ≤ '9' then some (c.toNat - '0'.toNat)
  else if 'a' ≤ c ∧ c ≤ 'f' then some (c.toNat - 'a'.toNat + 10)
  else if 'A' ≤ c ∧ c ≤ 'F' then some (c.toNat - 'A'.toNat + 10)
  else none

/-- The number of four hexadecimal digits. -/
def hexNumber? (a b c d : Char) : Option Nat := do
  let a ← hexValue? a
  let b ← hexValue? b
  let c ← hexValue? c
  let d ← hexValue? d
  return ((a * 16 + b) * 16 + c) * 16 + d

/-- Whether a number of 16 bits is the first half of a surrogate pair. -/
def isHighSurrogate (code : Nat) : Bool := 0xd800 ≤ code && code < 0xdc00

/-- Whether a number of 16 bits is the second half of a surrogate pair. -/
def isLowSurrogate (code : Nat) : Bool := 0xdc00 ≤ code && code < 0xe000

/-- What a number of 16 bits stands for. -/
def CharUnit.ofCode (code : Nat) : CharUnit :=
  if isHighSurrogate code || isLowSurrogate code then .surrogate code else .char (Char.ofNat code)

/-- The character of an escape of one letter. -/
def escaped? : Char → Option Char
  | '"' => some '"'
  | '\\' => some '\\'
  | '/' => some '/'
  | 'b' => some '\x08'
  | 'f' => some '\x0c'
  | 'n' => some '\n'
  | 'r' => some '\r'
  | 't' => some '\t'
  | _ => none

/-- Whether a character must not stand in a string as it is. -/
def isControl (c : Char) : Bool := c.toNat < 0x20

/-- Reads a string from behind its opening quote to behind its closing one. -/
def readUnits : List Char → Option (List CharUnit × List Char)
  | [] => none
  | '"' :: rest => some ([], rest)
  | '\\' :: 'u' :: a :: b :: c :: d :: rest => do
    let code ← hexNumber? a b c d
    let (units, rest) ← readUnits rest
    return (.ofCode code :: units, rest)
  | '\\' :: c :: rest => do
    let c ← escaped? c
    let (units, rest) ← readUnits rest
    return (.char c :: units, rest)
  | c :: rest => do
    if c = '\\' ∨ isControl c then none
    else
      let (units, rest) ← readUnits rest
      return (.char c :: units, rest)

/-- The character of a surrogate pair. -/
def joinSurrogates (high low : Nat) : Char :=
  Char.ofNat (0x10000 + (high - 0xd800) * 0x400 + (low - 0xdc00))

/-- The characters of a string, if every surrogate in it is half of a pair. -/
def textOfUnits : List CharUnit → Option (List Char)
  | [] => some []
  | .char c :: rest => (textOfUnits rest).map (c :: ·)
  | .surrogate high :: .surrogate low :: rest =>
    if isHighSurrogate high ∧ isLowSurrogate low then
      (textOfUnits rest).map (joinSurrogates high low :: ·)
    else none
  | .surrogate _ :: _ => none

/-- Reads a string from behind its opening quote: its text, or `none` if it is no text. -/
def readString (cs : List Char) : Option (Option String × List Char) := do
  let (units, rest) ← readUnits cs
  return ((textOfUnits units).map String.ofList, rest)

mutual

/-- Reads a value that starts here. -/
def readValue : (fuel : Nat) → List Char → Option (Value × List Char)
  | 0, _ => none
  | _ + 1, 'n' :: 'u' :: 'l' :: 'l' :: rest => some (.null, rest)
  | _ + 1, 't' :: 'r' :: 'u' :: 'e' :: rest => some (.bool true, rest)
  | _ + 1, 'f' :: 'a' :: 'l' :: 's' :: 'e' :: rest => some (.bool false, rest)
  | _ + 1, '"' :: rest => do
    let (s, rest) ← readString rest
    return (.string s, rest)
  | fuel + 1, '[' :: rest =>
    match skipBlanks rest with
    | ']' :: rest => some (.array [], rest)
    | rest => do
      let (items, rest) ← readItems fuel rest
      return (.array items, rest)
  | fuel + 1, '\x7b' :: rest =>
    match skipBlanks rest with
    | '\x7d' :: rest => some (.object [], rest)
    | rest => do
      let (members, rest) ← readMembers fuel rest
      return (.object members, rest)
  | _ + 1, cs => readNumber cs

/-- Reads the items of an array from the start of one to behind the closing bracket. -/
def readItems : (fuel : Nat) → List Char → Option (List Value × List Char)
  | 0, _ => none
  | fuel + 1, cs => do
    let (item, rest) ← readValue fuel cs
    match skipBlanks rest with
    | ']' :: rest => return ([item], rest)
    | ',' :: rest =>
      let (items, rest) ← readItems fuel (skipBlanks rest)
      return (item :: items, rest)
    | _ => none

/-- Reads the members of an object from the start of one to behind the closing brace. -/
def readMembers : (fuel : Nat) → List Char → Option (List (Option String × Value) × List Char)
  | 0, _ => none
  | fuel + 1, '"' :: rest => do
    let (key, rest) ← readString rest
    match skipBlanks rest with
    | ':' :: rest =>
      let (value, rest) ← readValue fuel (skipBlanks rest)
      match skipBlanks rest with
      | '\x7d' :: rest => return ([(key, value)], rest)
      | ',' :: rest =>
        let (members, rest) ← readMembers fuel (skipBlanks rest)
        return ((key, value) :: members, rest)
      | _ => none
    | _ => none
  | _ + 1, _ => none

end

/-- The value that a text writes. -/
def readChars? (cs : List Char) : Option Value := do
  let (value, rest) ← readValue (2 * cs.length + 2) (skipBlanks cs)
  if (skipBlanks rest).isEmpty then some value else none

/-- The value that a text writes. -/
def read? (text : String) : Option Value := readChars? text.toList

end SharedRuns.Json
