/-!
# JSON values

The values that JSON text can write, as far as this library tells them apart. Of numbers it only
uses natural ones without sign, fraction or exponent; any other number is kept as `Value.numeral`.
A string may name half of a surrogate pair by an escape and then is no text; such a string is well
formed, so it is a value too, but it has no characters.

A record with named fields is an object, its fields in any order, or an array, its fields in their
order and trailing ones left out. No field may be given twice. Whether a member that is no field is
refused or passed over depends on the record.

Records of texts and numbers are written as objects, on one line without blanks or with one member
on each line. In a string a quote, a backslash and the control characters are escaped, the common
ones by a letter and the others by their number; all other characters stand for themselves.
-/

namespace SharedRuns.Json

/-- A JSON value; the members of an object in their order, and a key that is no text as `none`. -/
inductive Value where
  | null
  | bool (b : Bool)
  /-- A number written with digits alone. -/
  | nat (n : Nat)
  /-- A number written with a sign, a fraction or an exponent. -/
  | numeral
  /-- A string, or `none` if it is no text. -/
  | string (s : Option String)
  | array (items : List Value)
  | object (members : List (Option String × Value))

/-- What to do with a member that is no field of the record. -/
inductive Unknown where
  | refuse
  | pass
  deriving DecidableEq

/-- The members with a given key. -/
def membersOf (name : String) (members : List (Option String × Value)) : List Value :=
  members.filterMap fun (key, value) => if key = some name then some value else none

/-- Whether a member may stand in an object for a record with these fields. -/
def admissible (unknown : Unknown) (names : List String) (key : Option String) : Bool :=
  match key with
  | none => false
  | some key => unknown = .pass || names.contains key

/-- The fields of a record, each with its value if it is given. -/
def fields? (unknown : Unknown) (names : List String) : Value → Option (List (Option Value))
  | .object members =>
    if members.all fun member => admissible unknown names member.1 then
      names.mapM fun name =>
        match membersOf name members with
        | [] => some none
        | [value] => some (some value)
        | _ => none
    else none
  | .array items =>
    if items.length ≤ names.length then
      some (items.map some ++ List.replicate (names.length - items.length) none)
    else none
  | _ => none

namespace Value

/-- A natural number below `limit`. -/
def natBelow? (limit : Nat) : Value → Option Nat
  | .nat n => if n < limit then some n else none
  | _ => none

/-- The text of a string. -/
def text? : Value → Option String
  | .string s => s
  | _ => none

/-- A list of values that are read one by one. -/
def list? (read : Value → Option α) : Value → Option (List α)
  | .array items => items.mapM read
  | _ => none

/-- A field that may be left out or null. -/
def optional? (read : Value → Option α) : Option Value → Option (Option α)
  | none => some none
  | some .null => some none
  | some value => (read value).map some

/-- A field that may be left out, and then has a value of its own. -/
def orDefault? (read : Value → Option α) (fallback : α) : Option Value → Option α
  | none => some fallback
  | some value => read value

end Value

/-- What a written record has in its fields. -/
inductive Scalar where
  | text (s : String)
  | nat (n : Nat)
  deriving DecidableEq

/-- The value that a scalar is written as. -/
def Scalar.value : Scalar → Value
  | .text s => .string (some s)
  | .nat n => .nat n

/-- The hexadecimal digit of a number below 16. -/
def hexDigit (n : Nat) : Char := Nat.digitChar n

/-- A character as it is written in a string. -/
def writeChar (c : Char) : List Char :=
  if c = '"' then ['\\', '"']
  else if c = '\\' then ['\\', '\\']
  else if c = '\x08' then ['\\', 'b']
  else if c = '\x0c' then ['\\', 'f']
  else if c = '\n' then ['\\', 'n']
  else if c = '\r' then ['\\', 'r']
  else if c = '\t' then ['\\', 't']
  else if c.toNat < 0x20 then
    ['\\', 'u', '0', '0', hexDigit (c.toNat / 16), hexDigit (c.toNat % 16)]
  else [c]

/-- A string between its quotes. -/
def writeString (s : String) : List Char := '"' :: (s.toList.flatMap writeChar ++ ['"'])

/-- A scalar. -/
def writeScalar : Scalar → List Char
  | .text s => writeString s
  | .nat n => Nat.toDigits 10 n

/-- A member of an object, with `colon` between key and value. -/
def writeMember (colon : List Char) (field : String × Scalar) : List Char :=
  writeString field.1 ++ colon ++ writeScalar field.2

/-- An object on one line, without blanks. -/
def compact (fields : List (String × Scalar)) : String :=
  String.ofList
    ('\x7b' :: List.intercalate [','] (fields.map (writeMember [':'])) ++ ['\x7d'])

/-- An object with one member on each line. -/
def pretty (fields : List (String × Scalar)) : String :=
  String.ofList
    ('\x7b' :: List.intercalate [',']
      (fields.map fun field => ['\n', ' ', ' '] ++ writeMember [':', ' '] field) ++ ['\n', '\x7d'])

end SharedRuns.Json
