import SharedRuns.Basic

/-!
# Invocations

What the program is asked to do: a command with its arguments, and flags for all commands. The flags
may stand before the command, behind it, or both.

A level of the command line is a list of arguments of which some are options. A long option is
written `--name`, a short one `-n`; short options may be joined behind one dash. An option that
takes a value has it behind an equals sign, behind its letter, or in the next argument, which then
must not look like an option. Behind `--` nothing is an option. An option that is unknown, misses
its value, has one that it does not take, or is given twice is a usage error.
-/

namespace SharedRuns.CommandLine

/-- An option that a level knows. -/
structure OptionSpec where
  name : String
  letter : Option Char := none
  takesValue : Bool

/-- An option that was given. -/
structure Given where
  name : String
  value : Option String

/-- What has been read of a level. -/
structure Reading where
  given : List Given := []
  positionals : List String := []
  /-- The option whose value is the next argument. -/
  awaiting : Option String := none
  /-- Whether `--` was read. -/
  escaped : Bool := false

namespace Reading

/-- Whether an option was given. -/
def has (r : Reading) (name : String) : Bool := r.given.any fun g => g.name = name

/-- The value of an option, if it was given. -/
def value? (r : Reading) (name : String) : Option String := do
  (← r.given.find? fun g => g.name = name).value

/-- Takes an option. -/
def take (r : Reading) (name : String) (value : Option String) : Option Reading :=
  if r.has name then none else some { r with given := r.given ++ [{ name, value }] }

/-- Takes an option whose value is the next argument. -/
def await (r : Reading) (name : String) : Option Reading :=
  if r.has name then none else some { r with awaiting := some name }

/-- Reads a long option from behind its dashes. -/
def readLong (specs : List OptionSpec) (r : Reading) (chars : List Char) : Option Reading := do
  let name := String.ofList (chars.takeWhile (· ≠ '='))
  let spec ← specs.find? fun spec => spec.name = name
  match chars.dropWhile (· ≠ '='), spec.takesValue with
  | [], false => r.take name none
  | [], true => r.await name
  | _ :: value, true => r.take name (some (String.ofList value))
  | _ :: _, false => none

/-- Reads short options from behind their dash. -/
def readShort (specs : List OptionSpec) (r : Reading) : List Char → Option Reading
  | [] => some r
  | letter :: rest => do
    let spec ← specs.find? fun spec => spec.letter = some letter
    match spec.takesValue, rest with
    | false, rest => readShort specs (← r.take spec.name none) rest
    | true, [] => r.await spec.name
    | true, '=' :: value => r.take spec.name (some (String.ofList value))
    | true, value => r.take spec.name (some (String.ofList value))

/-- Whether an argument is not a positional one. -/
def looksLikeOption (arg : String) : Bool :=
  match arg.toList with
  | '-' :: _ :: _ => true
  | _ => false

/-- Reads one argument. -/
def step (specs : List OptionSpec) (r : Reading) (arg : String) : Option Reading :=
  match r.awaiting with
  | some name =>
    if looksLikeOption arg then none else { r with awaiting := none }.take name (some arg)
  | none =>
    if r.escaped then some { r with positionals := r.positionals ++ [arg] }
    else match arg.toList with
      | ['-', '-'] => some { r with escaped := true }
      | '-' :: '-' :: chars => readLong specs r chars
      | '-' :: c :: chars => readShort specs r (c :: chars)
      | _ => some { r with positionals := r.positionals ++ [arg] }

end Reading

/-- Reads a level to its end. -/
def readLevel (specs : List OptionSpec) (args : List String) : Option Reading := do
  let r ← args.foldlM (Reading.step specs) {}
  if r.awaiting.isSome then none else some r

/-- Reads a level of flags up to its first positional argument: the level, that argument, and what
follows it. -/
def readFlags (specs : List OptionSpec) (r : Reading) :
    List String → Option (Reading × String × List String)
  | [] => none
  | arg :: rest => do
    if Reading.looksLikeOption arg then
      let r ← r.step specs arg
      if r.escaped then none else readFlags specs r rest
    else some (r, arg, rest)

/-- A count in decimal digits, perhaps behind a plus sign, that a word can hold. -/
def readCount? (text : String) : Option Nat :=
  let digits := match text.toList with
    | '+' :: digits => digits
    | digits => digits
  if digits.isEmpty || digits.any (fun c => !c.isDigit) then none
  else
    let n := Nat.ofDigitChars 10 digits 0
    if n < Position.space then some n else none

/-- How the program is to report. -/
structure Flags where
  json : Bool
  count : Bool
  noColor : Bool
  verbose : Bool
  deriving DecidableEq

/-- What the program is to do. Counts that are left out are taken from the preferences. -/
inductive Command where
  | exact (corpus : String) (length : Option Nat)
  | stencil (corpus : String) (size width : Nat) (sorted : Bool)
  | sharded (corpus : String) (size width : Nat) (sorted : Bool) (workers : Option Nat)
  | radix (corpus : String) (depth : Option Nat)
  | slow (corpus : String) (depth : Option Nat)
  | verify (corpus : String) (length : Option Nat)
  | config (save : Bool)
  deriving DecidableEq

/-- A command with the flags given for it. -/
structure Invocation where
  flags : Flags
  command : Command
  deriving DecidableEq

/-- The flags for all commands. -/
def flagSpecs : List OptionSpec :=
  [{ name := "json", takesValue := false },
    { name := "count", letter := some 'c', takesValue := false },
    { name := "no-color", takesValue := false },
    { name := "verbose", letter := some 'v', takesValue := false }]

/-- An option for the length of matches. -/
def lengthSpec : OptionSpec := { name := "length", letter := some 'l', takesValue := true }

/-- An option for the depth of a sort. -/
def depthSpec : OptionSpec := { name := "depth", letter := some 'd', takesValue := true }

/-- The options for stencil models. -/
def stencilSpecs : List OptionSpec :=
  [{ name := "size", takesValue := true }, { name := "width", takesValue := true },
    { name := "sorted", takesValue := false }]

/-- The options of a command of its own, by the command's name. -/
def commandSpecs : String → Option (List OptionSpec)
  | "exact" | "verify" => some [lengthSpec]
  | "radix" | "slow" => some [depthSpec]
  | "stencil" => some stencilSpecs
  | "sharded" =>
    some (stencilSpecs ++ [{ name := "workers", letter := some 'w', takesValue := true }])
  | "config" => some [{ name := "save", takesValue := false }]
  | _ => none

namespace Reading

/-- The one positional argument, the path of the corpus. -/
def corpus? (r : Reading) : Option String :=
  match r.positionals with
  | [path] => if path.isEmpty then none else some path
  | _ => none

/-- A count that may be left out. -/
def count? (r : Reading) (name : String) : Option (Option Nat) :=
  match r.value? name with
  | none => some none
  | some text => (readCount? text).map some

/-- A count that must be given. -/
def required? (r : Reading) (name : String) : Option Nat := do
  readCount? (← r.value? name)

/-- The command of a level. -/
def command? (r : Reading) : String → Option Command
  | "exact" => do return .exact (← r.corpus?) (← r.count? "length")
  | "verify" => do return .verify (← r.corpus?) (← r.count? "length")
  | "radix" => do return .radix (← r.corpus?) (← r.count? "depth")
  | "slow" => do return .slow (← r.corpus?) (← r.count? "depth")
  | "stencil" => do
    return .stencil (← r.corpus?) (← r.required? "size") (← r.required? "width") (r.has "sorted")
  | "sharded" => do
    return .sharded (← r.corpus?) (← r.required? "size") (← r.required? "width") (r.has "sorted")
      (← r.count? "workers")
  | "config" => if r.positionals.isEmpty then some (.config (r.has "save")) else none
  | _ => none

end Reading

/-- The flags given on either of two levels. -/
def flagsOf (outer inner : Reading) : Flags :=
  let has (name : String) : Bool := outer.has name || inner.has name
  { json := has "json", count := has "count", noColor := has "no-color", verbose := has "verbose" }

/-- The invocation that arguments write; none if they are not used as they should. -/
def Invocation.ofArgs? (args : List String) : Option Invocation := do
  let (outer, name, rest) ← readFlags flagSpecs {} args
  let specs ← commandSpecs name
  let inner ← readLevel (flagSpecs ++ specs) rest
  return { flags := flagsOf outer inner, command := ← inner.command? name }

end SharedRuns.CommandLine
