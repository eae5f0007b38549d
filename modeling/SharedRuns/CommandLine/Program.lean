import SharedRuns.CommandLine.Invocation
import SharedRuns.Corpus
import SharedRuns.Engines
import SharedRuns.Preferences
import SharedRuns.Stencil
import SharedRuns.Text.Description

/-!
# The program

The whole program as a function: from the arguments and what its files hold to what it prints, how
it exits, and what it leaves in its preferences file. Only reading and writing themselves are left
outside.

A failure is reported by what was attempted and the chain of its causes. A single cause is indented;
several are numbered. Further lines of a cause are indented as far as its first one.
-/

namespace SharedRuns.CommandLine

/-- What failed, and its causes, the outermost first. -/
structure Report where
  summary : String
  causes : List String := []
  deriving DecidableEq

namespace Report

/-- A cause behind `start`, its further lines behind `indent`. -/
def causeText (start indent cause : String) : String :=
  "\n" ++ start ++ String.intercalate ("\n" ++ indent) (cause.splitOn "\n")

/-- What stands before a numbered cause. -/
def numberText (number : Nat) : String :=
  let digits := toString number
  "".pushn ' ' (5 - digits.length) ++ digits ++ ": "

/-- The causes behind the summary. -/
def causesText : List String → String
  | [] => ""
  | [cause] => "\n\nCaused by:" ++ causeText "    " "    " cause
  | causes =>
    "\n\nCaused by:" ++ String.join (causes.zipIdx.map fun (cause, number) =>
      causeText (numberText number) "       " cause)

/-- The report as it is printed. -/
def toText (r : Report) : String := "Error: " ++ r.summary ++ causesText r.causes ++ "\n"

end Report

/-- What the program finds when it is started. -/
structure Surroundings where
  /-- The content of a file, if it can be read. -/
  fileAt : String → Option String
  /-- The content of the preferences file, if there is one. -/
  preferencesFile : Option String
  preferencesPath : String
  processors : Nat
  /-- Whether the terminal shows colours. -/
  colors : Bool

/-- How the program exits. -/
inductive Exit where
  | success
  /-- It failed, and reports why. -/
  | failure (report : Report)
  /-- Its arguments could not be understood. -/
  | usage
  deriving DecidableEq

/-- The number under which an exit is known to the caller. -/
def Exit.code : Exit → Nat
  | .success => 0
  | .failure _ => 1
  | .usage => 2

/-- What a run of the program leaves behind. -/
structure Outcome where
  output : String
  exit : Exit
  /-- The new content of the preferences file, if it was written. -/
  saved : Option String := none
  deriving DecidableEq

/-- An outcome that is nothing but a failure. -/
def Outcome.failed (report : Report) : Outcome := { output := "", exit := .failure report }

/-- What the preferences file holds, or the defaults if it cannot be understood. -/
def Surroundings.preferences (s : Surroundings) : Preferences :=
  (Preferences.load s.preferencesFile).getD {}

/-- The texts of a corpus file. -/
def Surroundings.corpus (s : Surroundings) (path : String) : Except Report (List Text) :=
  match s.fileAt path with
  | none => .error { summary := "Failed to read corpus " ++ path }
  | some file =>
    match Corpus.ofFile file with
    | .ok texts => .ok texts
    | .error flaw => .error { summary := "In corpus " ++ path, causes := flaw.messages }

/-- The result of an engine, its fault reported under the engine's name. -/
def fromEngine (name : String) (result : Except Fault α) : Except Report α :=
  result.mapError fun fault => { summary := name ++ " engine failed", causes := [fault.message] }

/-- The gapped model of a size and a width. -/
def modelOf (size width : Nat) (sorted : Bool) : Except Report Stencil :=
  (Stencil.gapped size width sorted).mapError fun flaw =>
    { summary := "Cannot build stencils of " ++ toString size ++ " in " ++ toString width
      causes := [flaw.fault.message] }

/-- The records as the flags want them listed, in ascending order. -/
def listing (s : Surroundings) (flags : Flags) (records : List Record) : String :=
  let records := Record.sort records
  let colored := s.colors && !flags.noColor
  if flags.count then Listing.counts colored records
  else if flags.json then Record.jsonLines records
  else Listing.lines colored records

/-- The outcome of a command that lists records. -/
def listed (s : Surroundings) (flags : Flags) (records : Except Report (List Record)) : Outcome :=
  match records with
  | .ok records => { output := listing s flags records, exit := .success }
  | .error report => .failed report

/-- The number of differing keys that are shown of an engine. -/
def shownDifferences : Nat := 10

/-- A name in a column of its own. -/
def column (name : String) : String := name.pushn ' ' (6 - name.length)

/-- A key on which an engine and the reference differ. -/
def differenceLine (d : MatchMultiset.Difference) : String :=
  "  " ++ d.key.textA ++ ":" ++ toString d.key.offsetA ++ "  " ++ d.key.textB ++ ":" ++
    toString d.key.offsetB ++ "  " ++ toString d.mine ++ " vs " ++ toString d.theirs ++ "\n"

/-- What is said of an engine. -/
def verdictText (name : String) (v : Engines.Verdict) : String :=
  if v.agrees then column name ++ " agrees: " ++ toString v.matchCount ++ " matches\n"
  else
    column name ++ " DISAGREES: " ++ toString v.differences.length ++ " differing keys\n" ++
      String.join ((v.differences.take shownDifferences).map differenceLine)

/-- The outcome of comparing the engines on a corpus file. -/
def verified (path : String) (c : Engines.Comparison) : Outcome where
  output := verdictText "exact" c.online ++ verdictText "radix" c.radix ++
    column "slow" ++ " reference: " ++ toString c.referenceCount ++ " matches\n"
  exit :=
    if c.online.agrees && c.radix.agrees then .success
    else .failure { summary := "engines disagree on " ++ path }

/-- The outcome of showing the preferences, and of saving them if that is wanted. -/
def shown (s : Surroundings) (save : Bool) : Outcome :=
  let p := s.preferences
  { output := (if save then "Saved " else "Config file: ") ++ s.preferencesPath ++ "\n" ++
      p.file ++ "\nEffective workers: " ++ toString (p.workersOn s.processors) ++ "\n"
    exit := .success
    saved := if save then some p.file else none }

/-- Carries out a command. -/
def Invocation.run (s : Surroundings) (i : Invocation) : Outcome :=
  let p := s.preferences
  match i.command with
  | .exact path length => listed s i.flags do
    let texts ← s.corpus path
    fromEngine "exact" (Engines.runs texts (length.getD p.matchLength))
  | .stencil path size width sorted => listed s i.flags do
    let texts ← s.corpus path
    let model ← modelOf size width sorted
    fromEngine "stencil" (Engines.samples texts model)
  | .sharded path size width sorted workers => listed s i.flags do
    let texts ← s.corpus path
    let model ← modelOf size width sorted
    let settings := p.settings s.processors
    fromEngine "sharded" (Engines.sharded texts model
      { settings with workers := workers.getD settings.workers })
  | .radix path depth => listed s i.flags do
    let texts ← s.corpus path
    fromEngine "radix" (Engines.radix texts (depth.getD p.matchLength))
  | .slow path depth => listed s i.flags do
    let texts ← s.corpus path
    fromEngine "slow" (Engines.bruteForce texts (depth.getD p.matchLength))
  | .verify path length =>
    match s.corpus path with
    | .error report => .failed report
    | .ok texts =>
      match Engines.compare texts (length.getD p.matchLength) with
      | .error fault => .failed { summary := fault.message }
      | .ok comparison => verified path comparison
  | .config save => shown s save

/-- Runs the program. -/
def run (s : Surroundings) (args : List String) : Outcome :=
  match Invocation.ofArgs? args with
  | some invocation => invocation.run s
  | none => { output := "", exit := .usage }

/-- The messages that are logged unless the user says otherwise, as a filter for the log. -/
def logFilter (verbose : Bool) : String := if verbose then "lemmatch=debug" else "lemmatch=info"

end SharedRuns.CommandLine
