import SharedRuns.CommandLine.Program

/-!
# The program's entry

Reads the files and the environment that the program may ask for, lets it run, and prints what it
has to say.
-/

namespace SharedRuns

/-- The content of a file, if it can be read as text. -/
def readFile? (path : String) : IO (Option String) := do
  try return some (← IO.FS.readFile path)
  catch _ => return none

/-- The directory of the program's data, if one can be told. -/
def dataDirectory? : IO (Option String) := do
  match ← IO.getEnv "XDG_DATA_HOME" with
  | some base => return some (base ++ "/lemmatch")
  | none => return (← IO.getEnv "HOME").map (· ++ "/.local/share/lemmatch")

/-- The content of the file that an invocation names, under its path. -/
def filesOf (args : List String) : IO (String → Option String) := do
  let files ← args.mapM fun path => do return (path, ← readFile? path)
  return fun path => do (← files.find? fun file => file.1 = path).2

/-- The number of processors that the system lists, or four if it lists none. -/
def processorCount : IO Nat := do
  let listed := (((← readFile? "/proc/cpuinfo").getD "").splitOn "\n").countP fun line =>
    "processor".toList.isPrefixOf line.toList
  return if listed = 0 then 4 else listed

/-- Whether the terminal shows colours, as far as the environment tells. -/
def showsColors : IO Bool := do
  match ← IO.getEnv "TERM" with
  | none => return false
  | some terminal => return terminal ≠ "dumb" && (← IO.getEnv "NO_COLOR").isNone

end SharedRuns

open SharedRuns in
/-- Runs the program on its arguments and exits as it says. -/
def main (args : List String) : IO UInt32 := do
  let some directory ← dataDirectory?
    | do
      IO.eprintln "Error: Could not determine app data directory"
      return 1
  let preferencesPath := directory ++ "/config.json"
  let surroundings : CommandLine.Surroundings :=
    { fileAt := ← filesOf args
      preferencesFile := ← readFile? preferencesPath
      preferencesPath
      processors := ← processorCount
      colors := ← showsColors }
  let outcome := CommandLine.run surroundings args
  IO.print outcome.output
  if let some content := outcome.saved then
    IO.FS.createDirAll directory
    IO.FS.writeFile preferencesPath content
  match outcome.exit with
  | .success => pure ()
  | .failure report => IO.eprint report.toText
  | .usage => IO.eprintln "error: the arguments are not those of any command"
  return outcome.exit.code.toUInt32
