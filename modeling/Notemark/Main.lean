import Notemark.Batch.Stage
import Notemark.Settings.Load

/-!
# The command line

Compiles every source in a directory to a document in another. Directories, variables and streams
are handled here; everything else is decided by the modules this one imports.
-/

namespace Notemark.CommandLine

open Batch
open scoped CallStack.Standard

/-- The files below a directory, with their paths from it. -/
partial def readFiles (above : Files.Path) (entry : IO.FS.DirEntry) :
    IO (List (Files.Path × List UInt8)) := do
  let place := above ++ [entry.fileName.toList]
  if ← entry.path.isDir then
    let inside ← (← entry.path.readDir).toList.mapM (readFiles place)
    return inside.flatten
  else
    let bytes ← IO.FS.readBinFile entry.path
    return [(place, bytes.toList)]

/-- What is in a directory, if it is one. -/
def readFolder (folder : String) : IO (Option Files.Directory) := do
  match ← (IO.FS.realPath folder).toBaseIO with
  | .error _ => return none
  | .ok place =>
    if ← place.isDir then
      let files ← (← place.readDir).toList.mapM (readFiles [])
      return some ⟨files.flatten⟩
    else return none

/-- The variables that settings are taken from, in both spellings. -/
def readEnvironment : IO (List (Text × Text)) := do
  let lower := Settings.settingKinds.map fun s => String.ofList Settings.marker ++ s.1
  let names := lower.map (·.map Char.toUpper) ++ lower
  let values ← names.mapM fun name => do
    return (← IO.getEnv name).map fun value => (name.toList, value.toList)
  return values.filterMap id

/-- A file of variables in the directory at hand. -/
def readEnvFile : IO (Option Text) := do
  try return some (← IO.FS.readFile ".env").toList catch _ => return none

/-- Carries out one event. -/
def perform (verbosity : Int) (outputFolder : String) : Event → IO Unit
  | .note n => do if n.shownAt verbosity then IO.eprintln s!"{n.severityText} │ {n.text}"
  | .complaint line => IO.eprintln line
  | .madeFolder => IO.FS.createDirAll outputFolder
  | .wrote name text => IO.FS.writeFile s!"{outputFolder}/{name}" text

/-- The last word on a run that ended early, and its code. -/
def conclude : Stop → IO UInt32
  | .exit code => return code.toUInt32
  | .document f => do IO.eprintln f.text; return 1
  | .json f => do IO.eprintln f.message; return 1
  | .encoding => do IO.eprintln "surrogates not allowed"; return 1
  | .pattern f => do IO.eprintln f.message; return 1

/-- Compiles the sources of one directory into another. -/
def runBatch (settings : Settings) (options : Options) (input output : String) : IO UInt32 := do
  let options := { options with verbosity := settings.verbosity options.verbosity }
  let state : State :=
    { inputFolder := input, outputFolder := output, input := ← readFolder input, options, settings }
  let job := pipeline state
  job.events.forM (perform options.verbosity output)
  match job.outcome with
  | .ok _ => return 0
  | .error stop => conclude stop

def usage : String :=
  "usage: hypernote [-h] [--pattern PATTERN] [--lenient] [--validate] [-v] [-V] inputdir outputdir"

/-- Answers a request under some settings. -/
def answer (settings : Settings) : Request → IO UInt32
  | .version => do IO.println versionLine; return 0
  | .help => do IO.println usage; return 0
  | .misuse => do IO.eprintln usage; return 2
  | .run options input output =>
    runBatch settings options (String.ofList input) (String.ofList output)

/-- Reads the settings and answers what the arguments ask for. -/
def run (arguments : List String) : IO UInt32 := do
  let given := Settings.gather [] (← readEnvironment) (← readEnvFile)
  match Settings.load given with
  | .error issues =>
    issues.forM fun i => IO.eprintln s!"{i.placeText}: {i.breach.message}"
    return 1
  | .ok settings => answer settings (Request.ofArguments (arguments.map String.toList))

end Notemark.CommandLine

def main (arguments : List String) : IO UInt32 := Notemark.CommandLine.run arguments
