import Notemark.Batch.Job
import Notemark.Batch.Options
import Notemark.Document.Compile

/-!
# The stages of a batch

A batch compiles the sources in a directory, each to a file of its own.

* `State`: what the stages hand on,
* `Record`: what became of one source,
* `check`: finds the sources,
* `compileSource`, `compileSources`: compile and write them,
* `report`: tells what became of them,
* `pipeline`: the three stages in order.
-/

namespace Notemark.Batch

open Files (Directory Path)

/-- Why a source was not compiled. -/
inductive Trouble where
  | unreadable (reason : String)
  | scan (e : Body.ScanError)
  deriving Repr, DecidableEq

def Trouble.message : Trouble → String
  | unreadable reason => s!"Error reading input file: {reason}"
  | scan e => e.fault.message

/-- What became of one source: where it is, where its document goes and what went wrong. -/
structure Record where
  input : String
  output : String
  trouble : Option Trouble := none
  deriving Repr, DecidableEq

def Record.succeeded (r : Record) : Bool := r.trouble.isNone

structure State where
  inputFolder : String
  outputFolder : String
  /-- What is in the input directory, if there is one. -/
  input : Option Directory
  options : Options := {}
  settings : Settings := {}
  checked : Bool := false
  sources : List Path := []
  records : Option (List Record) := none

namespace State

/-- The pattern of sources, which is never empty. -/
def pattern (s : State) : Text :=
  match s.options.pattern with
  | some (c :: cs) => c :: cs
  | _ => s.settings.inputPattern.toList

def inputPath (s : State) (p : Path) : String := s!"{s.inputFolder}/{String.ofList p.text}"

/-- The file that a source is compiled to: only the last name of the source counts. -/
def outputFile (s : State) (p : Path) : String := s.settings.outputName p.name

def outputPath (s : State) (p : Path) : String := s!"{s.outputFolder}/{s.outputFile p}"

/-- How many sources were not compiled. -/
def failures (s : State) : Nat := ((s.records.getD []).filter fun r => !r.succeeded).length

end State

/-! ## Finding sources -/

def check (s : State) : Job State := do
  Job.trace 2 "Checking environment..."
  match s.input with
  | none => Job.giveUp s!"Error: Input directory not found: {s.inputFolder}"
  | some directory =>
    match Files.Pattern.ofText s.pattern with
    | .error f => throw (.pattern f)
    | .ok pattern =>
      let shown := String.ofList s.pattern
      match pattern.select directory with
      | [] => Job.giveUp s!"Error: No files matching '{shown}' in {s.inputFolder}"
      | sources =>
        Job.trace 2 s!"Found {sources.length} source file(s) matching '{shown}'"
        Job.emit [.madeFolder]
        Job.trace 2 s!"Output directory: {s.outputFolder}"
        return { s with sources, checked := true }

/-! ## Compiling -/

/-- The text of a source. -/
def readSource (s : State) (p : Path) : Except String Text :=
  match Text.ofUtf8 ((s.input.bind (·.read? p)).getD []) with
  | .ok t => .ok (Text.unifyLines t)
  | .error f => .error f.message

variable [CallStack]

/-- How documents are written. -/
def documentFormat (settings : Settings) : JsonFormat :=
  { indent := if settings.jsonIndent = 0 then none else some settings.jsonIndent.toNat
    asciiOnly := false, levels := CallStack.documents }

/-- Writes the text of a document. A file whose text has no form in bytes is left empty. -/
def store (name : String) (document : Value) (text : String) : Job Unit := do
  if document.isStorable then Job.emit [.wrote name (text ++ "\n")]
  else
    Job.emit [.wrote name ""]
    throw .encoding

/-- Compiles one source and writes its document. -/
def compileSource (s : State) (p : Path) : Job Record := do
  let record : Record := { input := s.inputPath p, output := s.outputPath p }
  match readSource s p with
  | .error reason => return { record with trouble := some (.unreadable reason) }
  | .ok source =>
    let settings :=
      { s.settings with validateOutput := s.options.validate || s.settings.validateOutput }
    let mode : Body.Mode := if s.options.lenient then .lenient else .strict
    match ← Job.ofRun (Document.compile settings mode source) with
    | .error (.scan e) => return { record with trouble := some (.scan e) }
    | .error f => throw (.document f)
    | .ok document =>
      match document.json (documentFormat s.settings) with
      | .error f => throw (.json f)
      | .ok text =>
        store (s.outputFile p) document text
        Job.trace 2 s!"Wrote {record.output}"
        return record

def compileAll (s : State) : List Path → Job (List Record)
  | [] => return []
  | p :: ps => do
    Job.trace 2 s!"Compiling {String.ofList p.name}"
    let record ← compileSource s p
    return record :: (← compileAll s ps)

def compileSources (s : State) : Job State := do
  Job.trace 1 "Compiling sources..."
  return { s with records := some (← compileAll s s.sources) }

/-! ## Reporting -/

def recordEvents (r : Record) : List Event :=
  match r.trouble with
  | none => [.note (.trace 1 s!"  ✓ {r.input} -> {r.output}")]
  | some trouble =>
    .complaint s!"Compile error in {r.input}: {trouble.message}" ::
      match trouble with
      | .unreadable _ => []
      | .scan e =>
        [.complaint (s!"  at line {e.position.line}, column {e.position.column} " ++
          s!"[{e.fault.code.text}]")]

def report (s : State) : Job State := do
  match s.records with
  | none => Job.giveUp "Error: Compilation did not run"
  | some records =>
    Job.emit (records.flatMap recordEvents)
    Job.trace 1 s!"\n{records.length - s.failures} compiled, {s.failures} failed"
    if s.failures = 0 then return s else throw (.exit 1)

/-- All stages in order. -/
def pipeline (s : State) : Job State := do report (← compileSources (← check s))

end Notemark.Batch
