import Notemark.Document.Failure
import Notemark.Files.Pattern

/-!
# Jobs and what they leave behind

* `Event`: a note, a complaint, the making of the output directory, the writing of a file,
* `Stop`: why a job ends early,
* `Job`: a computation that leaves events behind, also when it ends early,
* `outputs`: the files that events have written, the last writing of each counting.
-/

namespace Notemark.Batch

inductive Event where
  | note (n : Note)
  /-- A line for the person at the terminal. -/
  | complaint (line : String)
  | madeFolder
  | wrote (name : String) (text : String)
  deriving Repr, DecidableEq

/-- Why a job ends early. -/
inductive Stop where
  | exit (code : Nat)
  | document (f : Document.Failure)
  /-- A document cannot be written down. -/
  | json (f : JsonFault)
  /-- The text of a document has no form in bytes. -/
  | encoding
  | pattern (f : Files.PatternFault)

/-- A value and the events on the way to it. -/
structure Traced (α : Type) where
  value : α
  events : List Event := []

instance : Monad Traced where
  pure a := { value := a }
  bind x f :=
    let y := f x.value
    { value := y.value, events := x.events ++ y.events }

/-- A computation that leaves events behind. -/
abbrev Job (α : Type) := ExceptT Stop Traced α

namespace Job

variable {α : Type}

def emit (events : List Event) : Job Unit := ExceptT.lift { value := (), events }

def trace (level : Nat) (text : String) : Job Unit := emit [.note (.trace level text)]

def complain (line : String) : Job Unit := emit [.complaint line]

/-- Ends with a code, after a last complaint. -/
def giveUp (line : String) : Job α := do
  complain line
  throw (.exit 1)

/-- The outcome of a run with its notes left behind. -/
def ofRun {ε : Type} (run : Run ε α) : Job (Except ε α) := do
  emit (run.notes.map .note)
  return run.outcome

def outcome (job : Job α) : Except Stop α := (ExceptT.run job).value

def events (job : Job α) : List Event := (ExceptT.run job).events

end Job

/-- The files of the output directory, if there is one. -/
abbrev Outputs := Option (List (String × String))

/-- Writes a file; one that is there is replaced. -/
def putFile (name text : String) : List (String × String) → List (String × String)
  | [] => [(name, text)]
  | (n, t) :: later => if n = name then (n, text) :: later else (n, t) :: putFile name text later

/-- What one event does to the output directory. -/
def Outputs.after (outputs : Outputs) : Event → Outputs
  | .madeFolder => some (outputs.getD [])
  | .wrote name text => outputs.map (putFile name text)
  | _ => outputs

/-- The output directory after some events. -/
def outputs (start : Outputs) (events : List Event) : Outputs := events.foldl Outputs.after start

def notes (events : List Event) : List Note :=
  events.filterMap fun e => match e with | .note n => some n | _ => none

/-- The complaints, a line each. -/
def complaints (events : List Event) : String :=
  String.join (events.filterMap fun e =>
    match e with
    | .complaint line => some (line ++ "\n")
    | _ => none)

end Notemark.Batch
