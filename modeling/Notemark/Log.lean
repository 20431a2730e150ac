/-!
# Notes on a run

* `Severity`, `Note`: what a run has to say besides its result,
* `Note.shownAt`: whether a note is shown at a verbosity,
* `Logged`: a result together with the notes made on the way to it,
* `Run`: a logged computation that may fail, keeping the notes made before the failure.
-/

namespace Notemark

/-- Traces carry the verbosity from which on they are shown; warnings and errors always are. -/
inductive Severity where
  | trace (level : Nat)
  | warning
  | error
  deriving Repr, DecidableEq

structure Note where
  severity : Severity
  text : String
  deriving Repr, DecidableEq

namespace Note

def trace (level : Nat) (text : String) : Note := ⟨.trace level, text⟩

def warning (text : String) : Note := ⟨.warning, text⟩

def error (text : String) : Note := ⟨.error, text⟩

def shownAt (verbosity : Int) (note : Note) : Bool :=
  match note.severity with
  | .trace level => (level : Int) ≤ verbosity
  | .warning | .error => true

def severityText (note : Note) : String :=
  match note.severity with
  | .trace _ => "DEBUG"
  | .warning => "WARNING"
  | .error => "ERROR"

end Note

/-- A result and the notes made on the way, in order. -/
structure Logged (α : Type) where
  value : α
  notes : List Note := []
  deriving Repr

namespace Logged

instance : Monad Logged where
  pure a := { value := a }
  bind x f :=
    let y := f x.value
    { value := y.value, notes := x.notes ++ y.notes }

def tell (notes : List Note) : Logged Unit := { value := (), notes }

end Logged

/-- A logged computation that may fail. -/
abbrev Run (ε α : Type) := ExceptT ε Logged α

namespace Run

variable {ε α : Type}

def tell (notes : List Note) : Run ε Unit := ExceptT.lift (Logged.tell notes)

def trace (level : Nat) (text : String) : Run ε Unit := tell [.trace level text]

def warning (text : String) : Run ε Unit := tell [.warning text]

def error (text : String) : Run ε Unit := tell [.error text]

/-- The outcome of a computation. -/
def outcome (x : Run ε α) : Except ε α := (ExceptT.run x).value

/-- The notes of a computation, whether it fails or not. -/
def notes (x : Run ε α) : List Note := (ExceptT.run x).notes

/-- A computation that never fails. -/
def ofLogged (x : Logged α) : Run ε α := ExceptT.lift x

def ofExcept (x : Except ε α) : Run ε α := ExceptT.mk (pure x)

end Run

end Notemark
