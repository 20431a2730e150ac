import Notemark.Text.Digit

/-!
# Sorts of failure

* `FaultKind`: what sort of failure a caller sees,
* `FaultKind.isReported`: which of them are reported with the note,
* `depthMessage`: the wording for data that is nested too deeply,
* `NoteFault`: why a message about a value cannot be put together.
-/

namespace Notemark

/-- Sorts of failure that are not breaches of a notation. -/
inductive FaultKind where
  | value
  | key
  | index
  | missing
  | range
  | type
  | unsupported
  /-- Data is nested more deeply than the call stack has room for. -/
  | depth
  deriving Repr, DecidableEq

/-- Failures that say what is wrong with the note, as opposed to failures of the work on it. -/
def FaultKind.isReported : FaultKind → Bool
  | value | key | type | depth => true
  | index | missing | range | unsupported => false

/-- What is said of data that is nested too deeply; what was being done with it is left out. -/
def depthMessage : String := "maximum recursion depth exceeded"

/-- Messages show values. One that holds a number with too many digits cannot be shown, and neither
can one that is nested too deeply. -/
inductive NoteFault where
  | digits
  | depth
  deriving Repr, DecidableEq

namespace NoteFault

def kind : NoteFault → FaultKind
  | digits => .value
  | depth => .depth

def message : NoteFault → String
  | digits => Text.longNumber
  | depth => depthMessage

end NoteFault

end Notemark
