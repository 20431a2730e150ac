import Notemark.Value.Basic

/-!
# Room for nested data

Nothing here limits how deep data is nested, but some of the work on it is done by recursion, and
what that work has room for is not decided here either. It is a parameter:

* `CallStack`: how deep recursive work can go,
* `Value.depth`: how deep collections are nested in a value,
* `CallStack.ofCalls`: the room that so many nested calls make, `CallStack.standard` with the usual
  number of them.
-/

namespace Notemark

/-- Where recursive work on nested data ends. -/
class CallStack where
  /-- The header blocks whose collections can be read. -/
  reads : Text → Bool
  /-- The mappings that can be copied. What stands in several places is copied once, so that more
  than the depth decides. -/
  copies : Value → Bool
  /-- Calls left for a step of a pipe: pipes inside pipes take some, and so does a message. -/
  pipes : Nat
  /-- Levels of collections that a message about an element can show. -/
  notes : Nat
  /-- Levels of collections that a report of issues can hold. -/
  reports : Nat
  /-- Levels of collections that a stored document can hold. -/
  documents : Nat

namespace Value

mutual

/-- How deep collections are nested in a value. A set holds only scalars and is no level. -/
def depth : Value → Nat
  | scalar _ | set _ | backRef _ => 0
  | list items | tuple items => depthItems items + 1
  | map _ entries => depthEntries entries + 1

def depthItems : List Value → Nat
  | [] => 0
  | v :: vs => max (depth v) (depthItems vs)

def depthEntries : List (Scalar × Value) → Nat
  | [] => 0
  | (_, v) :: es => max (depth v) (depthEntries es)

end

end Value

namespace CallStack

/-- How deep the brackets of a text are nested, given how many are open and the most so far. -/
def bracketDepth (opened most : Nat) : Text → Nat
  | [] => most
  | c :: cs =>
    if c = '[' || c = '\x7b' then bracketDepth (opened + 1) (max most (opened + 1)) cs
    else if c = ']' || c = '\x7d' then bracketDepth (opened - 1) most cs
    else bracketDepth opened most cs

/-- The room that so many nested calls make: a level takes one of them in a message or in written
text, and two where it is read or copied. -/
@[reducible] def ofCalls (calls : Nat) : CallStack where
  reads block := 2 * bracketDepth 0 0 block ≤ calls
  copies v := 2 * v.depth ≤ calls
  pipes := calls
  notes := calls
  reports := calls
  documents := calls

/-- A thousand calls, less those that lead to the work itself. -/
@[reducible] def standard : CallStack := ofCalls 970

namespace Standard

scoped instance : CallStack := standard

end Standard

end CallStack

end Notemark
