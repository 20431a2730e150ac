import Notemark.Body.Fault
import Notemark.Body.Token

/-!
# Tag stacks

* `OpenTag`: an opening tag that waits for its closing tag,
* `TagStack`: the open tags, innermost first,
* `TagStack.push`, `TagStack.pop`, `TagStack.finish`: the balance rules of strict reading.
-/

namespace Notemark.Body

/-- An open tag: what opened it, its name as written, and where its bracket stands. -/
structure OpenTag (κ : Type) where
  kind : κ
  name : Text
  position : Position
  deriving Repr, DecidableEq

/-- The open tags, innermost first. -/
abbrev TagStack (κ : Type) := List (OpenTag κ)

namespace TagStack

variable {κ : Type}

/-- Opens a tag, unless its name never takes a closing tag. -/
def push (stack : TagStack κ) (tag : OpenTag κ) : TagStack κ :=
  if selfClosing.contains tag.name then stack else tag :: stack

/-- Closes the innermost tag, which must be called `name`. -/
def pop (stack : TagStack κ) (name : Text) (position : Position) :
    Except ScanError (OpenTag κ × TagStack κ) :=
  match stack with
  | [] => .error ⟨.unmatchedClosingTag name, position⟩
  | top :: rest =>
    if top.name = name then .ok (top, rest)
    else .error ⟨.mismatchedTag name top.name top.position, position⟩

/-- At the end nothing may be open; the tag opened first is the one reported. -/
def finish (stack : TagStack κ) : Except ScanError Unit :=
  match stack.getLast? with
  | none => .ok ()
  | some oldest => .error ⟨.unclosedTag oldest.name, oldest.position⟩

end TagStack

end Notemark.Body
