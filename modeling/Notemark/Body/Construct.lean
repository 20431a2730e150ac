import Notemark.Body.Lookahead
import Notemark.Body.Token
import Notemark.Text.Blank

/-!
# Constructs in a text

What a scanner can tell from the text at its cursor before it takes anything:

* `Cursor`: an offset, with what a scanner has to know about the text before it,
* `plainRun`: plain text, up to the next character that may begin a construct,
* `endsSigns`: what makes number signs those of a heading,
* `styleClasses?`, `isReference`, `imageParts?`: the markers that a pattern describes,
* `lineAhead`, `tagEnd`: the ends that have to be looked for.
-/

namespace Notemark.Body

/-- A place in a text. -/
structure Cursor where
  offset : Nat := 0
  before : Option Char := none
  /-- Only spaces and tabs stand before the cursor on its line. -/
  fresh : Bool := true
  deriving Repr, DecidableEq

namespace Cursor

def step (k : Cursor) (c : Char) : Cursor :=
  { offset := k.offset + 1, before := some c, fresh := c == '\n' || (k.fresh && Text.isIndent c) }

def advance (k : Cursor) (t : Text) : Cursor := t.foldl step k

end Cursor

/-! ## Plain text -/

/-- The rest of a plain run. As long as only indentation has been read a heading may follow. -/
def runTail (indent : Bool) : Text → Text
  | [] => []
  | c :: cs =>
    if indent && c == '#' then []
    else if c == '\n' || c == '[' || c == '{' || c == '*' then []
    else if c == '!' && cs.head? == some '[' then []
    else c :: runTail (indent && Text.isIndent c) cs

/-- A plain run: its first character whatever it is, then up to the next special one. -/
def plainRun (k : Cursor) : Text → Text
  | [] => []
  | c :: cs => c :: runTail (Text.isIndent c && k.fresh) cs

/-! ## Headings -/

/-- Behind the number signs of a heading stands a space, a tab or nothing more on the line. -/
def endsSigns : Text → Bool
  | [] => true
  | c :: _ => c == ' ' || c == '\t' || c == '\n'

/-! ## Markers -/

/-- The beginning of a style marker. -/
def styleHead : Text := ['{', 'c', 'l', 'a', 's', 's', '=']

/-- The classes of a style marker: quoted, on one line, with the closing brace right behind. -/
def styleClasses? (rest : Text) : Option Text :=
  match rest.drop styleHead.length with
  | '"' :: t =>
    let classes := t.takeWhile fun c => c != '"' && c != '\n'
    if ['"', '}'].isPrefixOf (t.drop classes.length) then some classes else none
  | _ => none

/-- The text begins with the brace of a variable reference. -/
def isReference : Text → Bool
  | '{' :: t => referenceHeads.any fun head => head.isPrefixOf t
  | _ => false

/-- Description and source of an image, each on one line. -/
def imageParts? (rest : Text) : Option (Text × Text) :=
  let t := rest.drop 2
  let description := t.takeWhile fun c => c != ']' && c != '\n'
  match t.drop description.length with
  | ']' :: '(' :: u =>
    let source := u.takeWhile fun c => c != ')' && c != '\n'
    if (u.drop source.length).head? = some ')' then some (description, source) else none
  | _ => none

/-! ## Ends -/

section Ends

variable {m : Type → Type} [Monad m] [Lookahead m]

open Lookahead

/-- How many characters are left on the line that starts at the offset. -/
def lineAhead (offset : Nat) (t : Text) : m Nat := do
  return (← ahead '\n' offset t).getD t.length

/-- Looks for the first closing bracket outside double quotes, from a place `read` characters after
the opening bracket. If the quotes do not balance, the first closing bracket of all is taken. -/
def tagEndFrom (start : Nat) (all : Text) : Nat → Nat → Text → m (Option Nat)
  | 0, _, _ => return none
  | budget + 1, read, t => do
    let offset := start + 1 + read
    match ← ahead ']' offset t with
    | none => return none
    | some bracket =>
      match ← ahead '"' offset t with
      | none => return some (read + bracket)
      | some quote =>
        if bracket < quote then return some (read + bracket)
        else
          match ← ahead '"' (offset + quote + 1) (t.drop (quote + 1)) with
          | none => ahead ']' (start + 1) all
          | some size =>
            let used := quote + 1 + size + 1
            tagEndFrom start all budget (read + used) (t.drop used)

/-- How many characters stand between the opening bracket at `start` and the one that closes it,
in the text `t` after the opening bracket. -/
def tagEnd (start : Nat) (t : Text) : m (Option Nat) := tagEndFrom start t (t.length + 1) 0 t

end Ends

end Notemark.Body
