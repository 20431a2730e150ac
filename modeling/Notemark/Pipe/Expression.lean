import Notemark.Text.Digit
import Notemark.Text.Search
import Notemark.Text.Surrogate

/-!
# Extract expressions

Older pipes select with expressions. Two forms are understood:

* `.name`, a field,
* `.tags[] | select(.[0] == "name") | .[index]`, a value of a tag.
-/

namespace Notemark.Pipe

/-- What an expression selects. The name of a tag is any string, and the index is given by its
digits, of which there may be more than a number can have. -/
inductive Expression where
  | field (name : Text)
  | tag (name : List Nat) (digits : Text)
  deriving Repr, DecidableEq

def isFieldHead (c : Char) : Bool := c.isAlpha || c == '_'

def isFieldChar (c : Char) : Bool := c.isAlphanum || c == '_'

def field? : Text → Option Text
  | '.' :: c :: cs => if isFieldHead c && cs.all isFieldChar then some (c :: cs) else none
  | _ => none

/-- The text behind some characters. -/
def after? (head t : Text) : Option Text :=
  if head.isPrefixOf t then some (t.drop head.length) else none

/-- The text behind the given pieces, with blanks allowed before each. -/
def afterAll? : List Text → Text → Option Text
  | [], t => some t
  | head :: heads, t => (after? head (Text.stripStart t)).bind (afterAll? heads)

/-- The name between quotation marks and the digits of the index. -/
def tagSelect? (t : Text) : Option (Text × Text) := do
  let t ← after? ".tags[]".toList t
  let t ← afterAll? ["|".toList, "select(".toList, ".[0]".toList, "==".toList, ['"']] t
  let name := t.takeWhile (· != '"')
  let t ← after? ['"'] (t.drop name.length)
  let t ← afterAll? [")".toList, "|".toList, ".[".toList] t
  let digits := t.takeWhile fun c => (Text.decimalValue? c).isSome
  if !digits.isEmpty && t.drop digits.length = [']'] then some (name, digits) else none

/-- The code points between the first two quotation marks. -/
def quotedName (codes : List Nat) : List Nat :=
  ((codes.dropWhile (· != '"'.toNat)).drop 1).takeWhile (· != '"'.toNat)

/-- Reads an expression by its code points; blanks around it do not count. -/
def Expression.ofCodes? (codes : List Nat) : Option Expression :=
  let t := Text.strip (Text.repaired codes)
  match field? t with
  | some name => some (.field name)
  | none => (tagSelect? t).map fun s => .tag (quotedName codes) s.2

end Notemark.Pipe
