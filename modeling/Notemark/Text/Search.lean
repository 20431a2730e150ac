import Notemark.Text.Blank

/-!
# Searching text

* `distance c t`: how many characters stand before the first `c`,
* `distanceTo needle t`: how many stand before the first occurrence of a text,
* `cut?`: the text before and after the first occurrence,
* `splitOn`: the pieces between the occurrences of one character,
* `joinLines`: carriage return and line feed become one line feed.
-/

namespace Notemark.Text

/-- How many characters stand before the first `c`. -/
def distance (c : Char) : Text → Option Nat
  | [] => none
  | d :: ds => if d = c then some 0 else (distance c ds).map (· + 1)

/-- How many characters stand before the first occurrence of `needle`. -/
def distanceTo (needle : Text) : Text → Option Nat
  | [] => if needle.isEmpty then some 0 else none
  | d :: ds =>
    if needle.isPrefixOf (d :: ds) then some 0 else (distanceTo needle ds).map (· + 1)

/-- The text before and the text after the first occurrence of `needle`. -/
def cut? (needle t : Text) : Option (Text × Text) :=
  (distanceTo needle t).map fun n => (t.take n, t.drop (n + needle.length))

/-- How many characters are left on the line. -/
def lineLength (t : Text) : Nat := (distance '\n' t).getD t.length

/-- The rest of the line. -/
def line (t : Text) : Text := t.takeWhile (· != '\n')

/-- The pieces between the occurrences of `c`: always one more than there are occurrences. -/
def splitOn (c : Char) : Text → List Text
  | [] => [[]]
  | d :: ds =>
    if d = c then [] :: splitOn c ds
    else
      match splitOn c ds with
      | [] => [[d]]
      | p :: ps => (d :: p) :: ps

/-- A carriage return before a line feed is dropped; one that stands alone stays. -/
def joinLines : Text → Text
  | [] => []
  | '\r' :: '\n' :: cs => '\n' :: joinLines cs
  | c :: cs => c :: joinLines cs

/-- Every end of line, `\r\n`, `\r` or `\n`, becomes `\n`. -/
def unifyLines : Text → Text
  | [] => []
  | '\r' :: '\n' :: cs => '\n' :: unifyLines cs
  | '\r' :: cs => '\n' :: unifyLines cs
  | c :: cs => c :: unifyLines cs

/-- Replaces every occurrence of one character by a text. -/
def replaceChar (c : Char) (by_ : Text) (t : Text) : Text :=
  t.flatMap fun d => if d = c then by_ else [d]

end Notemark.Text
