/-!
# Blank characters

Text is a list of code points. This module holds

* `isBlank`: the characters that count as white space,
* `strip`, `stripStart`, `stripEnd`: text without blank ends,
* `words`: the maximal runs of non-blank characters.
-/

namespace Notemark

/-- Text as a sequence of code points: offsets, columns and lengths count these. -/
abbrev Text := List Char

namespace Text

/-- White space: the control characters that separate lines or records, and every code point that
is a space, line or paragraph separator. -/
def isBlank (c : Char) : Bool :=
  let n := c.toNat
  (9 ≤ n && n ≤ 13) || (28 ≤ n && n ≤ 32) || n == 0x85 || n == 0xA0 || n == 0x1680 ||
    (0x2000 ≤ n && n ≤ 0x200A) || n == 0x2028 || n == 0x2029 || n == 0x202F || n == 0x205F ||
    n == 0x3000

/-- Every character of the text is blank. -/
def allBlank (t : Text) : Bool := t.all isBlank

def stripStart (t : Text) : Text := t.dropWhile isBlank

def stripEnd (t : Text) : Text := (t.reverse.dropWhile isBlank).reverse

def strip (t : Text) : Text := stripEnd (stripStart t)

/-- Spaces and tabs, the characters of an indentation. -/
def isIndent (c : Char) : Bool := c == ' ' || c == '\t'

/-- The words of a text, given the letters of the word that is being read in reverse order. -/
def wordsFrom (current : Text) : Text → List Text
  | [] => if current.isEmpty then [] else [current.reverse]
  | c :: cs =>
    if isBlank c then
      if current.isEmpty then wordsFrom [] cs else current.reverse :: wordsFrom [] cs
    else wordsFrom (c :: current) cs

/-- The maximal runs of non-blank characters, in order. -/
def words (t : Text) : List Text := wordsFrom [] t

/-! ## Laws -/

theorem isBlank_of_isIndent {c : Char} (h : isIndent c = true) : isBlank c = true := by
  simp only [isIndent, Bool.or_eq_true, beq_iff_eq] at h
  rcases h with rfl | rfl <;> decide

theorem isBlank_newline : isBlank '\n' = true := by decide

end Text

end Notemark
