import Notemark.Text.Quoted

/-!
# Strings with halves of surrogate pairs

An escape in header data can spell half of a surrogate pair. A string that holds one has code
points but no characters:

* `isSurrogate`: the code points of halves, `codes`: those of a text, which has none,
* `repaired`: the replacement character for each half, `lossy`: one for each byte of it,
* `spelled`: every half spelled by its number,
* `quotedCodes`: the same in quotation marks.
-/

namespace Notemark.Text

def isSurrogate (n : Nat) : Bool := 0xD800 ≤ n && n < 0xE000

/-- The code points of a text. -/
def codes (t : Text) : List Nat := t.map Char.toNat

/-- One character per code point, each half of a pair becoming the replacement character. -/
def repaired (codes : List Nat) : Text :=
  codes.map fun n => if isSurrogate n then Char.ofNat 0xFFFD else Char.ofNat n

/-- Each half of a pair becomes three replacement characters, one for each byte it would take. -/
def lossy (codes : List Nat) : Text :=
  codes.flatMap fun n =>
    if isSurrogate n then List.replicate 3 (Char.ofNat 0xFFFD) else [Char.ofNat n]

/-- Each half of a pair is spelled by its number. -/
def spelled (codes : List Nat) : Text :=
  codes.flatMap fun n => if isSurrogate n then '\\' :: 'u' :: hexDigits 4 n else [Char.ofNat n]

/-- Code points between marks, as messages show them. -/
def quotedCodes (codes : List Nat) : Text :=
  let t := repaired codes
  let mark := if t.contains '\'' && !t.contains '"' then '"' else '\''
  let one (n : Nat) : Text :=
    if isSurrogate n then '\\' :: 'u' :: hexDigits 4 n else escaped mark (Char.ofNat n)
  mark :: (codes.flatMap one ++ [mark])

end Notemark.Text
