import Notemark.Text.Blank
import Notemark.Text.Printable

/-!
# Quoted text

Text in quotation marks, as messages show it:

* `hexDigits`: a number in hexadecimal, padded with zeros,
* `escaped`: one character between quotation marks,
* `quoted`: single marks, or double ones around a text that holds a single mark and no double one.
-/

namespace Notemark.Text

/-- A number in lower-case hexadecimal with at least `width` digits. -/
def hexDigits (width n : Nat) : Text :=
  let ds := Nat.toDigits 16 n
  List.replicate (width - ds.length) '0' ++ ds

/-- A character between marks: unprintable ones are spelled by their code point. -/
def escaped (mark c : Char) : Text :=
  if c = mark || c = '\\' then ['\\', c]
  else if c = '\n' then ['\\', 'n']
  else if c = '\r' then ['\\', 'r']
  else if c = '\t' then ['\\', 't']
  else if isPrintable c then [c]
  else if c.toNat < 0x100 then '\\' :: 'x' :: hexDigits 2 c.toNat
  else if c.toNat < 0x10000 then '\\' :: 'u' :: hexDigits 4 c.toNat
  else '\\' :: 'U' :: hexDigits 8 c.toNat

def quoted (t : Text) : Text :=
  let mark := if t.contains '\'' && !t.contains '"' then '"' else '\''
  mark :: (t.flatMap (escaped mark) ++ [mark])

/-- Bytes between marks: the printable ASCII characters stand for themselves. -/
def quotedBytes (bytes : List UInt8) : Text :=
  let t : Text := bytes.map fun b => Char.ofNat b.toNat
  let mark := if t.contains '\'' && !t.contains '"' then '"' else '\''
  let one (c : Char) : Text :=
    if 0x7F ≤ c.toNat then '\\' :: 'x' :: hexDigits 2 c.toNat else escaped mark c
  'b' :: mark :: (t.flatMap one ++ [mark])

end Notemark.Text
