import Notemark.Text.Search

/-!
# Source positions

* `Position`: a line and a column, both counted from one,
* `SourceMap`: the offsets at which the lines of a text start,
* `SourceMap.position`: the position of an offset,
* `SourceMap.locate`: the same for offsets that may lie before the text.
-/

namespace Notemark.Body

structure Position where
  line : Nat
  column : Nat
  deriving Repr, DecidableEq, Inhabited

/-- The offsets of line starts, and the first offset that lies beyond the end of the text. -/
structure SourceMap where
  starts : List Nat
  finish : Nat
  deriving Repr, DecidableEq

namespace SourceMap

/-- The offsets just after the line feeds of a text that begins at `offset`. -/
def startsAfter (offset : Nat) : Text → List Nat
  | [] => []
  | c :: cs =>
    if c = '\n' then (offset + 1) :: startsAfter (offset + 1) cs else startsAfter (offset + 1) cs

def ofText (t : Text) : SourceMap :=
  { starts := 0 :: startsAfter 0 t, finish := t.length + 1 }

/-- Walks along the line starts as long as they do not pass the offset. -/
def positionFrom (line start offset : Nat) : List Nat → Position
  | [] => ⟨line, offset - start + 1⟩
  | next :: later =>
    if next ≤ offset then positionFrom (line + 1) next offset later
    else ⟨line, offset - start + 1⟩

/-- An offset beyond the end of the text counts as the start of its last line. -/
def position (m : SourceMap) (offset : Nat) : Position :=
  if m.finish ≤ offset then ⟨m.starts.length, 1⟩ else positionFrom 1 0 offset m.starts.tail

/-- Before the text, columns go on counting downward on the first line. -/
def locate (m : SourceMap) : Int → Nat × Int
  | .ofNat offset => let p := m.position offset; (p.line, p.column)
  | .negSucc n => (1, -n)

end SourceMap

end Notemark.Body
