import Notemark.Text.Search

/-!
# Header and body

A note may begin with a header: a block of data between two lines of hyphens.

* `opening`, `closing`: what stands before and behind the block,
* `split`: the block, if there is one, and the body.
-/

namespace Notemark.Header

/-- What a note with a header begins with. -/
def opening : Text := ['-', '-', '-', '\n']

/-- What ends the block; the rest of its line belongs to the body. -/
def closing : Text := ['\n', '-', '-', '-']

/-- The block and what follows the first closing, of a text whose lines end in a line feed. -/
def divide? (t : Text) : Option (Text × Text) :=
  if opening.isPrefixOf t then Text.cut? closing (t.drop opening.length) else none

/-- The block of a note, if it has one, and its body. The body behind a block is stripped; a note
without a block is all body. -/
def split (t : Text) : Option Text × Text :=
  let t := Text.joinLines t
  match divide? t with
  | some (block, rest) => (some block, Text.strip rest)
  | none => (none, t)

end Notemark.Header
