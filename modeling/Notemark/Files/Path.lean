import Notemark.Text.Search

/-!
# Paths

* `Path`: the names on the way from a directory to a file,
* `Path.ofText`, `Path.text`: paths and their written form,
* `Path.name`, `stem`: the last name, and a name without its suffix,
* `Path.before`: the order of paths, name by name.
-/

namespace Notemark.Files

/-- The names on the way from a directory to a file. -/
abbrev Path := List Text

namespace Path

/-- Names stand between slashes; empty names and single points do not count. -/
def ofText (t : Text) : Path := (Text.splitOn '/' t).filter fun name => name ≠ [] && name ≠ ['.']

def text (p : Path) : Text := List.intercalate ['/'] p

/-- The last name of a path. -/
def name (p : Path) : Text := p.getLast?.getD []

end Path

/-- Whether a name comes before another, or is the same: the first difference decides. -/
def nameBefore : Text → Text → Bool
  | [], _ => true
  | _ :: _, [] => false
  | c :: cs, d :: ds =>
    if c.toNat < d.toNat then true else if d.toNat < c.toNat then false else nameBefore cs ds

/-- Whether a path comes before another, or is the same: whole names are compared. -/
def Path.before : Path → Path → Bool
  | [], _ => true
  | _ :: _, [] => false
  | n :: ns, m :: ms => if n = m then Path.before ns ms else nameBefore n m

/-- A name without its suffix. A point at the beginning or at the end begins no suffix. -/
def stem (name : Text) : Text :=
  let suffix := name.reverse.takeWhile (· != '.')
  let rest := name.take (name.length - suffix.length - 1)
  if suffix.isEmpty || rest.isEmpty || suffix.length = name.length then name else rest

end Notemark.Files
