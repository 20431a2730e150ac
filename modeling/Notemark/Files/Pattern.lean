import Notemark.Files.Directory
import Notemark.Text.Digit
import Notemark.Text.Quoted

/-!
# Patterns of paths

* `Glyph`: a piece of the pattern of a name, `matchesName`: the names it stands for,
* `Part`: the pattern of one name on a path, or of any number of directories,
* `Pattern.ofText`: the parts of a written pattern,
* `Pattern.select`: the paths in a directory that a pattern stands for.
-/

namespace Notemark.Files

/-! ## Names -/

/-- A piece of the pattern of a name. -/
inductive Glyph where
  | char (c : Char)
  | one
  | many
  /-- One character of some ranges, or of none of them. -/
  | range (negated : Bool) (ranges : List (Char × Char))
  deriving Repr, DecidableEq

/-- The ranges between brackets: a hyphen between two characters makes a range. -/
def ranges : Text → List (Char × Char)
  | low :: '-' :: high :: rest => (low, high) :: ranges rest
  | c :: rest => (c, c) :: ranges rest
  | [] => []

/-- The text between brackets and what follows, given what follows the opening one. A closing
bracket right at the beginning belongs to the text. -/
def bracketed? (t : Text) : Option (Bool × Text × Text) :=
  let (negated, t) := match t with | '!' :: rest => (true, rest) | t => (false, t)
  let (first, t) := match t with | ']' :: rest => ([']'], rest) | t => ([], t)
  (Text.cut? [']'] t).map fun c => (negated, first ++ c.1, c.2)

/-- The pieces of a pattern, given how many characters it may still take. -/
def glyphsFrom : Nat → Text → List Glyph
  | 0, _ => []
  | _, [] => []
  | budget + 1, c :: rest =>
    if c = '*' then .many :: glyphsFrom budget rest
    else if c = '?' then .one :: glyphsFrom budget rest
    else if c = '[' then
      match bracketed? rest with
      | some (negated, text, rest) => .range negated (ranges text) :: glyphsFrom budget rest
      | none => .char c :: glyphsFrom budget rest
    else .char c :: glyphsFrom budget rest

def glyphs (t : Text) : List Glyph := glyphsFrom t.length t

def inRange (c : Char) (r : Char × Char) : Bool := r.1.toNat ≤ c.toNat && c.toNat ≤ r.2.toNat

/-- A text and everything that it ends in. -/
def suffixes : Text → List Text
  | [] => [[]]
  | c :: cs => (c :: cs) :: suffixes cs

/-- Whether the pieces stand for the whole of a name. -/
def matchesName : List Glyph → Text → Bool
  | [], t => t.isEmpty
  | .many :: gs, t => (suffixes t).any (matchesName gs)
  | .char _ :: _, [] | .one :: _, [] | .range .. :: _, [] => false
  | .char c :: gs, d :: ds => c == d && matchesName gs ds
  | .one :: gs, _ :: ds => matchesName gs ds
  | .range negated rs :: gs, d :: ds => (rs.any (inRange d) != negated) && matchesName gs ds

/-! ## Paths -/

inductive Part where
  /-- A name as it stands. -/
  | name (t : Text)
  | wild (gs : List Glyph)
  /-- Any number of directories. -/
  | folders
  deriving Repr, DecidableEq

inductive PatternFault where
  | absolute
  | empty (text : Text)
  | stars
  deriving Repr, DecidableEq

def PatternFault.message : PatternFault → String
  | absolute => "Non-relative patterns are unsupported"
  | empty text => s!"Unacceptable pattern: {String.ofList (Text.quoted text)}"
  | stars => "Invalid pattern: '**' can only be an entire path component"

/-- A pattern of paths; it may ask for directories only. -/
structure Pattern where
  parts : List Part
  onlyFolders : Bool := false
  deriving Repr, DecidableEq

namespace Pattern

def isWild (t : Text) : Bool := t.any fun c => c == '*' || c == '?' || c == '['

def part (t : Text) : Except PatternFault Part :=
  if t = ['*', '*'] then .ok .folders
  else if (Text.distanceTo ['*', '*'] t).isSome then .error .stars
  else .ok (if isWild t then .wild (glyphs t) else .name t)

def ofText (t : Text) : Except PatternFault Pattern :=
  if t.head? = some '/' then .error .absolute
  else
    match Path.ofText t with
    | [] => .error (.empty t)
    | names => do
      return { parts := ← names.mapM part, onlyFolders := t.getLast? = some '/' }

/-- The paths that parts stand for, below a directory. A name before other parts has to be that of
a directory. -/
def selectFrom (d : Directory) : List Part → Path → List Path
  | [], p => [p]
  | part :: later, p =>
    let goesOn (q : Path) : Bool := later.isEmpty || d.isFolder q
    match part with
    | .name t =>
      let q := p ++ [t]
      if (d.isFile q || d.isFolder q) && goesOn q then selectFrom d later q else []
    | .wild gs =>
      ((d.names p).filter fun t => matchesName gs t && goesOn (p ++ [t])).flatMap fun t =>
        selectFrom d later (p ++ [t])
    | .folders => (d.folders p).flatMap (selectFrom d later)

/-- The files of a directory that a pattern stands for, each once, in the order of paths. -/
def select (pattern : Pattern) (d : Directory) : List Path :=
  if pattern.onlyFolders then []
  else
    ((selectFrom d pattern.parts []).filter d.isFile).eraseDups.mergeSort Path.before

end Pattern

end Notemark.Files
