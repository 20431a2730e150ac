import Notemark.Text.Search

/-!
# Tokens of a body

* `Container`: the bracket tags that enclose other blocks and have to be closed,
* `TagKind`: what a tag name stands for,
* `Attributes`: the attributes of a tag, each name once, in order of first appearance,
* `Token`: the pieces of a body, in source order.
-/

namespace Notemark.Body

/-- The tags that enclose blocks. -/
inductive Container where
  | form
  | div
  | button
  | span
  | each
  | cond
  deriving Repr, DecidableEq

namespace Container

/-- The name that opens and closes the container. -/
def name : Container → Text
  | form => ['f', 'o', 'r', 'm']
  | div => ['d', 'i', 'v']
  | button => ['b', 'u', 't', 't', 'o', 'n']
  | span => ['s', 'p', 'a', 'n']
  | each => ['e', 'a', 'c', 'h']
  | cond => ['i', 'f']

def all : List Container := [form, div, button, span, each, cond]

def ofName? (n : Text) : Option Container := all.find? fun c => c.name == n

end Container

/-- The name of the leaf that shows a variable as data. -/
def jsonName : Text := ['j', 's', 'o', 'n']

/-- What a tag name stands for: only containers need a closing tag. -/
inductive TagKind where
  | container (c : Container)
  | json
  | leaf
  deriving Repr, DecidableEq

namespace TagKind

def ofName (n : Text) : TagKind :=
  match Container.ofName? n with
  | some c => container c
  | none => if n = jsonName then json else leaf

def isContainer : TagKind → Bool
  | container _ => true
  | _ => false

def container? : TagKind → Option Container
  | container c => some c
  | _ => none

end TagKind

/-- Names of leaves that are never put on a tag stack. -/
def selfClosing : List Text :=
  [['i', 'm', 'g'], ['b', 'r'], ['h', 'r'], ['i', 'n', 'p', 'u', 't'], ['m', 'e', 't', 'a'],
    ['l', 'i', 'n', 'k']]

/-- What follows the opening brace of a variable reference. -/
def referenceHeads : List Text :=
  [['$'], ['u', 's', 'e', 'r', '.'], ['t', 'i', 'm', 'e', '.'], ['t', 'a', 'r', 'g', 'e', 't', '.'],
    ['f', 'o', 'r', 'm', '.']]

/-! ## Attributes -/

/-- Attribute names with their values; `set` keeps every name unique. -/
abbrev Attributes := List (Text × Text)

namespace Attributes

/-- A new name goes to the end; a known one keeps its place and takes the new value. -/
def set (name value : Text) : Attributes → Attributes
  | [] => [(name, value)]
  | (n, v) :: later => if n = name then (n, value) :: later else (n, v) :: set name value later

def get? (as : Attributes) (name : Text) : Option Text :=
  (as.find? fun a => a.1 == name).map (·.2)

def getD (as : Attributes) (name : Text) (default : Text) : Text := (get? as name).getD default

def erase (as : Attributes) (name : Text) : Attributes := as.filter fun a => a.1 != name

end Attributes

/-- The attribute name under which a bare quoted literal is kept. -/
def contentKey : Text := ['c', 'o', 'n', 't', 'e', 'n', 't']

def eventKey : Text := ['e', 'v', 'e', 'n', 't']

def sourceKey : Text := ['s', 'o', 'u', 'r', 'c', 'e']

def variableKey : Text := ['v', 'a', 'r', 'i', 'a', 'b', 'l', 'e']

def conditionKey : Text := ['c', 'o', 'n', 'd', 'i', 't', 'i', 'o', 'n']

def aliasKey : Text := ['a', 'l', 'i', 'a', 's']

def argumentKey : Text := ['a', 'r', 'g', 'u', 'm', 'e', 'n', 't']

def classKey : Text := ['c', 'l', 'a', 's', 's']

def srcKey : Text := ['s', 'r', 'c']

def altKey : Text := ['a', 'l', 't']

/-! ## Tokens -/

/-- The pieces of a body. A heading made by hand may lack its level, an id marker its id; the ones
read from text never do. -/
inductive Token where
  | text (value : Text)
  | newline
  | heading (level : Option Int) (value : Text)
  | opening (container : Container) (name : Text) (attributes : Attributes)
  | closing (container : Option Container) (name : Text)
  | leaf (name : Text) (attributes : Attributes)
  | idMarker (id : Option Text)
  | styleMarker (classes : Text)
  | image (attributes : Attributes)
  | reference (value : Text)
  | bold (value : Text)
  | italic (value : Text)
  | component (value : Text) (attributes : Attributes)
  | eof
  deriving Repr, DecidableEq

namespace Token

/-- The text a token carries. -/
def value : Token → Text
  | text v | heading _ v | opening _ v _ | closing _ v | leaf v _ | styleMarker v | reference v
  | bold v | italic v | component v _ => v
  | newline => ['\n']
  | idMarker id => id.getD []
  | image as => Attributes.getD as srcKey []
  | eof => []

def attributes? : Token → Option Attributes
  | opening _ _ as | leaf _ as | image as | component _ as => some as
  | _ => none

end Token

end Notemark.Body
