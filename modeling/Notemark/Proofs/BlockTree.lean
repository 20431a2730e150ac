import Notemark.Body.Tree
import Notemark.Proofs.TagText

/-!
# Block trees and their printed form

A printer for the block language. Well-formedness is part of the data, so that every tree can be
printed:

* `Line`: blocks without content of their own that stand on one line,
* `Opener`: what opens a container,
* `BlockTree`: blocks, with the blank lines around them,
* `BlockTree.element`: the element that a block stands for,
* `Piece`: the units of printed text; a tree is a list of these,
* `print`: the text of a list of trees.
-/

namespace Notemark.Body

/-! ## Data -/

/-- The title of a heading: one line without blank ends. -/
structure Title where
  text : Text
  stripped : Text.strip text = text
  line : '\n' ∉ text

/-- Plain text: one line without blank ends and without the characters that begin something. -/
structure PlainText where
  text : Text
  ne_nil : text ≠ []
  stripped : Text.strip text = text
  plain : ∀ c ∈ text, c ≠ '\n' ∧ c ≠ '\r' ∧ c ≠ '[' ∧ c ≠ '{' ∧ c ≠ '*' ∧ c ≠ '#'

/-- Attributes of a tag. -/
structure AttributeList where
  entries : Attributes
  writable : Writable entries

/-- The name of a component. -/
structure Alias where
  name : Text
  valid : isName Char.isAlpha isElementChar name = true

/-- The name of a leaf: a name that neither opens a container nor shows data. -/
structure LeafName extends Alias where
  notContainer : ∀ c : Container, name ≠ c.name
  notJson : name ≠ jsonName

/-- What an image shows in place of itself, between square brackets. -/
structure ImageDescription where
  text : Text
  plain : ∀ c ∈ text, c ≠ ']' ∧ c ≠ '\n' ∧ c ≠ '\r'

/-- The source of an image, between parentheses. -/
structure ImageSource where
  text : Text
  stripped : Text.strip text = text
  plain : ∀ c ∈ text, c ≠ ')' ∧ c ≠ '\n' ∧ c ≠ '\r'

/-- The argument of a component, which may be missing. -/
structure Argument where
  text : Text
  stripped : Text.strip text = text
  plain : ∀ c ∈ text, c ≠ ']' ∧ c ≠ '"' ∧ c ≠ '\r'

/-- The event of a form, without its sign. -/
structure EventName where
  name : Text
  valid : isName isEventHead isEventChar name = true

/-- The source of a loop, without its dollar sign. -/
structure LoopSource where
  path : Text
  plain : ∀ c ∈ path, Text.isBlank c = false ∧ c ≠ ']' ∧ c ≠ '"'

/-- A loop variable; the dollar sign is optional. -/
structure LoopVariable where
  dollar : Bool
  name : Text
  valid : isName isLoopHead isLoopChar name = true
  bare : dollar = false → name.head? ≠ some '$'

/-- A condition that says something. -/
structure Condition where
  text : Text
  ne_nil : text ≠ []
  stripped : Text.strip text = text
  plain : ∀ c ∈ text, c ≠ ']' ∧ c ≠ '"' ∧ c ≠ '\r'
  notPair : text ≠ ['{', '}'] ∧ text ≠ ['[', ']'] ∧ text ≠ ['(', ')']

def LoopSource.text (s : LoopSource) : Text := '$' :: s.path

def LoopVariable.text (v : LoopVariable) : Text := if v.dollar then '$' :: v.name else v.name

def EventName.text (e : EventName) : Text := '@' :: e.name

inductive Line where
  | heading (level : Fin 6) (title : Title)
  | leaf (name : LeafName) (attributes : AttributeList)
  | image (description : ImageDescription) (source : ImageSource)
  | component (name : Alias) (argument : Argument)

/-- The containers that show their children and nothing else. -/
inductive BoxKind where
  | div
  | span
  | button
  deriving Repr, DecidableEq

def BoxKind.container : BoxKind → Container
  | div => .div
  | span => .span
  | button => .button

inductive Opener where
  | box (kind : BoxKind) (attributes : AttributeList)
  | form (event : EventName) (attributes : AttributeList)
  | loop (source : LoopSource) (loopVariable : LoopVariable)
  | cond (condition : Condition)

/-- Blocks. The blank lines before a block, and those before the end of a container, are part of
the tree, so that every layout is the printed form of some tree. -/
inductive BlockTree where
  | line (blanks : Nat) (line : Line)
  | paragraph (blanks : Nat) (text : PlainText)
  | container (blanks : Nat) (opener : Opener) (children : List BlockTree) (last : Nat)

/-! ## Elements of trees -/

def Line.block : Line → Block
  | heading level title => .heading (some (level + 1 : Nat)) title.text
  | leaf name attributes => .leaf name.name none attributes.entries
  | image description source => .image [(srcKey, source.text), (altKey, description.text)]
  | component name argument => .component ('#' :: name.name) argument.text

namespace Opener

def container : Opener → Container
  | box kind _ => kind.container
  | form .. => .form
  | loop .. => .each
  | cond _ => .cond

def head : Opener → Head
  | box kind attributes => .box kind.container.name attributes.entries
  | form event attributes => .form event.text attributes.entries
  | loop source loopVariable => .loop source.text loopVariable.text
  | cond condition => .cond condition.text

end Opener

namespace BlockTree

mutual

/-- The element that a block stands for; blank lines leave no trace. -/
def element : BlockTree → Element
  | line _ l => .mk l.block {} []
  | paragraph _ p => .mk (.paragraph [.text p.text]) {} []
  | container _ o children _ => .mk (.container o.head none) {} (elements children)

def elements : List BlockTree → List Element
  | [] => []
  | b :: bs => b.element :: elements bs

end

end BlockTree

/-! ## Printing -/

inductive Piece where
  | newline
  | line (line : Line)
  | text (text : PlainText)
  | opening (opener : Opener)
  | closing (container : Container)

/-- The text between the brackets of an opening tag. -/
def Opener.inner : Opener → Text
  | box kind attributes => kind.container.name ++ attributeText attributes.entries
  | form event attributes =>
    Container.form.name ++ ' ' :: (event.text ++ attributeText attributes.entries)
  | loop source loopVariable =>
    Container.each.name ++
      ' ' :: (source.text ++ (' ' :: 'a' :: 's' :: ' ' :: loopVariable.text))
  | cond condition => Container.cond.name ++ ' ' :: condition.text

/-- A tag with some inner text. -/
def bracketed (inner : Text) : Text := '[' :: (inner ++ [']'])

def Line.print : Line → Text
  | heading level title => List.replicate (level + 1) '#' ++ ' ' :: title.text
  | leaf name attributes => bracketed (name.name ++ attributeText attributes.entries)
  | image description source =>
    '!' :: '[' :: (description.text ++ ']' :: '(' :: (source.text ++ [')']))
  | component name argument => bracketed ('#' :: (name.name ++ spaced argument.text))

def Piece.print : Piece → Text
  | newline => ['\n']
  | line l => l.print
  | text p => p.text
  | opening o => bracketed o.inner
  | closing c => bracketed ('/' :: c.name)

/-- What stands before a block. -/
inductive Before where
  | nothing
  | paragraph
  | other
  deriving Repr, DecidableEq

namespace BlockTree

/-- What a block is for the one that follows it. -/
def before : BlockTree → Before
  | paragraph .. => .paragraph
  | _ => .other

/-- How many line breaks stand before a block: every block is on lines of its own, and there is a
blank line between two paragraphs. -/
def gap (before : Before) : BlockTree → Nat
  | line blanks _ | container blanks .. => if before = .nothing then blanks else blanks + 1
  | paragraph blanks _ =>
    match before with
    | .nothing => blanks
    | .other => blanks + 1
    | .paragraph => blanks + 2

mutual

def pieces : BlockTree → List Piece
  | line _ l => [.line l]
  | paragraph _ p => [.text p]
  | container _ o children last =>
    .opening o ::
      (allPieces .other children ++
        (List.replicate (last + 1) .newline ++ [.closing o.container]))

def allPieces (before : Before) : List BlockTree → List Piece
  | [] => []
  | b :: bs =>
    List.replicate (b.gap before) .newline ++ (b.pieces ++ allPieces b.before bs)

end

end BlockTree

/-- A list of blocks, with so many line breaks at the end. -/
def documentPieces (bs : List BlockTree) (last : Nat) : List Piece :=
  BlockTree.allPieces .nothing bs ++ List.replicate last .newline

def print (bs : List BlockTree) (last : Nat) : Text :=
  (documentPieces bs last).flatMap Piece.print

end Notemark.Body
