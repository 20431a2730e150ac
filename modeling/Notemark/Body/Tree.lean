import Notemark.Body.Paragraph
import Notemark.Log

/-!
# From tokens to elements

The tree is built in one pass over the tokens, with the open containers on a stack:

* `Level`, `Frame`, `Builder`: the state of the pass,
* `Builder.step`: what one token does,
* `parse`: the elements of a token list,
* `parseNotes`: what there is to say about tags and marks that come to nothing.
-/

namespace Notemark.Body

/-- What has been built inside one container: its finished elements and its open paragraph. -/
structure Level where
  elements : List Element := []
  paragraph : Paragraph := {}

/-- An open container and the level it stands in. -/
structure Frame where
  block : Block
  mark : Mark
  closes : Container
  outer : Level

/-- The state of the pass: the mark for the next element, the level inside the innermost open
container, and the open containers, innermost first. -/
structure Builder where
  mark : Mark := {}
  level : Level := {}
  frames : List Frame := []

namespace Builder

/-- Adds an element to the innermost level; the pending mark is its own. -/
def add (b : Builder) (block : Block) : Builder :=
  { b with
    mark := {}
    level := { b.level with elements := b.level.elements ++ [.mk block b.mark []] } }

/-- Ends the open paragraph. -/
def flush (b : Builder) : Except TreeFault Builder := do
  let found ← b.level.paragraph.flush
  let b := { b with level := { b.level with paragraph := {} } }
  match found with
  | some items => return b.add (.paragraph items)
  | none => return b

def withParagraph (b : Builder) (p : Paragraph) : Builder :=
  { b with level := { b.level with paragraph := p } }

/-- A block element ends the paragraph before it. -/
def addBlock (b : Builder) (block : Block) : Except TreeFault Builder := do
  return (← b.flush).add block

/-- Opens a container, which takes the pending mark. -/
def openFrame (b : Builder) (c : Container) (block : Block) : Except TreeFault Builder := do
  let b ← b.flush
  return { mark := {}, level := {}, frames := ⟨block, b.mark, c, b.level⟩ :: b.frames }

/-- Closes the innermost container; a mark left over inside it is dropped. -/
def closeFrame (b : Builder) : Except TreeFault Builder := do
  let b ← b.flush
  match b.frames with
  | [] => return b
  | f :: fs =>
    let element := Element.mk f.block f.mark b.level.elements
    return { mark := {}
             level := { f.outer with elements := f.outer.elements ++ [element] }
             frames := fs }

/-- Closes so many containers, innermost first. -/
def closeFrames : Nat → Builder → Except TreeFault Builder
  | 0, b => .ok b
  | n + 1, b => do closeFrames n (← b.closeFrame)

/-- How many containers have to be closed to close the innermost one of a kind. -/
def closingDepth? (b : Builder) (c : Option Container) : Option Nat :=
  match c with
  | none => none
  | some c => (b.frames.findIdx? fun f => f.closes == c).map (· + 1)

/-- A closing tag closes the innermost container of its kind and all inside it; one that fits no
open container is passed over. -/
def close (b : Builder) (c : Option Container) : Except TreeFault Builder :=
  match b.closingDepth? c with
  | some depth => closeFrames depth b
  | none => .ok b

/-- A marker never belongs to the paragraph written before it. -/
def addMark (b : Builder) (change : Mark → Mark) : Except TreeFault Builder := do
  let b ← if b.level.paragraph.hasContent then b.flush else .ok b
  return { b with mark := change b.mark }

/-- A second line break in a row ends the paragraph. -/
def addNewline (b : Builder) : Except TreeFault Builder :=
  let p := b.level.paragraph
  if p.afterNewline then (b.withParagraph { p with afterNewline := false }).flush
  else .ok (b.withParagraph p.breakLine)

/-- What one token does. -/
def step (b : Builder) : Token → Except TreeFault Builder
  | .text value => .ok (b.withParagraph (b.level.paragraph.addText value))
  | .newline => b.addNewline
  | .reference value => .ok (b.withParagraph (b.level.paragraph.addItem (.text value)))
  | .bold value => .ok (b.withParagraph (b.level.paragraph.addItem (.strong value)))
  | .italic value => .ok (b.withParagraph (b.level.paragraph.addItem (.em value)))
  | .idMarker id => b.addMark fun mark => { mark with id := id }
  | .styleMarker classes => b.addMark fun mark => { mark with style := some classes }
  | .heading level value => b.addBlock (.heading level value)
  | .image as => b.addBlock (.image as)
  | .component value as => b.addBlock (.ofComponent value as)
  | .leaf name as => b.addBlock (.ofLeaf name as)
  | .opening c name as => b.openFrame c (.ofOpening c name as)
  | .closing c _ => b.close c
  | .eof => .ok b

def run (b : Builder) : List Token → Except TreeFault Builder
  | [] => .ok b
  | t :: ts => do run (← b.step t) ts

/-- Closes what is still open and ends the last paragraph. -/
def finish (b : Builder) : Except TreeFault (List Element) := do
  let b ← closeFrames b.frames.length b
  return (← b.flush).level.elements

end Builder

/-- The tokens before the end mark. -/
def untilEof (ts : List Token) : List Token := ts.takeWhile (· ≠ .eof)

/-- The elements of a token list. -/
def parse (ts : List Token) : Except TreeFault (List Element) := do
  (← Builder.run {} (untilEof ts)).finish

/-! ## Notes -/

namespace Builder

/-- A mark that is still pending when a container closes decorates nothing. -/
def closeNotes (b : Builder) : List Note :=
  match b.flush, b.frames with
  | .ok b, f :: _ =>
    if b.mark.isEmpty then []
    else [.trace 2 s!"Discarding decoration left unused inside [{f.block.typeName}]"]
  | _, _ => []

def closeFramesNotes : Nat → Builder → List Note
  | 0, _ => []
  | n + 1, b =>
    b.closeNotes ++
      match b.closeFrame with
      | .ok b => closeFramesNotes n b
      | .error _ => []

def stepNotes (b : Builder) : Token → List Note
  | .closing c name =>
    match b.closingDepth? c with
    | some depth => closeFramesNotes depth b
    | none => [.trace 2 s!"Skipping stray closing tag [/{String.ofList name}]"]
  | _ => []

/-- The notes of a pass up to the first fault, including the closing at the end. -/
def runNotes (b : Builder) : List Token → List Note
  | [] =>
    closeFramesNotes b.frames.length b ++
      match b.finish with
      | .ok elements => [.trace 3 s!"Parsed {elements.length} top-level elements"]
      | .error _ => []
  | t :: ts =>
    b.stepNotes t ++
      match b.step t with
      | .ok b => runNotes b ts
      | .error _ => []

end Builder

def parseNotes (ts : List Token) : List Note := Builder.runNotes {} (untilEof ts)

end Notemark.Body
