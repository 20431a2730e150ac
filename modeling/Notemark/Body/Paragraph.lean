import Notemark.Body.Element

/-!
# Paragraphs

Inline content that waits for the end of its paragraph:

* `Paragraph.addText`, `Paragraph.addItem`, `Paragraph.addNewline`: what tokens add,
* `Paragraph.flush`: the finished paragraph, if it has content.
-/

namespace Notemark.Body

/-- Why a token list has no tree: a paragraph counted as having content turns out to be blank,
which takes a reference without text. -/
inductive TreeFault where
  | blankParagraph
  deriving Repr, DecidableEq

def TreeFault.message : TreeFault → String
  | blankParagraph => "list index out of range"

structure Paragraph where
  items : List Inline := []
  /-- The last token at this level was a newline. -/
  afterNewline : Bool := false
  /-- Some item is more than white space. -/
  hasContent : Bool := false
  deriving Repr, DecidableEq

namespace Paragraph

/-- Indentation after a line break is not content. -/
def addText (p : Paragraph) (t : Text) : Paragraph :=
  let t := if p.afterNewline then Text.stripStart t else t
  if p.afterNewline && t.isEmpty then p
  else
    { items := p.items ++ [.text t]
      afterNewline := false
      hasContent := p.hasContent || !Text.allBlank t }

def addItem (p : Paragraph) (item : Inline) : Paragraph :=
  { items := p.items ++ [item], afterNewline := false, hasContent := true }

/-- Whether an item ends in a space of its own. -/
def endsInSpace : Inline → Bool
  | .text t => t.getLast? == some ' '
  | _ => false

/-- One line break is a space between items. -/
def breakLine (p : Paragraph) : Paragraph :=
  { p with
    items :=
      match p.items.getLast? with
      | none => p.items
      | some last => if endsInSpace last then p.items else p.items ++ [.text [' ']]
    afterNewline := true }

def isBlankText : Inline → Bool
  | .text t => Text.allBlank t
  | _ => false

/-- Items without the blank ones at the end. -/
def trimmed (items : List Inline) : List Inline :=
  (items.reverse.dropWhile isBlankText).reverse

/-- The items of the finished paragraph, if there is content. -/
def flush (p : Paragraph) : Except TreeFault (Option (List Inline)) :=
  if p.hasContent then
    let items := trimmed p.items
    if items.isEmpty then .error .blankParagraph else .ok (some items)
  else .ok none

end Paragraph

end Notemark.Body
