import Notemark.Body.Token
import Notemark.Value.Basic

/-!
# Elements

The tree that a body stands for:

* `Inline`: the items of a paragraph,
* `Mark`: the id and the style classes that markers put on an element,
* `Head`: what a container is, apart from its children,
* `Block`, `Element`: the elements of a body,
* `Element.toValue`: an element as document data.
-/

namespace Notemark.Body

inductive Inline where
  | text (t : Text)
  | strong (t : Text)
  | em (t : Text)
  deriving Repr, DecidableEq

/-- What markers say about the element that follows them. -/
structure Mark where
  id : Option Text := none
  style : Option Text := none
  deriving Repr, DecidableEq

namespace Mark

def isEmpty (mark : Mark) : Bool := mark.id.isNone && mark.style.isNone

end Mark

/-- What a container is. A box keeps the name of its tag. -/
inductive Head where
  | box (name : Text) (attributes : Attributes)
  | form (event : Text) (attributes : Attributes)
  | loop (source loopVariable : Text)
  | cond (condition : Text)
  deriving Repr, DecidableEq

/-- An element without its mark and its children. The literal of a container is text written in
its tag, shown before its children. -/
inductive Block where
  | heading (level : Option Int) (title : Text)
  | paragraph (items : List Inline)
  | image (attributes : Attributes)
  | component (name argument : Text)
  | leaf (name : Text) (literal : Option Text) (attributes : Attributes)
  | container (head : Head) (literal : Option Text)
  deriving Repr, DecidableEq

/-- An element; only containers have children. -/
inductive Element where
  | mk (block : Block) (mark : Mark) (children : List Element)
  deriving Repr

namespace Element

def block : Element → Block
  | mk b _ _ => b

def mark : Element → Mark
  | mk _ m _ => m

def children : Element → List Element
  | mk _ _ cs => cs

end Element

/-! ## Reading tags into blocks -/

namespace Head

def formName : Text := ['f', 'o', 'r', 'm']

def loopName : Text := ['l', 'o', 'o', 'p']

def condName : Text := ['i', 'f']

/-- The element name of a container tag. -/
def typeOf (c : Container) (name : Text) : Text :=
  match c with
  | .form => formName
  | .each => loopName
  | .cond => condName
  | .div | .button | .span => name

/-- The head of a container of the given element name. -/
def ofAttributes (type : Text) (as : Attributes) : Head :=
  if type = formName then .form (as.getD eventKey []) (as.erase eventKey)
  else if type = loopName then .loop (as.getD sourceKey []) (as.getD variableKey [])
  else if type = condName then .cond (as.getD conditionKey [])
  else .box type as

def typeName : Head → Text
  | box name _ => name
  | form .. => formName
  | loop .. => loopName
  | cond _ => condName

def attributes : Head → Attributes
  | box _ as | form _ as => as
  | loop .. | cond _ => []

end Head

namespace Block

/-- The block of a container tag. -/
def ofOpening (c : Container) (name : Text) (as : Attributes) : Block :=
  .container (Head.ofAttributes (Head.typeOf c name) (as.erase contentKey)) (as.get? contentKey)

/-- The block of a leaf tag; a data leaf keeps its variable only. -/
def ofLeaf (name : Text) (as : Attributes) : Block :=
  if name = jsonName then .leaf jsonName none [(variableKey, as.getD variableKey [])]
  else .leaf name (as.get? contentKey) (as.erase contentKey)

def ofComponent (value : Text) (as : Attributes) : Block :=
  .component (as.getD aliasKey value) (as.getD argumentKey [])

end Block

/-! ## Elements as data -/

/-- Text as a value. -/
def textValue (t : Text) : Value := .str (String.ofList t)

def attributesValue (as : Attributes) : Value :=
  .object (as.map fun a => (String.ofList a.1, textValue a.2))

def Inline.toValue : Inline → Value
  | text t => textValue t
  | strong t => .object [("type", .str "strong"), ("content", .list [textValue t])]
  | em t => .object [("type", .str "em"), ("content", .list [textValue t])]

/-- The element name of a heading of some level. -/
def headingName (level : Option Int) : String :=
  match level with
  | some n => s!"h{n}"
  | none => "hNone"

namespace Block

def typeName : Block → String
  | heading level _ => headingName level
  | paragraph _ => "p"
  | image _ => "img"
  | component .. => "component"
  | leaf name _ _ => String.ofList name
  | container head _ => String.ofList head.typeName

/-- The fields that belong to the kind of the block, besides its type and attributes. -/
def ownFields : Block → List (String × Value)
  | heading _ title => [("content", .list [textValue title])]
  | paragraph items => [("content", .list (items.map Inline.toValue))]
  | image _ => []
  | component name argument => [("alias", textValue name), ("argument", textValue argument)]
  | leaf _ literal _ =>
    match literal with
    | some t => [("content", .list [textValue t])]
    | none => []
  | container head _ =>
    match head with
    | .form event _ => [("event", textValue event)]
    | .loop source loopVariable =>
      [("source", textValue source), ("variable", textValue loopVariable)]
    | .cond condition => [("condition", textValue condition)]
    | .box .. => []

/-- The attributes that are always shown, before an id. -/
def ownAttributes? : Block → Option Attributes
  | image as => some as
  | leaf _ _ as => if as.isEmpty then none else some as
  | container head _ => if head.attributes.isEmpty then none else some head.attributes
  | _ => none

def isContainer : Block → Bool
  | container .. => true
  | _ => false

/-- The paragraph of a container's literal. -/
def literalParagraph : Block → List Value
  | container _ (some t) =>
    if t.isEmpty then [] else [.object [("type", .str "p"), ("content", .list [textValue t])]]
  | _ => []

end Block

/-- The attributes of a block with the class of its mark. -/
def markedAttributes? (block : Block) (mark : Mark) : Option Attributes :=
  match block.ownAttributes?, mark.style with
  | own, none => own
  | own, some style => some ((own.getD []).set classKey style)

/-- The fields of an element except its children: attributes come before an id if the block has
some of its own, and after it otherwise. -/
def elementFields (block : Block) (mark : Mark) : List (String × Value) :=
  let attributes :=
    match markedAttributes? block mark with
    | some as => [("attributes", attributesValue as)]
    | none => []
  let id :=
    match mark.id with
    | some id => [("elementId", textValue id)]
    | none => []
  ("type", .str block.typeName) :: block.ownFields ++
    (if block.ownAttributes?.isSome then attributes ++ id else id ++ attributes)

namespace Element

mutual

def toValue : Element → Value
  | mk block mark children =>
    .object (elementFields block mark ++
      if block.isContainer then
        [("elements", .list (block.literalParagraph ++ toValues children))]
      else [])

def toValues : List Element → List Value
  | [] => []
  | e :: es => e.toValue :: toValues es

end

end Element

end Notemark.Body
