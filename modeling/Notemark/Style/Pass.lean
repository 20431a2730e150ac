import Notemark.Style.Class
import Notemark.Value.Depth

/-!
# Classes to styles in a tree

* `Fault`: why an element has no style,
* `convertEntries`: one element; its `class` attribute becomes a `style`,
* `Step`, `modifyAt`: places in a tree of elements, below the `elements` and `content` of each,
* `restyle`: the whole tree, with a list of places still to visit instead of recursion.
-/

namespace Notemark.Style

inductive Fault where
  /-- A class cannot be converted. -/
  | cls (f : ClassFault)
  /-- A message cannot show the class or the type. -/
  | note (f : NoteFault)
  deriving Repr, DecidableEq

namespace Fault

def kind : Fault → FaultKind
  | cls f => f.kind
  | note f => f.kind

def message : Fault → String
  | cls f => f.message
  | note f => f.message

end Fault

section Elements

variable [CallStack]

/-- What a message about an element shows of a value. -/
def shownPlain (v : Value) : Run Fault String :=
  Run.ofExcept ((v.plain? CallStack.notes).mapError .note)

/-- The style of a class, which is looked at only if it is a string. -/
def styleOfClass (classes : Value) : Run Fault (Option Properties) :=
  match classes with
  | .scalar (.str s) => ExceptT.adapt .cls (styleOf s.toList)
  | .scalar (.illFormed codes _) => ExceptT.adapt .cls (styleOf (Text.repaired codes))
  | _ => return none

/-- The entries of an element without its class: a class that converts becomes the style, and
attributes that end up empty are dropped. -/
def convertEntries (es : Entries) : Run Fault Entries := do
  match (es.get? "attributes").bind Value.entries? with
  | none => return es
  | some attributes =>
    match attributes.get? "class" with
    | none => return es
    | some classes =>
      let es ←
        match ← styleOfClass classes with
        | some style => pure (Entries.put "style" style.toValue es)
        | none => do
          if classes.holds then
            let shown ← shownPlain classes
            let type ← shownPlain ((es.get? "type").getD .null)
            Run.warning s!"No styles generated for class \"{shown}\" on <{type}>"
          pure es
      let attributes := attributes.erase "class"
      return if attributes.isEmpty then es.erase "attributes"
        else Entries.put "attributes" (.map none attributes) es

/-- One element; what is no mapping stays as it is. -/
def convert (v : Value) : Run Fault Value :=
  match v with
  | .map _ es => return .map none (← convertEntries es)
  | v => return v

def convertItems : List Value → Run Fault (List Value)
  | [] => return []
  | v :: vs => do
    let first ← convert v
    return first :: (← convertItems vs)

end Elements

/-- The fields of an element that hold other elements, in the order they are visited. -/
def childFields : List String := ["elements", "content"]

/-! ## With a list of places -/

/-- A way down from an element: a field and an index in its list. -/
structure Step where
  field : String
  index : Nat
  deriving Repr, DecidableEq

/-- The value at a place. -/
def at? : List Step → Value → Option Value
  | [], v => some v
  | step :: path, v =>
    match (v.get? step.field).bind Value.items? with
    | some items => items[step.index]?.bind (at? path)
    | none => none

/-- Changes the value at a place. -/
def modifyAt (f : Value → Value) : List Step → Value → Value
  | [], v => f v
  | step :: path, v =>
    match v, (v.get? step.field).bind Value.items? with
    | .map label es, some items =>
      .map label (Entries.put step.field (.list (items.modify step.index (modifyAt f path))) es)
    | v, _ => v

/-- The places of the mappings in a list of converted children. -/
def childPlaces (path : List Step) (field : String) (children : List Value) : List (List Step) :=
  (children.zipIdx.filter fun c => c.1.entries?.isSome).map fun c => path ++ [⟨field, c.2⟩]

variable [CallStack]

/-- Converts the children in one field of the element at a place: the tree with the converted
children, and their places. -/
def convertField (root : Value) (path : List Step) (field : String) :
    Run Fault (Value × List (List Step)) := do
  match (at? path root).bind (·.get? field) with
  | some (.list children) =>
    let converted ← convertItems children
    let put (v : Value) : Value :=
      match v with
      | .map label es => .map label (Entries.put field (.list converted) es)
      | v => v
    return (modifyAt put path root, childPlaces path field converted)
  | _ => return (root, [])

/-- Visits the place that was found last, until none is left. -/
def restyleFrom : Nat → Value → List (List Step) → Run Fault Value
  | 0, root, _ => return root
  | _, root, [] => return root
  | budget + 1, root, path :: pending => do
    let (root, first) ← convertField root path "elements"
    let (root, second) ← convertField root path "content"
    restyleFrom budget root (second.reverse ++ first.reverse ++ pending)

mutual

/-- The number of mappings in a value. -/
def mappings : Value → Nat
  | .list items | .tuple items => mappingsItems items
  | .map _ entries => mappingsEntries entries + 1
  | _ => 0

def mappingsItems : List Value → Nat
  | [] => 0
  | v :: vs => mappings v + mappingsItems vs

def mappingsEntries : List (Scalar × Value) → Nat
  | [] => 0
  | (_, v) :: es => mappings v + mappingsEntries es

end

/-- Turns every class in a tree of elements into a style. Each mapping is visited once. -/
def restyle (v : Value) : Run Fault Value :=
  match v with
  | .map .. => do
    let root ← convert v
    restyleFrom (mappings v + 1) root [[]]
  | v => return v

end Notemark.Style
