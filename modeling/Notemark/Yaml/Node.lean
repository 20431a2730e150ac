import Notemark.Yaml.Scalar
import Notemark.Yaml.Token

/-!
# Nodes of header data

* `Node`: tagged scalars, sequences and mappings, with aliases put in place,
* `Reader`: the tokens ahead, the anchors seen and the tag handles in force,
* `Reader.node`: a node from its tokens,
* `compose`: the one document of a text.
-/

namespace Notemark.Yaml

/-- A node. A mapping with an anchor has a label of its own. An alias to a collection that is
still being read is a `backRef`. -/
inductive Node where
  | scalar (tag : Tag) (codes : List Nat)
  | seq (tag : Tag) (items : List Node)
  | map (tag : Tag) (label : Option Nat) (entries : List (Node × Node))
  | backRef (mapping : Bool)
  deriving Repr

instance : Inhabited Node := ⟨.backRef true⟩

namespace Node

/-- The node of nothing written. -/
def empty : Node := .scalar .null []

mutual

/-- How deep collections are nested in a node. -/
def depth : Node → Nat
  | scalar .. | backRef _ => 0
  | seq _ items => depthItems items + 1
  | map _ _ entries => depthEntries entries + 1

def depthItems : List Node → Nat
  | [] => 0
  | n :: ns => max n.depth (depthItems ns)

def depthEntries : List (Node × Node) → Nat
  | [] => 0
  | (k, v) :: es => max (max k.depth v.depth) (depthEntries es)

end

end Node

/-- An anchor names a node, or a collection that is still being read. -/
inductive Anchored where
  | done (n : Node)
  | reading (mapping : Bool)

structure Reader where
  tokens : List Token
  /-- The fault behind the last token. -/
  fault : Option Fault
  anchors : List (Text × Anchored) := []
  handles : List (Text × Text) := []

abbrev Read := StateT Reader (Except Fault)

namespace Reader

/-- The handles that need no declaration. -/
def defaultHandles : List (Text × Text) :=
  [(['!'], ['!']), (['!', '!'], "tag:yaml.org,2002:".toList)]

/-- The next token; a fault of the text shows when it is reached. -/
def peek : Read (Option Token) := do
  let r ← get
  match r.tokens, r.fault with
  | t :: _, _ => return some t
  | [], some fault => throw fault
  | [], none => return none

def skip : Read Unit := modify fun r => { r with tokens := r.tokens.drop 1 }

def malformed {α : Type} : Read α := throw .malformed

/-- The next token is one of these. -/
def isNext (ts : List Token) : Read Bool := do
  match ← peek with
  | some t => return ts.contains t
  | none => return false

/-- Takes a token of the given kind, if it comes next. -/
def accept (t : Token) : Read Bool := do
  if ← isNext [t] then
    skip
    return true
  else return false

def expect (t : Token) : Read Unit := do
  if !(← accept t) then malformed

/-- Anchor and tag in front of a node, in any order. -/
def properties : Read (Option Text × Option Text) := do
  let anchor? : Read (Option Text) := do
    match ← peek with
    | some (.anchor name) => skip; return some name
    | _ => return none
  let tag? : Read (Option Text) := do
    match ← peek with
    | some (.tag handle suffix) =>
      skip
      match handle with
      | none => return some suffix
      | some handle =>
        match (← get).handles.find? fun h => h.1 == handle with
        | some h => return some (h.2 ++ suffix)
        | none => malformed
    | _ => return none
  match ← anchor? with
  | some name => return (some name, ← tag?)
  | none =>
    match ← tag? with
    | some tag => return (← anchor?, some tag)
    | none => return (none, none)

/-- Gives an anchor to what is read next; no anchor is given twice. -/
def declare (anchor : Option Text) (a : Anchored) : Read Unit := do
  match anchor with
  | none => return
  | some name => modify fun r => { r with anchors := (name, a) :: r.anchors }

def checkNew (anchor : Option Text) : Read Unit := do
  match anchor with
  | none => return
  | some name => if (← get).anchors.any fun a => a.1 == name then malformed

/-- The tag of a collection: its own, or the usual one. -/
def collectionTag (usual : Tag) (tag : Option Text) : Tag :=
  match tag with
  | none | some ['!'] => usual
  | some t => .ofText t

/-- The tag of a scalar: plain ones, and those tagged `!`, go by their spelling. -/
def scalarTag (tag : Option Text) (plain : Bool) (text : Text) : Tag :=
  match tag with
  | none => if plain then resolve text else .str
  | some ['!'] => resolve text
  | some t => .ofText t

def aliased (name : Text) : Read Node := do
  match (← get).anchors.find? fun a => a.1 == name with
  | some (_, .done n) => return n
  | some (_, .reading mapping) => return .backRef mapping
  | none => malformed

mutual

/-- A node. Block collections are read only in block context, and a sequence without indentation
only as part of a block mapping. -/
def node (block indentless : Bool) : Nat → Read Node
  | 0 => malformed
  | budget + 1 => do
    match ← peek with
    | some (.alias name) =>
      skip
      aliased name
    | _ =>
      let (anchor, tag) ← properties
      checkNew anchor
      let finish (n : Node) : Read Node := do
        declare anchor (.done n)
        return n
      let sequence (items : Read (List Node)) : Read Node := do
        declare anchor (.reading false)
        return .seq (collectionTag .seq tag) (← items)
      let mapping (entries : Read (List (Node × Node))) : Read Node := do
        let count := (← get).anchors.length
        let label := if anchor.isSome then some count else none
        declare anchor (.reading true)
        return .map (collectionTag .map tag) label (← entries)
      match ← peek with
      | some .blockEntry =>
        if indentless then finish (← sequence (indentlessItems budget))
        else if anchor.isSome || tag.isSome then finish (.scalar (scalarTag tag true []) [])
        else malformed
      | some (.scalar codes plain) =>
        skip
        finish (.scalar (scalarTag tag plain (Text.repaired codes)) codes)
      | some .flowSequenceStart =>
        skip
        finish (← sequence (flowItems true budget))
      | some .flowMappingStart =>
        skip
        finish (← mapping (flowEntries true budget))
      | next =>
        if block && next == some .blockSequenceStart then
          skip
          finish (← sequence (blockItems budget))
        else if block && next == some .blockMappingStart then
          skip
          finish (← mapping (blockEntries budget))
        else if anchor.isSome || tag.isSome then finish (.scalar (scalarTag tag true []) [])
        else malformed

/-- A node, unless one of the given tokens comes next. -/
def nodeUnless (ends : List Token) (block indentless : Bool) : Nat → Read Node
  | 0 => malformed
  | budget + 1 => do
    if (← isNext ends) then return .empty else node block indentless budget

def blockItems : Nat → Read (List Node)
  | 0 => malformed
  | budget + 1 => do
    if ← accept .blockEntry then
      let item ← nodeUnless [.blockEntry, .blockEnd] true false budget
      return item :: (← blockItems budget)
    else
      expect .blockEnd
      return []

def indentlessItems : Nat → Read (List Node)
  | 0 => malformed
  | budget + 1 => do
    if ← accept .blockEntry then
      let item ← nodeUnless [.blockEntry, .key, .value, .blockEnd] true false budget
      return item :: (← indentlessItems budget)
    else return []

def blockEntries : Nat → Read (List (Node × Node))
  | 0 => malformed
  | budget + 1 => do
    if ← accept .key then
      let key ← nodeUnless [.key, .value, .blockEnd] true true budget
      let value ←
        if ← accept .value then nodeUnless [.key, .value, .blockEnd] true true budget
        else pure .empty
      return (key, value) :: (← blockEntries budget)
    else
      expect .blockEnd
      return []

def flowItems (first : Bool) : Nat → Read (List Node)
  | 0 => malformed
  | budget + 1 => do
    if ← accept .flowSequenceEnd then return []
    if !first then expect .flowEntry
    if ← accept .key then
      let key ← nodeUnless [.value, .flowEntry, .flowSequenceEnd] false false budget
      let value ←
        if ← accept .value then nodeUnless [.flowEntry, .flowSequenceEnd] false false budget
        else pure .empty
      return .map .map none [(key, value)] :: (← flowItems false budget)
    else if ← accept .flowSequenceEnd then return []
    else
      let item ← node false false budget
      return item :: (← flowItems false budget)

def flowEntries (first : Bool) : Nat → Read (List (Node × Node))
  | 0 => malformed
  | budget + 1 => do
    if ← accept .flowMappingEnd then return []
    if !first then expect .flowEntry
    if ← accept .key then
      let key ← nodeUnless [.value, .flowEntry, .flowMappingEnd] false false budget
      let value ←
        if ← accept .value then nodeUnless [.flowEntry, .flowMappingEnd] false false budget
        else pure .empty
      return (key, value) :: (← flowEntries false budget)
    else if ← accept .flowMappingEnd then return []
    else
      let key ← node false false budget
      return (key, .empty) :: (← flowEntries false budget)

end

/-- Directives in front of a document, each version and handle once. -/
def directives (version : Bool) : Nat → Read Unit
  | 0 => malformed
  | budget + 1 => do
    match ← peek with
    | some (.directive d) =>
      skip
      match d with
      | .version major =>
        if version || major != 1 then malformed
        directives true budget
      | .tag handle target =>
        if (← get).handles.any fun h => h.1 == handle then malformed
        modify fun r => { r with handles := (handle, target) :: r.handles }
        directives version budget
      | .other => directives version budget
    | _ => return

def skipEnds : Nat → Read Unit
  | 0 => return
  | budget + 1 => do
    if ← accept .documentEnd then skipEnds budget

/-- The only document of a text; `none` if there is none. -/
def document (budget : Nat) : Read (Option Node) := do
  let root ←
    match ← peek with
    | none => return none
    | some .documentStart | some (.directive _) =>
      directives false budget
      modify fun r => { r with handles := r.handles ++ defaultHandles }
      expect .documentStart
      match ← peek with
      | none | some .documentStart | some .documentEnd | some (.directive _) => pure Node.empty
      | _ => node true false budget
    | _ =>
      modify fun r => { r with handles := defaultHandles }
      node true false budget
  skipEnds budget
  if (← peek).isSome then malformed
  return some root

end Reader

/-- The node of a text. -/
def compose (t : Text) : Except Fault (Option Node) := do
  let (tokens, fault) := scan t
  let reader : Reader := { tokens, fault }
  let (root, _) ← (Reader.document (4 * tokens.length + 8)).run reader
  return root

end Notemark.Yaml
