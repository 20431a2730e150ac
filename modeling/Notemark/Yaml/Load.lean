import Notemark.Value.Basic
import Notemark.Yaml.Node

/-!
# Header data as values

* `Node.merged`: the entries of a mapping with its merge keys resolved,
* `Ranked`: values of a collection are built level by level, so that of several faults the one on
  the outermost level counts, and on one level the first,
* `build`: the value of a node,
* `load`: the value of a text.
-/

namespace Notemark.Yaml

namespace Node

def tag : Node → Tag
  | scalar t _ | seq t _ | map t _ _ => t
  | backRef mapping => if mapping then .map else .seq

mutual

/-- The entries of a mapping: those of merged mappings first, then its own. -/
def merged : Node → Except Fault (List (Node × Node))
  | map _ _ entries => (splitMerges entries).map fun p => p.1 ++ p.2
  | _ => .error .malformed

/-- Merged entries and own entries. -/
def splitMerges : List (Node × Node) → Except Fault (List (Node × Node) × List (Node × Node))
  | [] => .ok ([], [])
  | (k, v) :: es => do
    match k with
    | scalar .merge _ => do
      let new ← mergeSource v
      let (others, own) ← splitMerges es
      return (new ++ others, own)
    | scalar .value codes => do
      let (others, own) ← splitMerges es
      return (others, (.scalar .str codes, v) :: own)
    | k => do
      let (others, own) ← splitMerges es
      return (others, (k, v) :: own)

/-- The entries that a merge key brings in: of several mappings the first one wins. -/
def mergeSource : Node → Except Fault (List (Node × Node))
  | map _ _ entries => (splitMerges entries).map fun p => p.1 ++ p.2
  | seq _ items => mergeItems items
  | _ => .error .malformed

def mergeItems : List Node → Except Fault (List (Node × Node))
  | [] => .ok []
  | item :: items => do
    let first ← merged item
    let later ← mergeItems items
    return later ++ first

end

/-- The code points of a scalar; a mapping stands for the value of its `=` key. -/
def codes? : Node → Option (List Nat)
  | scalar _ codes => some codes
  | map _ _ entries => valueCodes entries
  | _ => none
where
  valueCodes : List (Node × Node) → Option (List Nat)
    | [] => none
    | (scalar .value _, v) :: _ => codes? v
    | _ :: es => valueCodes es

end Node

/-- A value, or a fault with the level on which it was found. -/
abbrev Ranked (α : Type) := Except (Nat × Fault) α

namespace Ranked

/-- Two values; of two faults the one on the outer level counts, and the first on a tie. -/
def both {α β : Type} (x : Ranked α) (y : Ranked β) : Ranked (α × β) :=
  match x, y with
  | .ok a, .ok b => .ok (a, b)
  | .error e, .ok _ => .error e
  | .ok _, .error e => .error e
  | .error (n, e), .error (m, f) => if m < n then .error (m, f) else .error (n, e)

def all {α : Type} : List (Ranked α) → Ranked (List α)
  | [] => .ok []
  | x :: xs => (both x (all xs)).map fun p => p.1 :: p.2

end Ranked

/-- The value of a scalar node, or of another node tagged as a scalar. Only a string keeps halves of
surrogate pairs; no other spelling has any. -/
def buildScalar (tag : Tag) (n : Node) : Except Fault Scalar :=
  match n.codes? with
  | none => .error .malformed
  | some codes =>
    let t := Text.repaired codes
    match tag with
    | .str => .ok (.ofCodes codes)
    | .null => .ok .null
    | .int => (readInt t).map .int
    | .float => (readFloat t).map .float
    | .bool => (readBool t).map .bool
    | .timestamp => readTimestamp t
    | .binary => (readBinary t).map .bytes
    | _ => .error .malformed

/-- A collection is built on the level below the one that it stands on. -/
def isCollectionTag : Tag → Bool
  | .seq | .map | .set | .omap | .pairs => true
  | _ => false

/-- The key of an entry; collections are no keys. -/
def buildKey (level : Nat) (n : Node) : Ranked Scalar :=
  if isCollectionTag n.tag then .error (level, .malformed)
  else (buildScalar n.tag n).mapError (level, ·)

/-- The value of a node that stands on a level. -/
def build : Nat → Nat → Node → Ranked Value
  | 0, level, _ => .error (level, .malformed)
  | budget + 1, level, n =>
    let inner := level + 1
    let entries (n : Node) : Ranked Entries :=
      match n.merged with
      | .error fault => .error (inner, fault)
      | .ok es =>
        (Ranked.all (es.map fun e => Ranked.both (buildKey inner e.1) (build budget inner e.2))).map
          fun es => es.foldl (fun soFar e => soFar.set e.1 e.2) []
    let pair (n : Node) : Ranked Value :=
      match n with
      | .map _ _ [(k, v)] =>
        (Ranked.both (build budget inner k) (build budget inner v)).map fun p =>
          .tuple [p.1, p.2]
      | _ => .error (inner, .malformed)
    match n, n.tag with
    | .backRef mapping, _ => .ok (.backRef mapping)
    | .seq _ items, .seq => (Ranked.all (items.map (build budget inner))).map .list
    | .map _ label _, .map => (entries n).map (.map label)
    | .map .., .set => (entries n).map fun es => .set (es.map (·.1))
    | .seq _ items, .omap | .seq _ items, .pairs => (Ranked.all (items.map pair)).map .list
    | _, tag =>
      if isCollectionTag tag then .error (inner, .malformed)
      else ((buildScalar tag n).mapError (level, ·)).map .scalar

/-- The value of a text; nothing written is nothing. -/
def load (t : Text) : Except Fault Value := do
  match ← compose t with
  | none => return .null
  | some n => (build (n.depth + 1) 0 n).mapError (·.2)

end Notemark.Yaml
