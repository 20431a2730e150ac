import Notemark.Schema.Scalar

/-!
# Checking records

A record is a mapping with declared fields.

* `Field`: a declared field, `Others`: whether a record may have other entries,
* `Report`: the issues of every entry, in the order of the entries,
* `recordIssues`: the issues of a record: declared fields in the order of their declaration, then
  the other entries in theirs; a key that is no text ends the check.
-/

namespace Notemark.Schema

/-- A declared field. -/
structure Field where
  name : String
  required : Bool := false
  deriving Repr, DecidableEq

/-- Whether a record may have entries that are not declared. -/
inductive Others where
  | allowed
  | forbidden
  deriving Repr, DecidableEq

/-- The entries of a record with the issues of each, as seen from the entry. -/
abbrev Report := List (Scalar × List Issue)

/-- The issues of an entry that is not declared. -/
def otherIssues (others : Others) (key : Scalar) (value : Value) : List Issue :=
  match key, others with
  | .str _, .allowed => []
  | .str _, .forbidden => [⟨.extra, [], value⟩]
  | key, _ => [⟨.key, [], .scalar key⟩]

def Report.get? (r : Report) (name : String) : Option (List Issue) :=
  (r.find? fun e => e.1.sameKey (.str name)).map (·.2)

def isDeclared (fields : List Field) (key : Scalar) : Bool :=
  fields.any fun f => key.sameKey (.str f.name)

/-- The issues of a declared field. -/
def fieldIssues (record : Value) (r : Report) (f : Field) : List Issue :=
  match r.get? f.name with
  | some issues => issues.map (Issue.under (.name f.name))
  | none => if f.required then [⟨.missing, [.name f.name], record⟩] else []

/-- The first key that is not allowed because it is no text. -/
def Report.brokenKey? (r : Report) : Option Scalar :=
  (r.find? fun e => !e.1.isStorable && !e.2.isEmpty).map (·.1)

/-- The issues of a record, given those of its entries. -/
def recordIssues (fields : List Field) (record : Value) (r : Report) : List Issue :=
  match r.brokenKey? with
  | some key => [⟨.stringBytes, [], .scalar key⟩]
  | none =>
    fields.flatMap (fieldIssues record r) ++
      (r.filter fun e => !isDeclared fields e.1).flatMap fun e =>
        e.2.map (Issue.under (.ofKey e.1))

/-- An optional value may be null. -/
def optional (check : Value → List Issue) : Value → List Issue
  | .scalar .null => []
  | v => check v

/-- Issues of the items of a list, from an index on. -/
def itemIssues (check : Value → List Issue) (index : Nat) : List Value → List Issue
  | [] => []
  | v :: vs => (check v).map (Issue.under (.index index)) ++ itemIssues check (index + 1) vs

/-- The items of what can stand for a list. -/
def sequence? : Value → Option (List Value)
  | .list items | .tuple items => some items
  | .set members => some (members.map .scalar)
  | _ => none

def listIssues (check : Value → List Issue) (v : Value) : List Issue :=
  match sequence? v with
  | some items => itemIssues check 0 items
  | none => [⟨.list, [], v⟩]

/-- The issues of an entry of a mapping with string keys. -/
def entryIssues (check : Value → List Issue) (key : Scalar) (value : Value) : List Issue :=
  let place := Place.ofKey key
  (issuesOf string (.scalar key)).map (fun i => (i.under (.name "[key]")).under place) ++
    (check value).map (Issue.under place)

def mappingIssues (check : Value → List Issue) : Value → List Issue
  | .map _ entries => entries.flatMap fun e => entryIssues check e.1 e.2
  | v => [⟨.mapping, [], v⟩]

/-- A value of one of two kinds has issues only if it has them in both; then it has all of them,
under the names of the kinds. -/
def eitherIssues (one other : String × List Issue) : List Issue :=
  if one.2.isEmpty || other.2.isEmpty then []
  else one.2.map (Issue.under (.name one.1)) ++ other.2.map (Issue.under (.name other.1))

end Notemark.Schema
