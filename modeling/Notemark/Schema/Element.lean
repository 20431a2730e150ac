import Notemark.Schema.Record

/-!
# The schema of elements

* `elementFields`: the fields of an element,
* `brokenRule?`: what an element of its type lacks,
* `elementIssues`: the issues of an element and of everything in it.
-/

namespace Notemark.Schema

def elementFields : List Field :=
  [⟨"type", true⟩, ⟨"elementId", false⟩, ⟨"content", false⟩, ⟨"elements", false⟩,
    ⟨"attributes", false⟩, ⟨"style", false⟩, ⟨"event", false⟩, ⟨"source", false⟩,
    ⟨"variable", false⟩, ⟨"condition", false⟩, ⟨"alias", false⟩, ⟨"argument", false⟩]

/-- Fields whose value is a string. -/
def elementStrings : List String :=
  ["elementId", "event", "source", "variable", "condition", "alias", "argument"]

/-! ## Rules of the types -/

/-- Fields that an element of a type cannot do without. -/
def neededFields : String → List String
  | "form" => ["event"]
  | "loop" => ["source", "variable"]
  | "if" => ["condition"]
  | "component" => ["alias"]
  | _ => []

/-- Types of elements that enclose others; a plain division may be without. -/
def needsElements (type : String) : Bool := ["span", "button", "form", "loop", "if"].contains type

/-- Whether a field is there and not null. -/
def isGiven (es : Entries) (name : String) : Bool :=
  match es.get? name with
  | none | some (.scalar .null) => false
  | some _ => true

/-- A `json` element has to name a variable. -/
def namesVariable (es : Entries) : Bool :=
  match ((es.get? "attributes").bind fun as => as.get? "variable") with
  | some v => v.holds
  | none => false

/-- The first rule that an element breaks. -/
def brokenRule? (type : String) (es : Entries) : Option String :=
  match (neededFields type).find? fun name => !isGiven es name with
  | some name => some s!"<{type}> element requires '{name}'"
  | none =>
    if needsElements type && !isGiven es "elements" then
      some s!"<{type}> element requires 'elements'"
    else if type = "json" && !namesVariable es then
      some "<json> element requires attributes.variable"
    else none

/-- The type of an element whose fields have no issues. -/
def typeOf (es : Entries) : String := ((es.get? "type").bind Value.string?).getD ""

def ruleIssues (element : Value) (es : Entries) : List Issue :=
  match brokenRule? (typeOf es) es with
  | some text => [⟨.rule text, [], element⟩]
  | none => []

/-! ## Elements -/

/-- A string of some length, which one that is no text does not have. -/
def nonEmptyIssues (v : Value) : List Issue :=
  match v with
  | .scalar (.illFormed ..) => [⟨.stringBytes, [], v⟩]
  | v =>
    match string v with
    | .error breach => [⟨breach, [], v⟩]
    | .ok s => if s.isEmpty then [⟨.tooShort, [], v⟩] else []

/-- The issues of a field that holds no elements. -/
def plainFieldIssues (key : Scalar) (v : Value) : List Issue :=
  match key with
  | .str "type" => nonEmptyIssues v
  | .str "attributes" => optional (mappingIssues (issuesOf string)) v
  | .str "style" => optional (mappingIssues fun _ => []) v
  | .str name =>
    if elementStrings.contains name then optional (issuesOf string) v
    else otherIssues .forbidden key v
  | key => otherIssues .forbidden key v

/-- How reports name the two kinds of content. -/
def textKind : String := "str"

def elementKind : String := "function-after[kind_check(), Element]"

mutual

/-- The issues of an element. Rules of its type are looked at only if nothing else is wrong. -/
def elementIssues : Value → List Issue
  | .map label es =>
    let found := recordIssues elementFields (.map label es) (elementReport es)
    if found.isEmpty then ruleIssues (.map label es) es else found
  | v => [⟨.record "Element", [], v⟩]

def elementReport : List (Scalar × Value) → List (Scalar × List Issue)
  | [] => []
  | (key, v) :: es =>
    let issues :=
      if key = .str "content" then
        match v with
        | .list items | .tuple items => contentIssues 0 items
        | .scalar .null => []
        | v => [⟨.list, [], v⟩]
      else if key = .str "elements" then
        match v with
        | .list items | .tuple items => elementsIssues 0 items
        | .scalar .null => []
        | v => [⟨.list, [], v⟩]
      else plainFieldIssues key v
    (key, issues) :: elementReport es

def elementsIssues (index : Nat) : List Value → List Issue
  | [] => []
  | v :: vs => (elementIssues v).map (Issue.under (.index index)) ++ elementsIssues (index + 1) vs

/-- Content is text and elements. -/
def contentIssues (index : Nat) : List Value → List Issue
  | [] => []
  | v :: vs =>
    (eitherIssues (textKind, issuesOf string v) (elementKind, elementIssues v)).map
      (Issue.under (.index index)) ++ contentIssues (index + 1) vs

end

end Notemark.Schema
