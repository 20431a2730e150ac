import Notemark.Schema.Element

/-!
# The schema of documents

* `operationIssues`, `definitionIssues`: steps of a pipe, queries and events,
* `documentIssues`: the issues of a document,
* `accept`: a document without issues, its kind as a number.

An element is checked whatever the number of elements around it: the check is taken to have room for
every depth, unlike the work that `CallStack` bounds.
-/

namespace Notemark.Schema

/-! ## Queries and events -/

/-- A step of a pipe has an operation; its parameters are free. -/
def operationIssues : Value → List Issue
  | .map label es =>
    recordIssues [⟨"op", true⟩] (.map label es) <| es.map fun e =>
      (e.1, if e.1 = .str "op" then nonEmptyIssues e.2 else otherIssues .allowed e.1 e.2)
  | v => [⟨.record "Operation", [], v⟩]

/-- The definition of a query or an event: only its pipe is constrained. -/
def definitionRecordIssues : Value → List Issue
  | .map label es =>
    recordIssues [⟨"pipe", false⟩] (.map label es) <| es.map fun e =>
      (e.1, if e.1 = .str "pipe" then optional (listIssues operationIssues) e.2
        else otherIssues .allowed e.1 e.2)
  | v => [⟨.record "Entry", [], v⟩]

/-- A query or an event is defined by a mapping or by a string. -/
def definitionIssues (v : Value) : List Issue :=
  eitherIssues ("Entry", definitionRecordIssues v) (textKind, issuesOf string v)

/-- The first name that begins with none of the given characters. -/
def badName? (marks : List Char) (es : Entries) : Option String :=
  (es.map (·.1.plain)).find? fun name =>
    match name.toList.head? with
    | some c => !marks.contains c
    | none => true

/-- Definitions by name. Names are looked at only if all definitions are right. -/
def definitionsIssues (marks : List Char) (complaint : String → String) (v : Value) : List Issue :=
  let found := mappingIssues definitionIssues v
  if found.isEmpty then
    match v.entries?.bind (badName? marks) with
    | some name => [⟨.rule (complaint name), [], v⟩]
    | none => []
  else found

def eventsIssues : Value → List Issue :=
  definitionsIssues ['@'] fun name => s!"Event names must start with '@', got '{name}'"

def queriesIssues : Value → List Issue :=
  definitionsIssues ['$', '#'] fun name =>
    s!"Query names must start with '$' or '#', got '{name}'"

/-! ## Documents -/

def documentFields : List Field :=
  [⟨"version", true⟩, ⟨"elements", true⟩, ⟨"events", false⟩, ⟨"queries", false⟩, ⟨"style", false⟩,
    ⟨"imports", false⟩, ⟨"kind", false⟩, ⟨"type", false⟩, ⟨"name", false⟩, ⟨"title", false⟩,
    ⟨"description", false⟩]

/-- The issues of one entry of a document. -/
def documentFieldIssues (key : Scalar) (v : Value) : List Issue :=
  match key with
  | .str "version" => issuesOf string v
  | .str "elements" => listIssues elementIssues v
  | .str "events" => optional eventsIssues v
  | .str "queries" => optional queriesIssues v
  | .str "style" | .str "imports" => optional (mappingIssues fun _ => []) v
  | .str "kind" => optional (issuesOf integer) v
  | .str "type" | .str "name" | .str "title" | .str "description" => optional (issuesOf string) v
  | key => otherIssues .forbidden key v

def documentIssues : Value → List Issue
  | .map label es =>
    recordIssues documentFields (.map label es) (es.map fun e => (e.1, documentFieldIssues e.1 e.2))
  | v => [⟨.record "Document", [], v⟩]

/-- Whether a document satisfies the schema. -/
def isValid (v : Value) : Bool := (documentIssues v).isEmpty

/-- A document with its kind as a number. -/
def withKind : Value → Value
  | .map label es =>
    match (Entries.get? es "kind").map integer with
    | some (.ok kind) => .map label (Entries.put "kind" (.int kind) es)
    | _ => .map label es
  | v => v

/-- A document that satisfies the schema, or its issues. -/
def accept (v : Value) : Except (List Issue) Value :=
  let issues := documentIssues v
  if issues.isEmpty then .ok (withKind v) else .error issues

/-- How a document with issues is announced. -/
def issuesSummary (issues : List Issue) : String :=
  let noun := if issues.length = 1 then "error" else "errors"
  s!"{issues.length} validation {noun} for Document"

end Notemark.Schema
