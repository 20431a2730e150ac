import Notemark.Body.Tokenize
import Notemark.Body.Tree
import Notemark.Document.Failure
import Notemark.Settings.Basic
import Notemark.Style.Pass

/-!
# Compiling a note

* `elementsOf`: the elements of a body,
* `assemble`: version, fields and elements put together, with their pipes compiled,
* `fallback`: a document that shows what is wrong with another,
* `compile`: the document of a note.
-/

namespace Notemark.Document

open Body (Mode)

variable [CallStack]

/-- The tokens of a body; a breach of the notation is noted. -/
def tokensOf (mode : Mode) (body : Text) : Run Failure (List Body.Token) := do
  match Body.scan mode body with
  | .ok (tokens, dropped) =>
    Run.tell (Body.scanNotes body tokens dropped)
    return tokens
  | .error e =>
    Run.error s!"[Hypernote Validation Error] {e.text}"
    throw (.scan e)

/-- The tree of some tokens. -/
def treeOf (tokens : List Body.Token) : Run Failure (List Value) := do
  Run.tell (Body.parseNotes tokens)
  match Body.parse tokens with
  | .ok elements => return Body.Element.toValues elements
  | .error f => throw (.tree f)

/-- Turns the classes of every element into styles. -/
def restyleAll : List Value → Run Failure (List Value)
  | [] => return []
  | v :: vs => do
    let first ← ExceptT.adapt Failure.style (Style.restyle v)
    return first :: (← restyleAll vs)

/-- The elements of a body. -/
def elementsOf (settings : Settings) (mode : Mode) (body : Text) : Run Failure (List Value) := do
  let elements ← treeOf (← tokensOf mode body)
  if settings.convertStyles then restyleAll elements else return elements

/-- A document with its pipes compiled. -/
def assemble (settings : Settings) (fields : Entries) (elements : List Value) :
    Run Pipe.Fault Entries :=
  let stamped := Entries.update [(.str "version", .str settings.documentVersion)] fields
  Pipe.processPipes (Entries.put "elements" (.list elements) stamped)

/-- The document of a note, not yet checked. -/
def build (settings : Settings) (mode : Mode) (note : Text) : Run Failure Value := do
  let strict := if mode = .strict then "True" else "False"
  Run.trace 2 s!"Compiling {note.length} characters (strict={strict})"
  let (fields, body) ← ExceptT.adapt Failure.header (Header.extract note)
  let elements ← elementsOf settings mode body
  return .map none (← ExceptT.adapt Failure.pipe (assemble settings fields elements))

/-! ## Checking -/

/-- How issues are written down. -/
def issuesFormat : JsonFormat :=
  { indent := some 2, plainOthers := true, levels := CallStack.reports }

/-- A document that shows a text under a heading. -/
def fallback (settings : Settings) (text : String) : Value :=
  .object
    [("version", .str settings.documentVersion),
      ("elements", .list
        [.object
          [("type", .str "div"),
            ("content", .list
              [.str "Validation Error:",
                .object [("type", .str "pre"), ("content", .strings [text])]])]])]

def issueNotes (issues : List Schema.Issue) : List Note :=
  .error s!"Hypernote validation failed with {issues.length} issue(s)" ::
    issues.map fun i => .trace 1 s!"  {i.placeText}: {i.breach.message}"

/-- A document that satisfies the schema is kept; any other gives way to one that shows its
issues. -/
def validated (settings : Settings) (document : Value) : Run Failure Value := do
  match Schema.documentIssues document with
  | [] =>
    Run.trace 2 "Document passed schema validation"
    return document
  | issues =>
    Run.tell (issueNotes issues)
    match (Value.list (issues.map Schema.Issue.toValue)).json issuesFormat with
    | .ok text => return fallback settings text
    | .error f => throw (.report f)

/-- The mode that the settings ask for. -/
def modeOf (settings : Settings) : Mode := if settings.strictMode then .strict else .lenient

/-- The document of a note. -/
def compile (settings : Settings) (mode : Mode) (note : Text) : Run Failure Value := do
  let document ← build settings mode note
  if settings.validateOutput then validated settings document else return document

end Notemark.Document
