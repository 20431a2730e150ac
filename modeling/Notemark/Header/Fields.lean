import Notemark.Address.Pointer
import Notemark.Header.Split
import Notemark.Log
import Notemark.Style.Class
import Notemark.Value.Depth

/-!
# Fields of a header

* `Section`: where an entry of the header goes, told by its name,
* `fieldsOf`: the fields that the entries of a header give a document,
* `extract`: the fields and the body of a note.
-/

namespace Notemark.Header

/-- Why a header has no fields. A block that breaks the notation is no fault: it has none. -/
inductive Fault where
  | data (f : Yaml.Fault)
  | style (f : Style.ClassFault)
  /-- A message cannot show a key. -/
  | note (f : NoteFault)
  deriving Repr, DecidableEq

namespace Fault

def kind : Fault → FaultKind
  | data f => f.kind
  | style f => f.kind
  | note f => f.kind

def message : Fault → String
  | data f => f.message
  | style f => f.message
  | note f => f.message

end Fault

/-- Where an entry goes. -/
inductive Section where
  | events
  /-- The query of a component asks for the one event itself. -/
  | queries (component : Bool)
  | style
  | copied
  | unknown
  deriving Repr, DecidableEq

/-- Names that are taken over with their values. -/
def copiedNames : List String := ["kind", "type", "title", "description", "name", "imports"]

def Section.ofName (name : String) : Section :=
  match name.toList.head? with
  | some '@' => .events
  | some '$' => .queries false
  | some '#' => .queries true
  | _ => if name = "style" then .style else if copiedNames.contains name then .copied else .unknown

/-- The section of a key, if it is a string. One that is no text is none of the names. -/
def Section.ofKey? : Scalar → Option Section
  | .str name => some (ofName name)
  | .illFormed codes _ => some (ofName (String.ofList (Text.repaired codes)))
  | _ => none

/-- Puts an entry in the mapping under a field, which is made if it is not there. -/
def putIn (field : String) (name : Scalar) (value : Value) (fields : Entries) : Entries :=
  let entries := ((fields.get? field).bind Value.entries?).getD []
  Entries.put field (.map none (entries.set name value)) fields

/-- An address that cannot be read is kept. -/
def keepAddress (value : Value) (codes : List Nat) : Logged Value := do
  let start := String.ofList (Text.spelled (codes.take 24))
  Logged.tell [.warning s!"Could not decode naddr '{start}...', keeping it as-is"]
  return value

/-- An address given for a query becomes the query for it. -/
def expandQuery (component : Bool) (value : Value) : Logged Value := do
  match value with
  | .scalar (.str s) =>
    if Address.Pointer.labelText.isPrefixOf s.toList then
      match Address.Pointer.decode s.toList with
      | .ok pointer =>
        Logged.tell [.trace 2 s!"Expanded naddr into query for kind {pointer.kind}"]
        return pointer.query component
      | .error _ => keepAddress value (Text.codes s.toList)
    else return value
  | .scalar (.illFormed codes _) =>
    if Address.Pointer.labelText.isPrefixOf (Text.repaired codes) then keepAddress value codes
    else return value
  | v => return v

/-- The style of the whole document, from a text of classes and the way it is shown. -/
def putClasses (classes : Text) (shown : String) (fields : Entries) :
    Run Style.ClassFault Entries := do
  match ← Style.styleOf classes with
  | some style => return Entries.put "style" style.toValue fields
  | none =>
    Run.warning s!"Failed to convert root style \"{shown}\""
    return fields

/-- The style of the whole document. -/
def putStyle (value : Value) (fields : Entries) : Run Style.ClassFault Entries := do
  match value with
  | .scalar (.str classes) => putClasses classes.toList classes fields
  | .scalar (.illFormed codes _) =>
    putClasses (Text.repaired codes) (String.ofList (Text.spelled codes)) fields
  | v =>
    Run.warning s!"Root style must be a string of classes, got {v.typeName}"
    return fields

/-- What a message shows of a key. -/
def shownKey (key : Scalar) : Run Fault String := Run.ofExcept (key.shown?.mapError .note)

def plainKey (key : Scalar) : Run Fault String := Run.ofExcept (key.plain?.mapError .note)

/-- Adds an entry of the header to the fields. -/
def putEntry (fields : Entries) (key : Scalar) (value : Value) : Run Fault Entries := do
  match Section.ofKey? key with
  | some .events => return putIn "events" key value fields
  | some (.queries component) =>
    let value ← Run.ofLogged (expandQuery component value)
    return putIn "queries" key value fields
  | some .style => ExceptT.adapt Fault.style (putStyle value fields)
  | some .copied => return fields.set key value
  | some .unknown =>
    Run.trace 3 s!"Ignoring unknown frontmatter key '{key.plain}'"
    return fields
  | none =>
    Run.trace 2 s!"Ignoring non-string frontmatter key {← shownKey key}"
    return fields

def putEntries (fields : Entries) : List (Scalar × Value) → Run Fault Entries
  | [] => return fields
  | (key, value) :: later => do putEntries (← putEntry fields key value) later

/-- The fields that a header's entries give a document. -/
def fieldsOf (entries : Entries) : Run Fault Entries := putEntries [] entries

def plainKeys : Entries → Run Fault (List String)
  | [] => return []
  | (key, _) :: later => do
    let first ← plainKey key
    return first :: (← plainKeys later)

/-- The fields of a header that is a mapping. -/
def mappingFields (entries : Entries) : Run Fault Entries := do
  Run.trace 3 s!"Frontmatter keys: {commaList (← plainKeys entries)}"
  fieldsOf entries

variable [CallStack]

/-- The value of a block, if its collections are not nested too deeply to be read. -/
def readBlock (block : Text) : Except Yaml.Fault Value :=
  if CallStack.reads block then Yaml.load block else .error .depth

/-- The fields of a header's block. A block without data has none, and neither has one whose data
is no mapping or cannot be read. -/
def blockFields (block : Text) : Run Fault Entries := do
  match readBlock block with
  | .error .malformed =>
    Run.error "Failed to parse YAML frontmatter"
    return []
  | .error f => throw (.data f)
  | .ok (.scalar .null) => mappingFields []
  | .ok (.map _ entries) => mappingFields entries
  | .ok v =>
    Run.warning s!"Frontmatter must be a mapping, got {v.typeName}"
    return []

/-- The fields and the body of a note. -/
def extract (t : Text) : Run Fault (Entries × Text) := do
  match split t with
  | (none, body) => return ([], body)
  | (some block, body) => return (← blockFields block, body)

end Notemark.Header
