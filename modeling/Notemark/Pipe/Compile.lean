import Notemark.Log
import Notemark.Pipe.Expression
import Notemark.Value.Depth
import Notemark.Value.Shown

/-!
# Compiling pipes

A pipe is a list of steps. Every step becomes a mapping with an `op` and its parameters:

* `isLegacy`: pipes whose first step is an `operation`,
* `compileStep`: a step in compact form,
* `expandOperation`: a step in the older form, which may become several,
* `compile`: a pipe in either form,
* `processPipes`: the pipes of all queries and events of a document.

A step that cannot be read is kept and noted. What fails is the work itself: a message that cannot
show its value, an index with too many digits, and pipes or entries that are nested too deeply.
-/

namespace Notemark.Pipe

/-- Why pipes are not compiled. -/
inductive Fault where
  /-- A message cannot show a value. -/
  | note (f : NoteFault)
  /-- The index of an expression has too many digits. -/
  | index (digits : Nat)
  /-- There is no room for a pipe inside a pipe, or for a copy of the entries. -/
  | depth
  deriving Repr, DecidableEq

namespace Fault

def kind : Fault → FaultKind
  | note f => f.kind
  | index _ => .value
  | depth => .depth

def message : Fault → String
  | note f => f.message
  | index digits => Text.tooManyDigits digits
  | depth => depthMessage

end Fault

/-- What a message shows of a value. -/
def shown (room : Nat) (v : Value) : Run Fault String :=
  Run.ofExcept ((v.shown? room).mapError .note)

/-- What a message shows of a name. -/
def plainName (name : Scalar) : Run Fault String := Run.ofExcept (name.plain?.mapError .note)

/-- Calls from a step to the steps of the pipe under its `map`. -/
def mapCalls : Nat := 3

/-- Calls from a step to the steps of a pipe in a field of its `construct`. -/
def fieldCalls : Nat := 6

/-- The room that some calls leave. -/
def deeper (calls room : Nat) : Run Fault Nat :=
  if calls ≤ room then return room - calls else throw .depth

/-- Operations with one parameter, and its name. -/
def parameterNames : List (String × String) :=
  [("save", "as"), ("get", "field"), ("pluck", "field"), ("groupBy", "field"), ("limit", "count"),
    ("take", "count"), ("drop", "count"), ("default", "value"), ("add", "value"),
    ("multiply", "value"), ("defaults", "value"), ("split", "separator"), ("join", "separator"),
    ("merge", "with"), ("pick", "fields"), ("omit", "fields"), ("where", "expression")]

/-- Operations that take a mapping of parameters, or one parameter of this name. -/
def spreadNames : List (String × String) :=
  [("sort", "by"), ("filter", "field"), ("filterTag", "tag"), ("pluckTag", "tag"),
    ("whereIndex", "index"), ("pluckIndex", "index")]

/-- Older operations that keep their name, with the parameters they keep. -/
def directNames : List (String × List String) :=
  [("reverse", []), ("flatten", ["depth"]), ("unique", ["by"]), ("sort", ["by", "order"])]

def lookup {α : Type} (table : List (String × α)) (name : String) : Option α :=
  (table.find? fun e => e.1 == name).map (·.2)

/-- A step with an operation and parameters. -/
def step (op : Scalar) (parameters : Entries) : Value :=
  .map none (Entries.update [(.str "op", .scalar op)] parameters)

def stepWith (op name : String) (value : Value) : Value := step (.str op) [(.str name, value)]

/-- The first step is an operation of the older form. -/
def isLegacy : List Value → Bool
  | .map _ es :: _ => Entries.has es "operation" && !Entries.has es "op"
  | _ => false

/-! ## The older form -/

/-- The code points of a string. -/
def codes? : Value → Option (List Nat)
  | .scalar (.str s) => some (Text.codes s.toList)
  | .scalar (.illFormed codes _) => some codes
  | _ => none

/-- The number that the digits of an index stand for. -/
def indexOf (digits : Text) : Run Fault Nat :=
  if Text.mostDigits < digits.length then throw (.index digits.length)
  else return (Text.decimalNumber? digits).getD 0

/-- What an extract expression becomes; one that is not understood becomes the content. -/
def extract (room : Nat) (expression : Value) : Run Fault (List Value) := do
  match (codes? expression).bind Expression.ofCodes? with
  | some (.field name) => return [stepWith "get" "field" (.str (String.ofList name))]
  | some (.tag name digits) =>
    return [step (.str "pluckTag")
      [(.str "tag", .scalar (.ofCodes name)), (.str "index", .int (← indexOf digits))]]
  | none =>
    Run.warning (s!"Cannot translate extract expression {← shown room expression}; " ++
      "falling back to get content")
    return [stepWith "get" "field" (.str "content")]

/-- The parameters that are given and not null. -/
def keptParameters (es : Entries) (names : List String) : Entries :=
  names.filterMap fun name =>
    match es.get? name with
    | none | some (.scalar .null) => none
    | some v => some (.str name, v)

/-- What an operation of the older form asks for, told by its name. -/
inductive Operation where
  | extract
  | map
  | filter
  /-- It keeps its name and these parameters. -/
  | direct (name : String) (parameters : List String)
  | unknown (name : Scalar)
  | nameless

def Operation.ofValue : Value → Operation
  | .scalar (.str "extract") => extract
  | .scalar (.str "map") => map
  | .scalar (.str "filter") => filter
  | .scalar (.str name) =>
    match lookup directNames name with
    | some parameters => direct name parameters
    | none => unknown (.str name)
  | .scalar (.illFormed codes half) => unknown (.illFormed codes half)
  | _ => nameless

/-- The steps of an operation of the older form. -/
def expandOperation (room : Nat) (v : Value) (es : Entries) (operation : Value) :
    Run Fault (List Value) := do
  let rest := es.erase "operation"
  let expression := (rest.get? "expression").getD .null
  match Operation.ofValue operation with
  | .extract =>
    let steps ← extract room expression
    match rest.get? "as" with
    | some name => return if name.holds then steps ++ [stepWith "save" "as" name] else steps
    | none => return steps
  | .map => return [stepWith "map" "pipe" (.list (← extract room expression))]
  | .filter => return [stepWith "where" "expression" ((rest.get? "expression").getD (.str ""))]
  | .direct name parameters => return [step (.str name) (keptParameters rest parameters)]
  | .unknown name =>
    Run.warning s!"Unknown legacy pipe operation: {name.plain}"
    return [step name rest]
  | .nameless =>
    Run.warning
      s!"Unreadable legacy pipe operation {← shown room operation}, passing through"
    return [v]

/-! ## The compact form -/

/-- What an operation of the compact form makes of its value. -/
inductive Parameter where
  | named (name : String)
  /-- A mapping gives all parameters. -/
  | spread (name : String)
  /-- Only a mapping is expected. -/
  | replace
  | unknown

def Parameter.ofOp : Scalar → Parameter
  | .str op =>
    match lookup parameterNames op with
    | some name => named name
    | none =>
      match lookup spreadNames op with
      | some name => spread name
      | none => if op = "replace" then replace else unknown
  | _ => unknown

/-- A compact step that holds no other pipe. -/
def compileFlat (room : Nat) (op : Scalar) (value : Value) : Run Fault Value := do
  match Parameter.ofOp op, value with
  | .named name, value => return step op [(.str name, value)]
  | .spread _, .map _ es | .replace, .map _ es => return step op es
  | .spread name, value => return step op [(.str name, value)]
  | .replace, value =>
    Run.warning s!"replace expects a mapping with from/to, got {← shown room value}"
    return step op [(.str "value", value)]
  | .unknown, value =>
    Run.warning s!"Unknown pipe operation: {← plainName op}"
    return step op [(.str "value", value)]

def unreadable (room : Nat) (v : Value) : Run Fault Value := do
  Run.warning s!"Unreadable pipe step {← shown room v}, passing through"
  return v

def manyKeys (room : Nat) (v : Value) : Run Fault Value := do
  Run.warning s!"Multi-key object in pipe: {← shown room v}"
  return v

/-- The operation of a step in the older form. -/
def operation? : Value → Option (Entries × Value)
  | .map _ es => (Entries.get? es "operation").map fun operation => (es, operation)
  | _ => none

/-- A step of a pipe in the older form, which may be a compact one. -/
def expandStep (room : Nat) (v : Value) (compact : Run Fault Value) : Run Fault (List Value) :=
  match operation? v with
  | some (es, operation) => expandOperation room v es operation
  | none => do return [← compact]

mutual

/-- A step in compact form, with so many calls left; one that has an `op` is finished. -/
def compileStep (room : Nat) : Value → Run Fault Value
  | .scalar (.str s) => return step (.str s) []
  | .scalar (.illFormed codes half) => return step (.illFormed codes half) []
  | .map label [(op, value)] =>
    if op.sameKey (.str "op") then return .map label [(op, value)]
    else if op.sameKey (.str "map") then do
      return stepWith "map" "pipe" (← compileUnderMap room value)
    else if op.sameKey (.str "construct") then compileConstruct room value
    else compileFlat room op value
  | .map label es =>
    if Entries.has es "op" then return .map label es else manyKeys room (.map label es)
  | v => unreadable room v

/-- What stands under `map`: a list is taken for a compact pipe. -/
def compileUnderMap (room : Nat) : Value → Run Fault Value
  | .list steps => do
    let inner ← deeper mapCalls room
    return .list (← compileSteps inner steps)
  | v => return v

/-- A construct step; its fields stand under `fields`, or by themselves. -/
def compileConstruct (room : Nat) : Value → Run Fault Value
  | .map _ es => do
    let fields ← (constructFields room es).getD (compileFields room es)
    return stepWith "construct" "fields" (.map none fields)
  | v => do
    Run.warning s!"construct expects a mapping of field pipes, got {← shown room v}"
    return stepWith "construct" "value" v

/-- Every step of a compact pipe. -/
def compileSteps (room : Nat) : List Value → Run Fault (List Value)
  | [] => return []
  | v :: vs => do
    let first ← compileStep room v
    return first :: (← compileSteps room vs)

/-- Every step of a pipe in the older form. -/
def expandSteps (room : Nat) : List Value → Run Fault (List Value)
  | [] => return []
  | v :: vs => do
    let first ← expandStep room v (compileStep room v)
    return first ++ (← expandSteps room vs)

/-- The pipes under the `fields` of a construct step, if it has a mapping there. -/
def constructFields (room : Nat) : List (Scalar × Value) → Option (Run Fault Entries)
  | [] => none
  | (k, v) :: es =>
    if k.sameKey (.str "fields") then
      match v with
      | .map _ fields => some (compileFields room fields)
      | _ => none
    else constructFields room es

/-- One pipe per field. -/
def compileFields (room : Nat) : List (Scalar × Value) → Run Fault Entries
  | [] => return []
  | (k, v) :: es => do
    let pipe ← compileField room v
    return (k, pipe) :: (← compileFields room es)

/-- The pipe of a field; what is no list is kept. -/
def compileField (room : Nat) : Value → Run Fault Value
  | .list steps => do
    let inner ← deeper fieldCalls room
    if isLegacy steps then
      Run.trace 2 "Compiling legacy operation pipe"
      return .list (← expandSteps inner steps)
    else return .list (← compileSteps inner steps)
  | v => return v

end

/-- A pipe in either form, with so many calls left for its steps; what is no list is kept. -/
def compile (room : Nat) : Value → Run Fault Value
  | .list steps => do
    if isLegacy steps then
      Run.trace 2 "Compiling legacy operation pipe"
      return .list (← expandSteps room steps)
    else return .list (← compileSteps room steps)
  | v => return v

/-! ## Documents -/

mutual

/-- Gives new entries to every mapping of a label. -/
def relabel (label : Nat) (new : Entries) : Value → Value
  | .list items => .list (relabelItems label new items)
  | .tuple items => .tuple (relabelItems label new items)
  | .map l entries =>
    if l = some label then .map l new else .map l (relabelEntries label new entries)
  | v => v

def relabelItems (label : Nat) (new : Entries) : List Value → List Value
  | [] => []
  | v :: vs => relabel label new v :: relabelItems label new vs

def relabelEntries (label : Nat) (new : Entries) : List (Scalar × Value) → List (Scalar × Value)
  | [] => []
  | (k, v) :: es => (k, relabel label new v) :: relabelEntries label new es

end

variable [CallStack]

/-- Compiles the pipe of one entry of a section. Entries of one label change together. -/
def processEntry (entries : Entries) (name : Scalar) : Run Fault Entries := do
  match entries.lookup name with
  | some (.map label es) =>
    match Entries.get? es "pipe" with
    | some pipe =>
      let es := Entries.put "pipe" (← compile CallStack.pipes pipe) es
      Run.trace 3 s!"Compiled pipe for {← plainName name}"
      match label with
      | some l => return relabelEntries l es entries
      | none => return entries.set name (.map none es)
    | none => return entries
  | _ => return entries

def processNames (entries : Entries) : List Scalar → Run Fault Entries
  | [] => return entries
  | name :: names => do processNames (← processEntry entries name) names

/-- Compiles the pipes of one section, in a copy of its entries. -/
def processSection (document : Entries) (name : String) : Run Fault Entries := do
  match document.get? name with
  | some (.map label entries) =>
    if !CallStack.copies (.map label entries) then throw .depth
    let entries ← processNames entries (entries.map (·.1))
    return Entries.put name (.map label entries) document
  | _ => return document

/-- Compiles the pipe of every query and every event of a document. -/
def processPipes (document : Entries) : Run Fault Entries := do
  processSection (← processSection document "queries") "events"

end Notemark.Pipe
