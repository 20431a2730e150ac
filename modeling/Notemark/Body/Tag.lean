import Notemark.Body.Grammar
import Notemark.Body.TagStack

/-!
# Bracket tags

What stands between the brackets of a tag:

* `Attribute`: one item of an attribute list, `Attribute.Phase`: what is being read of one,
* `parseAttributes`: an attribute list, one character at a time; strict reading judges an item
  when it is complete,
* `parseClause`: what follows the name, by the kind of the tag,
* `takeTag`: the token of a tag, and the tags that are open behind it.
-/

namespace Notemark.Body

/-- An item of an attribute list. The offset is that of its first character within the tag. -/
inductive Attribute where
  | literal (value : Text)
  | pair (name : Text) (value : Option Text) (quoted : Bool) (offset : Nat)
  deriving Repr, DecidableEq

namespace Attribute

/-- What is being read; texts so far are in reverse order. -/
inductive Phase where
  | between
  | literal (soFar : Text)
  | name (start : Nat) (soFar : Text)
  | equals (start : Nat) (name : Text)
  | quoted (start : Nat) (name : Text) (soFar : Text)
  | bare (start : Nat) (name : Text) (soFar : Text)
  deriving Repr, DecidableEq

/-- One character more: the next phase, and the item that the character ends. -/
def Phase.step (offset : Nat) (c : Char) : Phase → Phase × Option Attribute
  | between =>
    if Text.isBlank c then (between, none)
    else if c = '"' then (literal [], none)
    else if c = '=' then (equals offset [], none)
    else (name offset [c], none)
  | literal soFar =>
    if c = '"' then (between, some (.literal soFar.reverse)) else (literal (c :: soFar), none)
  | name start soFar =>
    if Text.isBlank c then (between, some (.pair soFar.reverse none false start))
    else if c = '=' then (equals start soFar.reverse, none)
    else (name start (c :: soFar), none)
  | equals start n =>
    if c = '"' then (quoted start n [], none)
    else if Text.isBlank c then (between, some (.pair n (some []) false start))
    else (bare start n [c], none)
  | quoted start n soFar =>
    if c = '"' then (between, some (.pair n (some soFar.reverse) true start))
    else (quoted start n (c :: soFar), none)
  | bare start n soFar =>
    if Text.isBlank c then (between, some (.pair n (some soFar.reverse) false start))
    else (bare start n (c :: soFar), none)

/-- The end of the text ends whatever is being read, a quote that was never closed included. -/
def Phase.finish : Phase → List Attribute
  | between => []
  | literal soFar => [.literal soFar.reverse]
  | name start soFar => [.pair soFar.reverse none false start]
  | equals start n => [.pair n (some []) false start]
  | quoted start n soFar => [.pair n (some soFar.reverse) true start]
  | bare start n soFar => [.pair n (some soFar.reverse) false start]

/-- A literal is kept under its own key; an item without a name is not kept. -/
def store (as : Attributes) : Attribute → Attributes
  | literal value => as.set contentKey value
  | pair name value _ _ => if name.isEmpty then as else as.set name (value.getD [])

/-- The rule for an item of the tag text that starts at `inner`. Literals are free. -/
def check (map : SourceMap) (inner : Nat) : Attribute → Except ScanError Unit
  | literal _ => .ok ()
  | pair name value quoted offset =>
    report map (inner + offset) (Check.attributeItem name value quoted)

end Attribute

section Parsing

variable (mode : Mode) (map : SourceMap)

/-! ## What follows a name -/

/-- Adds an item of the tag text that starts at `inner` to the attributes. -/
def keepAttribute (inner : Nat) (as : Attributes) (item : Attribute) :
    Except ScanError Attributes := do
  mode.demand (item.check map inner)
  return item.store as

def parseAttributesFrom (inner : Nat) (phase : Attribute.Phase) (offset : Nat) (as : Attributes) :
    Text → Except ScanError Attributes
  | [] => phase.finish.foldlM (keepAttribute mode map inner) as
  | c :: cs =>
    match phase.step offset c with
    | (next, none) => parseAttributesFrom inner next (offset + 1) as cs
    | (next, some item) => do
      parseAttributesFrom inner next (offset + 1) (← keepAttribute mode map inner as item) cs

/-- Items of the form `name="value"`, `name=value`, bare names and quoted literals. -/
def parseAttributes (inner offset : Nat) (t : Text) : Except ScanError Attributes :=
  parseAttributesFrom mode map inner .between offset [] t

/-- `@event` comes first, then attributes. -/
def parseForm (start offset : Nat) (rest : Text) : Except ScanError Attributes := do
  let stripped := Text.stripStart rest
  let (event, used) :=
    if stripped.head? = some '@' then
      let event := stripped.takeWhile fun c => !Text.isBlank c
      (event, rest.length - stripped.length + event.length)
    else ([], 0)
  mode.demand (report map start (Check.event event))
  let as ← parseAttributes mode map (start + 1) (offset + used) (rest.drop used)
  return as.set eventKey event

/-- `source as variable`. -/
def parseEach (start : Nat) (rest : Text) : Except ScanError Attributes := do
  let padded := ' ' :: (Text.strip rest ++ [' '])
  let (source, loopVariable) :=
    match Text.cut? [' ', 'a', 's', ' '] padded with
    | some (source, loopVariable) => (Text.strip source, Text.strip loopVariable)
    | none => (Text.strip padded, [])
  mode.demand (report map start (Check.loop source loopVariable))
  return [(sourceKey, source), (variableKey, loopVariable)]

/-- What follows the name of the tag at `start`, by the kind of the tag; the offset is that of the
text within the tag. -/
def parseClause (kind : TagKind) (start offset : Nat) (rest : Text) :
    Except ScanError Attributes := do
  match kind with
  | .container .form => parseForm mode map start offset rest
  | .container .each => parseEach mode map start rest
  | .container .cond =>
    let condition := Text.strip rest
    mode.demand (report map start (Check.condition condition))
    return [(conditionKey, condition)]
  | .json =>
    let shown := Text.strip rest
    mode.demand (report map start (Check.jsonVariable shown))
    return [(variableKey, shown)]
  | _ => parseAttributes mode map (start + 1) offset rest

/-! ## Tags -/

/-- The characters that end an element name. -/
def endsName (c : Char) : Bool := c == ' ' || c == '\t' || c == '@' || c == '"'

variable (stack : TagStack Container) (start : Nat)

/-- The tags that are open behind a closing tag. Only strict reading keeps track of them. -/
def closeTag (name : Text) : Except ScanError (TagStack Container) :=
  match mode with
  | .lenient => .ok stack
  | .strict => (stack.pop name (map.position start)).map (·.2)

/-- The tags that are open behind the opening tag of a container. -/
def openTag (c : Container) (name : Text) : TagStack Container :=
  match mode with
  | .lenient => stack
  | .strict => stack.push ⟨c, name, map.position start⟩

/-- `[/name]`. -/
def takeClosing (name : Text) : Except ScanError (Token × TagStack Container) := do
  mode.demand (report map start (Check.elementName name))
  return (.closing (Container.ofName? name) name, ← closeTag mode map stack start name)

/-- `[#alias argument]`. -/
def takeComponent (t : Text) : Except ScanError (Token × TagStack Container) := do
  let body := Text.strip t
  let name := body.takeWhile fun c => !Text.isBlank c
  let argument := Text.strip (body.dropWhile fun c => !Text.isBlank c)
  mode.demand (report map start (Check.elementName name))
  return (.component ('#' :: name) [(aliasKey, '#' :: name), (argumentKey, argument)], stack)

/-- `[name …]`: a container waits for its closing tag. -/
def takeOpening (inner : Text) : Except ScanError (Token × TagStack Container) := do
  let name := inner.takeWhile fun c => !endsName c
  mode.demand (report map start (Check.elementName name))
  let kind := TagKind.ofName name
  let as ← parseClause mode map kind start name.length (inner.drop name.length)
  match kind with
  | .container c => return (.opening c name as, openTag mode map stack start c name)
  | _ => return (.leaf name as, stack)

/-- The tag at `start` with the given inner text: its token, and the tags that are open behind
it. -/
def takeTag (inner : Text) : Except ScanError (Token × TagStack Container) := do
  mode.demand (checkQuotes map (start + 1) inner)
  match inner with
  | '/' :: t => takeClosing mode map stack start (Text.strip t)
  | '#' :: t => takeComponent mode map stack start t
  | _ => takeOpening mode map stack start inner

end Parsing

end Notemark.Body
