import Notemark.Body.Fault

/-!
# The strict grammar

What strict reading demands of each construct, apart from the balance of the tags:

* `matchesName`: names of elements, attributes, loop variables and events,
* `openQuote?`: the double quote that is never closed,
* `Check`: one rule per construct, each naming the fault it finds,
* `report`, `checkQuotes`: rules with the positions of their faults,
* `Mode.demand`: a rule that only strict reading looks at.
-/

namespace Notemark.Body

/-- A first character of one class, then characters of another. -/
def isName (first rest : Char → Bool) : Text → Bool
  | [] => false
  | c :: cs => first c && cs.all rest

/-- The same up to one line feed at the end. -/
def matchesName (first rest : Char → Bool) (t : Text) : Bool :=
  isName first rest t || (t.getLast? == some '\n' && isName first rest t.dropLast)

def isElementChar (c : Char) : Bool := c.isAlphanum || c == '_' || c == '-'

def isLoopHead (c : Char) : Bool := c.isAlpha || c == '_' || c == '$'

def isLoopChar (c : Char) : Bool := c.isAlphanum || c == '_' || c == '$'

def isEventHead (c : Char) : Bool := c.isAlpha || c == '_'

def isEventChar (c : Char) : Bool := c.isAlphanum || c == '_'

/-- Looks for a quote that is never closed; a quote after a backslash does not count. -/
def openQuoteFrom (index : Nat) (before : Option Char) (opened : Option Nat) : Text → Option Nat
  | [] => opened
  | c :: cs =>
    let opened :=
      if c == '"' && before != some '\\' then
        match opened with
        | none => some index
        | some _ => none
      else opened
    openQuoteFrom (index + 1) (some c) opened cs

/-- The index of the double quote that is opened and never closed. -/
def openQuote? (t : Text) : Option Nat := openQuoteFrom 0 none none t

/-- The brace depth after a text; reading stops where it becomes negative. -/
def braceDepth (depth : Int) : Text → Int
  | [] => depth
  | c :: cs =>
    let depth := if c = '{' then depth + 1 else if c = '}' then depth - 1 else depth
    if depth < 0 then depth else braceDepth depth cs

namespace Check

def elementName (name : Text) : Except Fault Unit :=
  if Text.allBlank name then .error .emptyElementName
  else if name.contains '\n' || name.contains '\r' then .error (.elementNameNewline name)
  else if matchesName Char.isAlpha isElementChar name then .ok ()
  else .error (.invalidElementName name)

def attributeItem (name : Text) (value : Option Text) (quoted : Bool) : Except Fault Unit :=
  if !matchesName Char.isAlpha isElementChar name then .error (.invalidAttributeName name)
  else if value.isSome && !quoted then .error (.unquotedAttribute name)
  else .ok ()

def condition (t : Text) : Except Fault Unit :=
  let trimmed := Text.strip t
  if trimmed.isEmpty then .error .emptyCondition
  else if trimmed = ['{', '}'] || trimmed = ['[', ']'] || trimmed = ['(', ')'] then
    .error (.invalidCondition trimmed)
  else .ok ()

def loop (source loopVariable : Text) : Except Fault Unit :=
  if source.head? ≠ some '$' then .error (.invalidLoopSource source)
  else if Text.allBlank loopVariable then .error .missingLoopVariable
  else
    let bare := if loopVariable.head? = some '$' then loopVariable.drop 1 else loopVariable
    if matchesName isLoopHead isLoopChar bare then .ok ()
    else .error (.invalidLoopVariable loopVariable)

def event (t : Text) : Except Fault Unit :=
  if Text.allBlank t then .error .missingFormEvent
  else if t.head? ≠ some '@' then .error (.invalidFormEvent t)
  else if matchesName isEventHead isEventChar (t.drop 1) then .ok ()
  else .error (.invalidEventName t)

/-- A reference, given with its braces, holds something and its braces balance. -/
def reference (raw : Text) : Except Fault Unit :=
  let inner := if raw.getLast? = some '}' then (raw.drop 1).dropLast else raw.drop 1
  if Text.allBlank inner then .error .emptyReference
  else if braceDepth 0 raw ≠ 0 then .error (.unbalancedReference raw)
  else .ok ()

def jsonVariable (t : Text) : Except Fault Unit :=
  if t.isEmpty then .error .emptyJsonVariable else .ok ()

end Check

/-! ## Rules with positions -/

/-- Reports a fault at an offset. -/
def report (map : SourceMap) (offset : Nat) (r : Except Fault Unit) : Except ScanError Unit :=
  r.mapError fun fault => ⟨fault, map.position offset⟩

/-- A text at an offset leaves no quote open. -/
def checkQuotes (map : SourceMap) (offset : Nat) (t : Text) : Except ScanError Unit :=
  match openQuote? t with
  | none => .ok ()
  | some index => .error ⟨.unclosedQuote, map.position (offset + index)⟩

/-! ## Modes -/

inductive Mode where
  | lenient
  | strict
  deriving Repr, DecidableEq

/-- Strict reading keeps to a rule that lenient reading does not look at. -/
def Mode.demand (mode : Mode) (rule : Except ScanError Unit) : Except ScanError Unit :=
  match mode with
  | .lenient => .ok ()
  | .strict => rule

end Notemark.Body
