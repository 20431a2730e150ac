import Notemark.Body.Construct
import Notemark.Body.Tag

/-!
# Scanners

A scanner looks at the text at a cursor and takes some of it, or leaves it to the next scanner. In
strict mode it gives up where a construct breaks a rule. There is one scanner for each construct,
over any monad with lookahead:

* `Taken`: how much a scanner takes, and what that amounts to,
* `newlineScan`, `headingScan`, `idMarkerScan`, `styleMarkerScan`, `variableScan`, `imageScan`,
  `tagScan`, `boldScan`, `italicScan`: the constructs, in the order in which they are tried,
* `textScan`: plain text, which is what is left,
* `scanAt`: the first scanner that takes something.
-/

namespace Notemark.Body

/-- What the characters that a scanner takes amount to. -/
inductive Output where
  | token (t : Token)
  /-- Plain text waits for more of it. -/
  | plain (run : Text)
  /-- A marker without an id amounts to nothing. -/
  | dropped
  deriving Repr, DecidableEq

/-- What a scanner takes: so many characters, and the tags that are open behind them. -/
structure Taken where
  size : Nat
  output : Output
  stack : TagStack Container
  deriving Repr, DecidableEq

section Scanners

variable {m : Type → Type} [Monad m] [Lookahead m] [MonadExceptOf ScanError m]
variable (mode : Mode) (map : SourceMap) (stack : TagStack Container) (k : Cursor) (rest : Text)

open Lookahead MonadExcept

def newlineScan : m (Option Taken) :=
  if rest.head? = some '\n' then return some ⟨1, .token .newline, stack⟩ else return none

/-- One to six number signs with only indentation before them, then a space, a tab or the end of
the line, then the title. -/
def headingScan : m (Option Taken) := do
  if rest.head? = some '#' && k.fresh then
    let level := (rest.takeWhile (· == '#')).length
    let after := rest.drop level
    if level ≤ 6 && endsSigns after then
      let size ← lineAhead (k.offset + level) after
      let title := Text.strip (after.take size)
      return some ⟨level + size, .token (.heading (some level) title), stack⟩
    else return none
  else return none

/-- How long the id of a marker is: it ends at the first closing brace of its line. -/
def idLength : m (Option Nat) := do
  match ← ahead '}' (k.offset + 2) (rest.drop 2) with
  | none => return none
  | some size =>
    let line ← lineAhead k.offset rest
    if size + 2 > line then return none else return some size

def idMarkerScan : m (Option Taken) := do
  if ['{', '#'].isPrefixOf rest then
    match ← idLength k rest with
    | none =>
      ofExcept (mode.demand (report map k.offset (.error .unterminatedIdMarker)))
      return none
    | some size =>
      let id := Text.strip ((rest.drop 2).take size)
      if id.isEmpty then
        ofExcept (mode.demand (report map k.offset (.error .emptyIdMarker)))
        return some ⟨size + 3, .dropped, stack⟩
      else return some ⟨size + 3, .token (.idMarker (some id)), stack⟩
  else return none

/-- What strict reading says of a style marker that is broken. -/
def refuseStyleMarker : m Unit := do
  if (rest.drop styleHead.length).head? = some '"' then
    let size ← lineAhead k.offset rest
    ofExcept (checkQuotes map k.offset (rest.take size))
    ofExcept (report map k.offset (.error .malformedStyleMarker))
  else ofExcept (report map (k.offset + styleHead.length) (.error .unquotedClass))

def styleMarkerScan : m (Option Taken) := do
  if styleHead.isPrefixOf rest then
    match styleClasses? rest with
    | some classes =>
      return some ⟨styleHead.length + classes.length + 3, .token (.styleMarker classes), stack⟩
    | none =>
      if mode = .strict then refuseStyleMarker map k rest
      return none
  else return none

/-- What strict reading says of a reference that is not closed on its line. -/
def judgeOpenReference : m Unit := do
  let size ← lineAhead k.offset rest
  ofExcept (report map k.offset (Check.reference (rest.take size)))

/-- A reference ends at the brace that balances its first one. -/
def variableScan : m (Option Taken) := do
  if isReference rest then
    match ← braceAhead k.offset rest with
    | some size =>
      let raw := rest.take (size + 1)
      ofExcept (mode.demand (report map k.offset (Check.reference raw)))
      return some ⟨size + 1, .token (.reference raw), stack⟩
    | none =>
      if mode = .strict then judgeOpenReference map k rest
      return none
  else return none

def imageScan : m (Option Taken) :=
  if ['!', '['].isPrefixOf rest then
    match imageParts? rest with
    | some (description, source) =>
      return some
        ⟨description.length + source.length + 5,
          .token (.image [(srcKey, Text.strip source), (altKey, description)]), stack⟩
    | none => return none
  else return none

def tagScan : m (Option Taken) := do
  if rest.head? = some '[' then
    match ← tagEnd k.offset (rest.drop 1) with
    | none =>
      ofExcept (mode.demand (report map k.offset (.error .unclosedElement)))
      return none
    | some size =>
      let (token, stack) ← ofExcept (takeTag mode map stack k.offset ((rest.drop 1).take size))
      return some ⟨size + 2, .token token, stack⟩
  else return none

/-- Bold text is closed on its line and not empty. -/
def boldScan : m (Option Taken) := do
  if ['*', '*'].isPrefixOf rest then
    match Text.distanceTo ['*', '*'] (rest.drop 2) with
    | none => return none
    | some size =>
      if size = 0 then return none
      else
        let line ← lineAhead k.offset rest
        if size + 2 > line then return none
        else return some ⟨size + 4, .token (.bold ((rest.drop 2).take size)), stack⟩
  else return none

/-- Italic text is closed on its line and touches no other star. -/
def italicScan : m (Option Taken) := do
  let t := rest.drop 1
  if rest.head? = some '*' && t.head? != some '*' && k.before != some '*' then
    match ← ahead '*' (k.offset + 1) t with
    | none => return none
    | some size =>
      if size = 0 then return none
      else
        let line ← lineAhead k.offset rest
        if size + 1 > line || ['*', '*'].isPrefixOf (t.drop size) then return none
        else return some ⟨size + 2, .token (.italic (t.take size)), stack⟩
  else return none

/-- Plain text up to the next character that may begin a construct. -/
def textScan : Taken := ⟨(plainRun k rest).length, .plain (plainRun k rest), stack⟩

/-- The scanners in the order in which they are tried. -/
def scanners : List (m (Option Taken)) :=
  [newlineScan stack rest, headingScan stack k rest, idMarkerScan mode map stack k rest,
    styleMarkerScan mode map stack k rest, variableScan mode map stack k rest,
    imageScan stack rest, tagScan mode map stack k rest, boldScan stack k rest,
    italicScan stack k rest]

/-- What the first scanner that takes something takes. -/
def firstTaken : List (m (Option Taken)) → m (Option Taken)
  | [] => return none
  | scan :: later => do
    match ← scan with
    | some taken => return some taken
    | none => firstTaken later

/-- What is taken at the cursor. -/
def scanAt : m Taken := do
  match ← firstTaken (scanners mode map stack k rest) with
  | some taken => return taken
  | none => return textScan stack k rest

end Scanners

end Notemark.Body
