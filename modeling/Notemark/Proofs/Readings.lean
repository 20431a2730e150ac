import Notemark.Body.Tokenize
import Notemark.Proofs.TagForms

/-!
# Readings

What stands in a body can be said without saying what the scanners do with it. What stands at a
cursor is a reading, whether it is well formed or not:

* `Reading`: what can stand at a cursor; `Reading.span` is the text it covers, `Reading.output` what
  it amounts to,
* `Breach`: a construct that begins at the cursor but is broken, so that it reads as text,
* `readAt`: the reading at a cursor, `readings`: all readings of a text, each with its offset,
* `assemble`: readings to tokens,
* `Placed.check`, `Placed.balance`, `review`: what strict reading says of readings,
* `tokensOf`: the tokens of a text whose readings are known.
-/

namespace Notemark.Body

/-- A construct that is begun and never completed. The texts run to the end of the line. -/
inductive Breach where
  | idMarker
  | styleMarker (line : Text)
  | reference (line : Text)
  | tag
  deriving Repr, DecidableEq

/-- What stands at a cursor, by its source text. -/
inductive Reading where
  | newline
  | heading (level : Nat) (rest : Text)
  | idMarker (inner : Text)
  | styleMarker (classes : Text)
  | reference (raw : Text)
  | image (description source : Text)
  | tag (inner : Text)
  | bold (inner : Text)
  | italic (inner : Text)
  | text (run : Text) (breach : Option Breach)
  deriving Repr, DecidableEq

namespace Reading

/-- The text a reading covers. -/
def span : Reading → Text
  | newline => ['\n']
  | heading level rest => List.replicate level '#' ++ rest
  | idMarker inner => '{' :: '#' :: (inner ++ ['}'])
  | styleMarker classes => styleHead ++ '"' :: (classes ++ ['"', '}'])
  | reference raw => raw
  | image description source => '!' :: '[' :: (description ++ ']' :: '(' :: (source ++ [')']))
  | tag inner => '[' :: (inner ++ [']'])
  | bold inner => '*' :: '*' :: (inner ++ ['*', '*'])
  | italic inner => '*' :: (inner ++ ['*'])
  | text run _ => run

/-- The token of a reading: plain text makes none of its own, nor does a marker without an id. -/
def token? : Reading → Option Token
  | newline => some .newline
  | heading level rest => some (.heading (some level) (Text.strip rest))
  | idMarker inner =>
    let id := Text.strip inner
    if id.isEmpty then none else some (.idMarker (some id))
  | styleMarker classes => some (.styleMarker classes)
  | reference raw => some (.reference raw)
  | image description source =>
    some (.image [(srcKey, Text.strip source), (altKey, description)])
  | tag inner => some (Tag.ofInner inner).token
  | bold inner => some (.bold inner)
  | italic inner => some (.italic inner)
  | text _ _ => none

/-- What a reading amounts to. -/
def output : Reading → Output
  | text run _ => .plain run
  | reading =>
    match reading.token? with
    | none => .dropped
    | some token => .token token

end Reading

/-- A plain run that begins with a broken construct, or with none. -/
def plain (k : Cursor) (rest : Text) (breach : Option Breach) : Reading :=
  .text (plainRun k rest) breach

/-! ## Constructs -/

section Constructs

variable (k : Cursor) (rest : Text)

/-- One to six number signs, then a space, a tab or the end of the line, then the title. -/
def readHeading : Reading :=
  if (rest.takeWhile (· == '#')).length ≤ 6 &&
    endsSigns (rest.drop (rest.takeWhile (· == '#')).length)
  then .heading (rest.takeWhile (· == '#')).length
    ((rest.drop (rest.takeWhile (· == '#')).length).take
      (Text.lineLength (rest.drop (rest.takeWhile (· == '#')).length)))
  else plain k rest none

/-- The id of a marker ends at the first closing brace of its line. -/
def readIdMarker : Reading :=
  match Text.distance '}' (rest.drop 2) with
  | none => plain k rest (some .idMarker)
  | some size =>
    if size + 2 > Text.lineLength rest then plain k rest (some .idMarker)
    else .idMarker ((rest.drop 2).take size)

def readStyleMarker : Reading :=
  match styleClasses? rest with
  | some classes => .styleMarker classes
  | none => plain k rest (some (.styleMarker (rest.take (Text.lineLength rest))))

/-- A reference ends at the brace that balances its first one. -/
def readReference : Reading :=
  match braceDistance 0 rest with
  | some size => .reference (rest.take (size + 1))
  | none => plain k rest (some (.reference (rest.take (Text.lineLength rest))))

def readTag : Reading :=
  match Id.run (tagEnd k.offset (rest.drop 1)) with
  | some size => .tag ((rest.drop 1).take size)
  | none => plain k rest (some .tag)

/-- Bold text is closed on its line and not empty. -/
def readBold : Reading :=
  match Text.distanceTo ['*', '*'] (rest.drop 2) with
  | none => plain k rest none
  | some size =>
    if size == 0 || size + 2 > Text.lineLength rest then plain k rest none
    else .bold ((rest.drop 2).take size)

/-- Italic text is closed on its line and touches no other star. -/
def readItalic : Reading :=
  if (rest.drop 1).head? == some '*' || k.before == some '*' then plain k rest none
  else
    match Text.distance '*' (rest.drop 1) with
    | none => plain k rest none
    | some size =>
      if size == 0 || size + 1 > Text.lineLength rest then plain k rest none
      else if ['*', '*'].isPrefixOf ((rest.drop 1).drop size) then plain k rest none
      else .italic ((rest.drop 1).take size)

/-- What stands at the cursor, given the text from there on. -/
def readAt : Reading :=
  match rest with
  | '\n' :: _ => .newline
  | '#' :: _ => if k.fresh then readHeading k rest else plain k rest none
  | '{' :: '#' :: _ => readIdMarker k rest
  | '{' :: _ =>
    if styleHead.isPrefixOf rest then readStyleMarker k rest
    else if isReference rest then readReference k rest
    else plain k rest none
  | '!' :: '[' :: _ =>
    match imageParts? rest with
    | some (description, source) => .image description source
    | none => plain k rest none
  | '[' :: _ => readTag k rest
  | '*' :: '*' :: _ => readBold k rest
  | '*' :: _ => readItalic k rest
  | _ => plain k rest none

end Constructs

/-- A reading and the offset of its first character. -/
structure Placed where
  offset : Nat
  reading : Reading
  deriving Repr, DecidableEq

/-- Reads on from the cursor, after passing over the characters that the last reading still
covers. -/
def readFrom (covered : Nat) (k : Cursor) : Text → List Placed
  | [] => []
  | c :: cs =>
    match covered with
    | covered + 1 => readFrom covered (k.step c) cs
    | 0 =>
      ⟨k.offset, readAt k (c :: cs)⟩ ::
        readFrom ((readAt k (c :: cs)).span.length - 1) (k.step c) cs

/-- All readings of a text, in order. -/
def readings (t : Text) : List Placed := readFrom 0 {} t

/-! ## Tokens -/

/-- The tokens of a list of readings, after the plain text `pending`; neighbouring plain runs become
one text token. -/
def assembleAfter (pending : Text) : List Reading → List Token
  | [] => flush pending ++ [.eof]
  | .text run _ :: later => assembleAfter (pending ++ run) later
  | reading :: later =>
    match reading.token? with
    | none => assembleAfter pending later
    | some token => flush pending ++ token :: assembleAfter [] later

def assemble (rs : List Reading) : List Token := assembleAfter [] rs

/-! ## Strict reading -/

/-- A broken construct is always refused, for the reason that broke it. -/
def checkBreach (map : SourceMap) (start : Nat) : Breach → Except ScanError Unit
  | .idMarker => report map start (.error .unterminatedIdMarker)
  | .styleMarker line =>
    if (line.drop styleHead.length).head? ≠ some '"' then
      report map (start + styleHead.length) (.error .unquotedClass)
    else do
      checkQuotes map start line
      report map start (.error .malformedStyleMarker)
  | .reference line => report map start (Check.reference line)
  | .tag => report map start (.error .unclosedElement)

/-- All rules for one reading except the balance of tags. -/
def Placed.check (map : SourceMap) (p : Placed) : Except ScanError Unit :=
  match p.reading with
  | .idMarker inner =>
    if (Text.strip inner).isEmpty then report map p.offset (.error .emptyIdMarker) else .ok ()
  | .reference raw => report map p.offset (Check.reference raw)
  | .tag inner => do
    checkQuotes map (p.offset + 1) inner
    checkTag map p.offset (Tag.ofInner inner)
  | .text _ (some breach) => checkBreach map p.offset breach
  | _ => .ok ()

/-- Only tags have an effect on the tags that are open. -/
def Placed.balance (map : SourceMap) (stack : TagStack Container) (p : Placed) :
    Except ScanError (TagStack Container) :=
  match p.reading with
  | .tag inner => (Tag.ofInner inner).balance map stack p.offset
  | _ => .ok stack

/-- One step of strict reading: the construct's own rules come before the balance. -/
def reviewStep (map : SourceMap) (stack : TagStack Container) (p : Placed) :
    Except ScanError (TagStack Container) := do
  p.check map
  p.balance map stack

/-- Strict reading of a list of readings from a tag stack. -/
def reviewFrom (map : SourceMap) (stack : TagStack Container) :
    List Placed → Except ScanError (TagStack Container)
  | [] => .ok stack
  | p :: later => do
    let stack ← reviewStep map stack p
    reviewFrom map stack later

/-- Every construct follows its rules, and every container is closed. -/
def review (map : SourceMap) (ps : List Placed) : Except ScanError Unit := do
  let stack ← reviewFrom map [] ps
  stack.finish

/-- Tokens of a text whose readings are known. -/
def tokensOf (mode : Mode) (content : Text) (ps : List Placed) : Except ScanError (List Token) := do
  if mode = .strict then review (SourceMap.ofText content) ps
  return assemble (ps.map (·.reading))

end Notemark.Body
