import Notemark.Value.Shown

/-!
# Values as JSON

* `JsonFormat`: indentation, whether other than ASCII characters are spelled out, whether a value
  that JSON has no form for is written as its plain text, and how many levels can be written,
* `JsonFault`: why a value cannot be written,
* `Value.json`: the text of a value,
* `Value.isStorable`: whether the text has a form in bytes.
-/

namespace Notemark

structure JsonFormat where
  /-- Spaces per level; `none` writes everything on one line. -/
  indent : Option Nat := none
  asciiOnly : Bool := true
  plainOthers : Bool := false
  /-- How deep collections may be nested. -/
  levels : Nat
  deriving Repr, DecidableEq

inductive JsonFault where
  | value (typeName : String)
  | key (typeName : String)
  /-- A number has more digits than are written. -/
  | digits
  | circular
  /-- Collections are nested too deeply. -/
  | depth
  deriving Repr, DecidableEq

/-- What sort of failure a value that cannot be written is. -/
def JsonFault.kind : JsonFault → FaultKind
  | value _ | key _ => .type
  | digits | circular => .value
  | depth => .depth

def JsonFault.message : JsonFault → String
  | value typeName => s!"Object of type {typeName} is not JSON serializable"
  | key typeName => s!"keys must be str, int, float, bool or None, not {typeName}"
  | digits => Text.longNumber
  | circular => "Circular reference detected"
  | depth => depthMessage

namespace Json

/-- A UTF-16 code unit in hexadecimal. -/
def unit (n : Nat) : Text := '\\' :: 'u' :: Text.hexDigits 4 n

def escapedChar (asciiOnly : Bool) (c : Char) : Text :=
  if c = '"' || c = '\\' then ['\\', c]
  else if c = '\n' then ['\\', 'n']
  else if c = '\r' then ['\\', 'r']
  else if c = '\t' then ['\\', 't']
  else if c.toNat = 8 then ['\\', 'b']
  else if c.toNat = 12 then ['\\', 'f']
  else if c.toNat < 0x20 then unit c.toNat
  else if !asciiOnly || c.toNat < 0x7F then [c]
  else if c.toNat = 0x7F then [c]
  else if c.toNat < 0x10000 then unit c.toNat
  else
    let n := c.toNat - 0x10000
    unit (0xD800 + n / 0x400) ++ unit (0xDC00 + n % 0x400)

def quoted (asciiOnly : Bool) (s : String) : String :=
  "\"" ++ String.ofList (s.toList.flatMap (escapedChar asciiOnly)) ++ "\""

/-- Halves of surrogate pairs are always spelled out here; a text that should hold one as it is
cannot be stored (`Value.isStorable`). -/
def quotedCodes (asciiOnly : Bool) (codes : List Nat) : String :=
  let one (n : Nat) : Text :=
    if Text.isSurrogate n then unit n else escapedChar asciiOnly (Char.ofNat n)
  "\"" ++ String.ofList (codes.flatMap one) ++ "\""

/-- Numbers that are not finite have names. -/
def number (x : Decimal.Double) : String :=
  match x with
  | .nan => "NaN"
  | .infinite negative => if negative then "-Infinity" else "Infinity"
  | x => x.text

def integer (i : Int) : Except JsonFault String :=
  if Scalar.isLong (.int i) then .error .digits else .ok (toString i)

def scalar (format : JsonFormat) : Scalar → Except JsonFault String
  | .null => .ok "null"
  | .bool b => .ok (if b then "true" else "false")
  | .int i => integer i
  | .float x => .ok (number x)
  | .str s => .ok (quoted format.asciiOnly s)
  | .illFormed codes _ => .ok (quotedCodes format.asciiOnly codes)
  | s =>
    if format.plainOthers then .ok (quoted format.asciiOnly s.plain)
    else .error (.value (Value.scalar s).typeName)

/-- A key is written as a string, whatever it is. -/
def key (format : JsonFormat) : Scalar → Except JsonFault String
  | .null => .ok "\"null\""
  | .bool b => .ok (if b then "\"true\"" else "\"false\"")
  | .int i => return "\"" ++ (← integer i) ++ "\""
  | .float x => .ok ("\"" ++ number x ++ "\"")
  | .str s => .ok (quoted format.asciiOnly s)
  | .illFormed codes _ => .ok (quotedCodes format.asciiOnly codes)
  | s => .error (.key (Value.scalar s).typeName)

/-- Puts the parts of a collection between brackets, one per line when there is an indentation. -/
def collection (format : JsonFormat) (depth : Nat) (left right : String) (parts : List String) :
    String :=
  match parts, format.indent with
  | [], _ => left ++ right
  | _, none => left ++ commaList parts ++ right
  | _, some width =>
    let margin (d : Nat) := "\n" ++ String.ofList (List.replicate (d * width) ' ')
    left ++ margin (depth + 1) ++ ("," ++ margin (depth + 1)).intercalate parts ++ margin depth ++
      right

mutual

/-- The text of a value that stands inside `depth` collections. -/
def value (format : JsonFormat) (depth : Nat) : Value → Except JsonFault String
  | .scalar s => scalar format s
  | .list xs | .tuple xs => do
    if format.levels ≤ depth then throw .depth
    return collection format depth "[" "]" (← items format (depth + 1) xs)
  | .set ms =>
    if !format.plainOthers then .error (.value "set")
    else if ms.any Scalar.isLong then .error .digits
    else .ok (quoted format.asciiOnly (setText (ms.map Scalar.shown)))
  | .map _ es => do
    if format.levels ≤ depth then throw .depth
    return collection format depth "\x7b" "\x7d" (← entries format (depth + 1) es)
  | .backRef _ => .error .circular

def items (format : JsonFormat) (depth : Nat) : List Value → Except JsonFault (List String)
  | [] => .ok []
  | x :: xs => do
    let first ← value format depth x
    return first :: (← items format depth xs)

def entries (format : JsonFormat) (depth : Nat) :
    List (Scalar × Value) → Except JsonFault (List String)
  | [] => .ok []
  | (k, v) :: es => do
    let name ← key format k
    let content ← value format depth v
    return (name ++ ": " ++ content) :: (← entries format depth es)

end

end Json

/-- The JSON text of a value. -/
def Value.json (format : JsonFormat) (v : Value) : Except JsonFault String := Json.value format 0 v

/-- Holds no half of a surrogate pair, for which there are no bytes. -/
def Value.isStorable (v : Value) : Bool := v.all Scalar.isStorable

end Notemark
