import Notemark.Value.Shown

/-!
# Issues with a document

* `Place`: a step down into a value, by name or by index,
* `Breach`: what is wrong with a value,
* `Issue`: a breach, where it is and the value that has it,
* `Issue.toValue`: an issue as data, as reports show it.
-/

namespace Notemark.Schema

/-- A step down into a value. -/
inductive Place where
  | name (s : String)
  | index (i : Int)
  deriving Repr, DecidableEq

namespace Place

/-- The least number that is too great for an index. -/
def indexBound : Int := Int.pow 2 63

/-- Numbers that can be an index. -/
def isIndex (i : Int) : Bool := -indexBound ≤ i && i < indexBound

/-- The place of an entry. A key that is neither a string nor an index is spelled out, if it can
be. -/
def ofKey : Scalar → Place
  | .str s => name s
  | .illFormed codes _ => name (String.ofList (Text.lossy codes))
  | .bool b => index (if b then 1 else 0)
  | .int i =>
    if isIndex i then index i
    else if Scalar.isLong (.int i) then name "<unprintable int object>"
    else name (toString i)
  | key => name key.shown

def text : Place → String
  | name s => s
  | index i => toString i

/-- A number that is too great for an index is spelled out. -/
def toValue : Place → Value
  | name s => .str s
  | index i => if isIndex i then .int i else .str (toString i)

end Place

/-- What is wrong with a value. -/
inductive Breach where
  | missing
  | extra
  | key
  | string
  | stringBytes
  /-- A string without characters. -/
  | tooShort
  | list
  | mapping
  | record (name : String)
  | integer
  | integerText
  | integerSize
  | fraction
  | finite
  | boolean
  | booleanText
  /-- A rule that ties several parts of a value together. -/
  | rule (text : String)
  deriving Repr, DecidableEq

namespace Breach

/-- The fixed name of a breach. -/
def code : Breach → String
  | missing => "missing"
  | extra => "extra_forbidden"
  | key => "invalid_key"
  | string => "string_type"
  | stringBytes => "string_unicode"
  | tooShort => "string_too_short"
  | list => "list_type"
  | mapping => "dict_type"
  | record _ => "model_type"
  | integer => "int_type"
  | integerText => "int_parsing"
  | integerSize => "int_parsing_size"
  | fraction => "int_from_float"
  | finite => "finite_number"
  | boolean => "bool_type"
  | booleanText => "bool_parsing"
  | rule _ => "value_error"

def message : Breach → String
  | missing => "Field required"
  | extra => "Extra inputs are not permitted"
  | key => "Keys should be strings"
  | string => "Input should be a valid string"
  | stringBytes =>
    "Input should be a valid string, unable to parse raw data as a unicode string"
  | tooShort => "String should have at least 1 character"
  | list => "Input should be a valid list"
  | mapping => "Input should be a valid dictionary"
  | record name => s!"Input should be a valid dictionary or instance of {name}"
  | integer => "Input should be a valid integer"
  | integerText => "Input should be a valid integer, unable to parse string as an integer"
  | integerSize => "Unable to parse input string as an integer, exceeded maximum size"
  | fraction => "Input should be a valid integer, got a number with a fractional part"
  | finite => "Input should be a finite number"
  | boolean => "Input should be a valid boolean"
  | booleanText => "Input should be a valid boolean, unable to interpret input"
  | rule text => s!"Value error, {text}"

/-- What a breach refers to besides the value. -/
def context? : Breach → Option (String × Value)
  | tooShort => some ("min_length", .int 1)
  | record name => some ("class_name", .str name)
  | rule text => some ("error", .str text)
  | _ => none

end Breach

structure Issue where
  breach : Breach
  place : List Place := []
  input : Value
  deriving Repr

namespace Issue

/-- The same issue seen from one level further up. -/
def under (p : Place) (i : Issue) : Issue := { i with place := p :: i.place }

/-- Where the issue is, with points between the steps. -/
def placeText (i : Issue) : String := ".".intercalate (i.place.map Place.text)

def toValue (i : Issue) : Value :=
  .object <|
    [("type", .str i.breach.code), ("loc", .list (i.place.map Place.toValue)),
      ("msg", .str i.breach.message), ("input", i.input)] ++
      match i.breach.context? with
      | some (name, value) => [("ctx", .object [(name, value)])]
      | none => []

end Issue

end Notemark.Schema
