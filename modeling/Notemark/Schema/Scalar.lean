import Notemark.Schema.Issue
import Notemark.Text.Digit
import Notemark.Text.Search
import Notemark.Text.Utf8

/-!
# Checking scalars

What stands for a string, an integer or a truth value in a document or in settings:

* `string`: text, or bytes that spell one; a string that is no text counts too, until its length or
  its number is asked for,
* `integer`: whole numbers, however they are given,
* `boolean`: truth values, zero and one, and some words.

Each gives the value that is meant, or what is wrong.
-/

namespace Notemark.Schema

open Decimal (Double)

/-! ## Strings -/

/-- The string that a value stands for. -/
def string : Value → Except Breach String
  | .scalar (.str s) => .ok s
  | .scalar (.illFormed codes _) => .ok (String.ofList (Text.repaired codes))
  | .scalar (.bytes bs) =>
    match Text.ofUtf8 bs with
    | .ok t => .ok (String.ofList t)
    | .error _ => .error .stringBytes
  | _ => .error .string

/-! ## Integers -/

/-- White space around a number. -/
def isMargin (c : Char) : Bool := Text.isBlank c && !(28 ≤ c.toNat && c.toNat ≤ 31)

def trim (t : Text) : Text := ((t.dropWhile isMargin).reverse.dropWhile isMargin).reverse

/-- The number behind leading zeros, among which underscores may stand, given the last character
passed over. -/
def skipZeros (last : Char) : Text → Option Text
  | [] => some [last]
  | c :: cs =>
    if c = '0' || c = '_' then skipZeros c cs
    else if c.isDigit then some (c :: cs)
    else if c = '.' then some (last :: c :: cs)
    else none

/-- A number without its leading zeros; a negative one may have none. -/
def dropZeros : Text → Option Text
  | [] => none
  | c :: cs =>
    if c = '0' then skipZeros c cs
    else if c.isDigit || c = '-' then some (c :: cs)
    else none

/-- A number without a fraction that is zero. -/
def dropFraction (t : Text) : Text :=
  match Text.cut? ['.'] t with
  | some (whole, part) => if part.all (· == '0') then whole else t
  | none => t

/-- Underscores may stand between digits, one at a time. -/
def dropUnderscores (t : Text) : Text :=
  if t.head? = some '_' || t.getLast? = some '_' || (Text.distanceTo ['_', '_'] t).isSome then t
  else t.filter (· != '_')

/-- The digits of a number, and whether it is negative. -/
def signed? (t : Text) : Option (Bool × Text) :=
  let (negative, digits) := match t with | '-' :: ds => (true, ds) | ds => (false, ds)
  match digits with
  | [] => none
  | d :: ds =>
    if (d :: ds).all Char.isDigit && (d != '0' || ds.isEmpty) then some (negative, d :: ds)
    else none

/-- The integer that a text spells. -/
def integerOfText (t : Text) : Except Breach Int :=
  let plus? := match trim t with | '+' :: '-' :: _ => none | '+' :: cs => some cs | cs => some cs
  match (plus?.bind dropZeros).bind fun cs => signed? (dropUnderscores (dropFraction cs)) with
  | none => .error .integerText
  | some (negative, digits) =>
    if Text.mostDigits < digits.length then .error .integerSize
    else
      let n : Nat := digits.foldl (fun n d => n * 10 + (d.toNat - 48)) 0
      .ok (if negative then -(n : Int) else n)

/-- The integer that a number is equal to; beyond 63 bits there is none. -/
def integerOfDouble (x : Double) : Except Breach Int :=
  match x.ratio? with
  | none => .error .finite
  | some _ =>
    match x.toInt? with
    | none => .error .fraction
    | some i => if -Place.indexBound < i && i < Place.indexBound then .ok i else .error .integerSize

/-- The integer that a value stands for. -/
def integer : Value → Except Breach Int
  | .scalar (.int i) => .ok i
  | .scalar (.bool b) => .ok (if b then 1 else 0)
  | .scalar (.float x) => integerOfDouble x
  | .scalar (.str s) => integerOfText s.toList
  | .scalar (.illFormed ..) => .error .stringBytes
  | .scalar (.bytes bs) =>
    match Text.ofUtf8 bs with
    | .ok t => integerOfText t
    | .error _ => .error .integerText
  | _ => .error .integer

/-! ## Truth values -/

def trueWords : List String := ["1", "t", "true", "y", "yes", "on"]

def falseWords : List String := ["0", "f", "false", "n", "no", "off"]

def booleanOfText (s : String) : Except Breach Bool :=
  let word := s.map Char.toLower
  if trueWords.contains word then .ok true
  else if falseWords.contains word then .ok false
  else .error .booleanText

def booleanOfInt (i : Int) : Except Breach Bool :=
  if i = 0 then .ok false else if i = 1 then .ok true else .error .booleanText

/-- The truth value that a value stands for. -/
def boolean : Value → Except Breach Bool
  | .scalar (.bool b) => .ok b
  | .scalar (.str s) => booleanOfText s
  | .scalar (.int i) => if Place.isIndex i then booleanOfInt i else .error .boolean
  | .scalar (.float x) =>
    match integerOfDouble x with
    | .ok i => booleanOfInt i
    | .error _ => .error .boolean
  | _ => .error .boolean

/-- The issues of a value that has to stand for something. -/
def issuesOf {α : Type} (check : Value → Except Breach α) (v : Value) : List Issue :=
  match check v with
  | .ok _ => []
  | .error breach => [⟨breach, [], v⟩]

end Notemark.Schema
