import Notemark.Decimal.Double
import Notemark.Text.Surrogate

/-!
# Values

The data that headers and documents are made of:

* `Date`, `Timestamp`: calendar values,
* `Scalar`: values without parts; the keys of mappings are scalars,
* `Value`: scalars, lists, tuples, sets and mappings; `Value.all` looks at every scalar in one,
* `Entries`: the entries of a mapping, each key once, in order of first appearance.
-/

namespace Notemark

open Decimal (Double)

structure Date where
  year : Nat
  month : Nat
  day : Nat
  deriving Repr, DecidableEq

/-- A date and a time of day; the zone is an offset from universal time in minutes. -/
structure Timestamp where
  date : Date
  hour : Nat
  minute : Nat
  second : Nat
  micro : Nat
  zone : Option Int
  deriving Repr, DecidableEq

/-- Values without parts. -/
inductive Scalar where
  | null
  | bool (b : Bool)
  | int (i : Int)
  | float (x : Double)
  | str (s : String)
  /-- A string that holds half of a surrogate pair, by its code points. -/
  | illFormed (codes : List Nat) (half : codes.any Text.isSurrogate = true)
  | bytes (bs : List UInt8)
  | date (d : Date)
  | timestamp (t : Timestamp)
  deriving Repr, DecidableEq

namespace Scalar

/-- The string with some code points. -/
def ofCodes (codes : List Nat) : Scalar :=
  if half : codes.any Text.isSurrogate = true then illFormed codes half
  else str (String.ofList (codes.map Char.ofNat))

/-- Strings with half of a surrogate pair have no form in bytes. -/
def isStorable : Scalar → Bool
  | illFormed .. => false
  | _ => true

/-- Days before a year, counted from the beginning of year one. -/
def daysBeforeYear (year : Nat) : Int :=
  let y : Int := (year : Int) - 1
  y * 365 + y / 4 - y / 100 + y / 400

def isLeap (year : Nat) : Bool := year % 4 == 0 && (year % 100 != 0 || year % 400 == 0)

def daysInMonth (year month : Nat) : Nat :=
  if month == 2 then if isLeap year then 29 else 28
  else if month == 4 || month == 6 || month == 9 || month == 11 then 30
  else 31

def dayNumber (d : Date) : Int :=
  daysBeforeYear d.year +
    ((List.range (d.month - 1)).foldl (fun days m => days + daysInMonth d.year (m + 1)) 0 : Nat) +
    d.day

/-- Microseconds since the beginning of year one, in universal time. -/
def instant (t : Timestamp) (zone : Int) : Int :=
  (((dayNumber t.date * 24 + t.hour) * 60 + t.minute - zone) * 60 + t.second) * 1000000 + t.micro

/-- Whether two scalars are one key: numbers by value, truth values counting as zero and one, and
times of known zones by the instant they denote. -/
def sameKey : Scalar → Scalar → Bool
  | null, null => true
  | str a, str b => a == b
  | illFormed a _, illFormed b _ => a == b
  | bytes a, bytes b => a == b
  | date a, date b => a == b
  | timestamp a, timestamp b =>
    match a.zone, b.zone with
    | none, none => a == b
    | some x, some y => instant a x == instant b y
    | _, _ => false
  | float x, float y => x.equals y
  | float x, int i | int i, float x => x.equalsInt i
  | float x, bool b | bool b, float x => x.equalsInt (if b then 1 else 0)
  | int i, int j => i == j
  | int i, bool b | bool b, int i => i == (if b then 1 else 0)
  | bool a, bool b => a == b
  | _, _ => false

end Scalar

/-- Values. A mapping may carry a label: mappings of one label are one and the same, so that what
is changed in one is changed in all. A `backRef` stands for an enclosing collection. -/
inductive Value where
  | scalar (s : Scalar)
  | list (items : List Value)
  | tuple (items : List Value)
  | set (members : List Scalar)
  | map (label : Option Nat) (entries : List (Scalar × Value))
  | backRef (mapping : Bool)
  deriving Repr

instance : Inhabited Value := ⟨.scalar .null⟩

/-- The entries of a mapping. -/
abbrev Entries := List (Scalar × Value)

namespace Entries

/-- A new key goes to the end; a known one keeps its place, and its spelling, and takes the new
value. -/
def set (key : Scalar) (value : Value) : Entries → Entries
  | [] => [(key, value)]
  | (k, v) :: later =>
    if k.sameKey key then (k, value) :: later else (k, v) :: set key value later

def lookup (es : Entries) (key : Scalar) : Option Value :=
  (List.find? (fun e => e.1.sameKey key) es).map (·.2)

/-- The value of a key that is a string. -/
def get? (es : Entries) (name : String) : Option Value := es.lookup (.str name)

def put (name : String) (value : Value) (es : Entries) : Entries := es.set (.str name) value

def has (es : Entries) (name : String) : Bool := (es.get? name).isSome

def erase (es : Entries) (name : String) : Entries :=
  es.filter fun e => !e.1.sameKey (.str name)

/-- Sets every entry of the second mapping in the first. -/
def update (es : Entries) (new : Entries) : Entries :=
  new.foldl (fun es e => es.set e.1 e.2) es

end Entries

namespace Value

def null : Value := .scalar .null

def bool (b : Bool) : Value := .scalar (.bool b)

def int (i : Int) : Value := .scalar (.int i)

def str (s : String) : Value := .scalar (.str s)

/-- A mapping with string keys, given in order. -/
def object (fields : List (String × Value)) : Value :=
  .map none (fields.map fun f => (.str f.1, f.2))

def strings (ss : List String) : Value := .list (ss.map str)

/-- The entries of a mapping. -/
def entries? : Value → Option Entries
  | map _ es => some es
  | _ => none

def items? : Value → Option (List Value)
  | list xs => some xs
  | _ => none

def string? : Value → Option String
  | scalar (.str s) => some s
  | _ => none

/-- The value of a string key of a mapping. -/
def get? (v : Value) (name : String) : Option Value := v.entries?.bind (·.get? name)

/-- Whether a value counts as something: nothing, false, zero and the empty do not. -/
def holds : Value → Bool
  | scalar .null => false
  | scalar (.bool b) => b
  | scalar (.int i) => i != 0
  | scalar (.float x) => !x.isZero
  | scalar (.str s) => !s.isEmpty
  | scalar (.bytes bs) => !bs.isEmpty
  | scalar _ => true
  | list xs | tuple xs => !xs.isEmpty
  | set ms => !ms.isEmpty
  | map _ es => !es.isEmpty
  | backRef _ => true

mutual

/-- Whether every scalar in a value, keys included, is of a kind. -/
def all (p : Scalar → Bool) : Value → Bool
  | scalar s => p s
  | list items | tuple items => allItems p items
  | set members => members.all p
  | map _ entries => allEntries p entries
  | backRef _ => true

def allItems (p : Scalar → Bool) : List Value → Bool
  | [] => true
  | v :: vs => all p v && allItems p vs

def allEntries (p : Scalar → Bool) : List (Scalar × Value) → Bool
  | [] => true
  | (k, v) :: es => p k && all p v && allEntries p es

end

/-- The word for the type of a value, as messages name it. -/
def typeName : Value → String
  | scalar .null => "NoneType"
  | scalar (.bool _) => "bool"
  | scalar (.int _) => "int"
  | scalar (.float _) => "float"
  | scalar (.str _) | scalar (.illFormed ..) => "str"
  | scalar (.bytes _) => "bytes"
  | scalar (.date _) => "date"
  | scalar (.timestamp _) => "datetime"
  | list _ => "list"
  | tuple _ => "tuple"
  | set _ => "set"
  | map .. => "dict"
  | backRef mapping => if mapping then "dict" else "list"

end Value

end Notemark
