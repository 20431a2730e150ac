import Notemark.Decimal.Shortest
import Notemark.Fault
import Notemark.Value.Basic

/-!
# Values in messages

* `Date.text`, `Timestamp.text`: calendar values in numbers,
* `Scalar.plain`: a scalar as plain text,
* `Scalar.shown`: a scalar with its structure, strings in quotation marks,
* `Scalar.isLong`: numbers with more digits than are written,
* `Value.shown?`, `Value.plain?`: what a message shows of a value, unless it holds such a number or
  is nested too deeply.
-/

namespace Notemark

/-- A number with at least `width` digits. -/
def padded (width n : Nat) : String :=
  let ds := Nat.toDigits 10 n
  String.ofList (List.replicate (width - ds.length) '0' ++ ds)

def Date.text (d : Date) : String := s!"{padded 4 d.year}-{padded 2 d.month}-{padded 2 d.day}"

/-- Hours and minutes of a zone with its sign. -/
def zoneText (minutes : Int) : String :=
  let n := minutes.natAbs
  let sign := if minutes < 0 then "-" else "+"
  s!"{sign}{padded 2 (n / 60)}:{padded 2 (n % 60)}"

/-- Date and time with a separator between them; parts of a second only if there are any. -/
def Timestamp.text (separator : String) (t : Timestamp) : String :=
  let time := s!"{padded 2 t.hour}:{padded 2 t.minute}:{padded 2 t.second}"
  let part := if t.micro = 0 then "" else s!".{padded 6 t.micro}"
  let zone := match t.zone with | none => "" | some z => zoneText z
  s!"{t.date.text}{separator}{time}{part}{zone}"

/-- A zone as messages spell it: universal time by name, others by their offset. -/
def zoneShown (minutes : Int) : String :=
  if minutes = 0 then "datetime.timezone.utc"
  else if 0 < minutes then s!"datetime.timezone(datetime.timedelta(seconds={minutes * 60}))"
  else
    s!"datetime.timezone(datetime.timedelta(days=-1, seconds={86400 + minutes * 60}))"

def Date.shown (d : Date) : String := s!"datetime.date({d.year}, {d.month}, {d.day})"

/-- Seconds and parts of a second are left out from the right while they are zero. -/
def Timestamp.shown (t : Timestamp) : String :=
  let rest :=
    if t.micro ≠ 0 then s!", {t.second}, {t.micro}"
    else if t.second ≠ 0 then s!", {t.second}"
    else ""
  let zone := match t.zone with | none => "" | some z => s!", tzinfo={zoneShown z}"
  s!"datetime.datetime({t.date.year}, {t.date.month}, {t.date.day}, {t.hour}, {t.minute}" ++
    s!"{rest}{zone})"

namespace Scalar

def shown : Scalar → String
  | null => "None"
  | bool b => if b then "True" else "False"
  | int i => toString i
  | float x => x.text
  | str s => String.ofList (Text.quoted s.toList)
  | illFormed codes _ => String.ofList (Text.quotedCodes codes)
  | bytes bs => String.ofList (Text.quotedBytes bs)
  | date d => d.shown
  | timestamp t => t.shown

/-- Strings and calendar values stand for themselves; halves of surrogate pairs are spelled by
their number, as a terminal shows them. -/
def plain : Scalar → String
  | str s => s
  | illFormed codes _ => String.ofList (Text.spelled codes)
  | date d => d.text
  | timestamp t => t.text " "
  | s => s.shown

/-- Numbers with more digits than are written. -/
def isLong : Scalar → Bool
  | int i => Text.mostDigits < (Nat.toDigits 10 i.natAbs).length
  | _ => false

/-- What a message shows of a scalar. -/
def shown? (s : Scalar) : Except NoteFault String :=
  if s.isLong then .error .digits else .ok s.shown

def plain? (s : Scalar) : Except NoteFault String :=
  if s.isLong then .error .digits else .ok s.plain

end Scalar

/-- Texts with commas between them. -/
def commaList (parts : List String) : String := ", ".intercalate parts

/-- The members of a set in braces; the empty set has a name. -/
def setText (parts : List String) : String :=
  if parts.isEmpty then "set()" else "\x7b" ++ commaList parts ++ "\x7d"

/-- Items in parentheses, with a comma behind a single one. -/
def tupleText (parts : List String) : String :=
  match parts with
  | [one] => "(" ++ one ++ ",)"
  | parts => "(" ++ commaList parts ++ ")"

namespace Value

mutual

/-- What a message shows of a value, with room for so many levels of collections. -/
def shown? : Nat → Value → Except NoteFault String
  | _, scalar s => s.shown?
  | _, set ms => do return setText (← ms.mapM Scalar.shown?)
  | _, backRef mapping => .ok (if mapping then "\x7b...\x7d" else "[...]")
  | 0, _ => .error .depth
  | room + 1, list xs => do return "[" ++ commaList (← shownItems? room xs) ++ "]"
  | room + 1, tuple xs => do return tupleText (← shownItems? room xs)
  | room + 1, map _ es => do return "\x7b" ++ commaList (← shownEntries? room es) ++ "\x7d"

def shownItems? (room : Nat) : List Value → Except NoteFault (List String)
  | [] => .ok []
  | x :: xs => do
    let first ← shown? room x
    return first :: (← shownItems? room xs)

def shownEntries? (room : Nat) : List (Scalar × Value) → Except NoteFault (List String)
  | [] => .ok []
  | (k, v) :: es => do
    let name ← k.shown?
    let content ← shown? room v
    return (name ++ ": " ++ content) :: (← shownEntries? room es)

end

/-- A scalar as plain text, anything else with its structure. -/
def plain? (room : Nat) : Value → Except NoteFault String
  | scalar s => s.plain?
  | v => v.shown? room

end Value

end Notemark
