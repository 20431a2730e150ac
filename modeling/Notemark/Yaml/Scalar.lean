import Notemark.Decimal.Double
import Notemark.Text.Digit
import Notemark.Text.Search
import Notemark.Value.Shown
import Notemark.Yaml.Fault

/-!
# Scalars of header data

* `Tag`: the types that header data knows,
* `resolve`: the type of a plain scalar, by its spelling,
* `readInt`, `readFloat`, `readBool`, `readTimestamp`, `readBinary`: the value of a spelling.
-/

namespace Notemark.Yaml

open Decimal (Double)

inductive Tag where
  | str
  | int
  | float
  | bool
  | null
  | timestamp
  | binary
  | merge
  | value
  | seq
  | map
  | set
  | omap
  | pairs
  | unknown
  deriving Repr, DecidableEq

/-- The tag with a full name. -/
def Tag.ofText (t : Text) : Tag :=
  match String.ofList t with
  | "tag:yaml.org,2002:str" => str
  | "tag:yaml.org,2002:int" => int
  | "tag:yaml.org,2002:float" => float
  | "tag:yaml.org,2002:bool" => bool
  | "tag:yaml.org,2002:null" => null
  | "tag:yaml.org,2002:timestamp" => timestamp
  | "tag:yaml.org,2002:binary" => binary
  | "tag:yaml.org,2002:merge" => merge
  | "tag:yaml.org,2002:value" => value
  | "tag:yaml.org,2002:seq" => seq
  | "tag:yaml.org,2002:map" => map
  | "tag:yaml.org,2002:set" => set
  | "tag:yaml.org,2002:omap" => omap
  | "tag:yaml.org,2002:pairs" => pairs
  | _ => unknown

/-! ## Spellings -/

def isDigitOr_ (c : Char) : Bool := c.isDigit || c == '_'

/-- A text without its sign. -/
def unsigned : Text → Text
  | '+' :: t | '-' :: t => t
  | t => t

/-- A number below sixty. -/
def isBelowSixty : Text → Bool
  | [a] => a.isDigit
  | [a, b] => '0' ≤ a && a ≤ '5' && b.isDigit
  | _ => false

/-- One or more groups of a colon and a number below sixty. -/
def isSexagesimal (t : Text) : Bool :=
  t.head? == some ':' && ((Text.splitOn ':' t).drop 1).all isBelowSixty

def isInt (t : Text) : Bool :=
  match unsigned t with
  | '0' :: 'b' :: ds => !ds.isEmpty && ds.all fun c => c == '0' || c == '1' || c == '_'
  | '0' :: 'x' :: ds =>
    !ds.isEmpty && ds.all fun c => isDigitOr_ c || ('a' ≤ c && c ≤ 'f') || ('A' ≤ c && c ≤ 'F')
  | '0' :: ds => ds.all fun c => ('0' ≤ c && c ≤ '7') || c == '_'
  | c :: ds =>
    c.isDigit &&
      (let rest := ds.dropWhile isDigitOr_
       rest.isEmpty || isSexagesimal rest)
  | [] => false

/-- Nothing, or an exponent with its sign. -/
def isExponent : Text → Bool
  | [] => true
  | e :: sign :: d :: ds =>
    (e == 'e' || e == 'E') && (sign == '+' || sign == '-') && d.isDigit && ds.all Char.isDigit
  | _ => false

def isFloat (t : Text) : Bool :=
  let bare := unsigned t
  let inf := ["inf", "Inf", "INF"].any fun s => bare == '.' :: s.toList
  let nan := ["nan", "NaN", "NAN"].any fun s => t == '.' :: s.toList
  let fraction :=
    match t with
    | '.' :: d :: ds => d.isDigit && isExponent (ds.dropWhile isDigitOr_)
    | _ => false
  let whole :=
    match bare with
    | c :: ds =>
      c.isDigit &&
        (match ds.dropWhile isDigitOr_ with
        | '.' :: rest => isExponent (rest.dropWhile isDigitOr_)
        | rest =>
          match rest.dropWhile (· != '.') with
          | '.' :: part => isSexagesimal (rest.takeWhile (· != '.')) && part.all isDigitOr_
          | _ => false)
    | [] => false
  inf || nan || fraction || whole

def boolWords : List (String × Bool) :=
  [("yes", true), ("no", false), ("true", true), ("false", false), ("on", true), ("off", false)]

/-- Lower case, upper case, or with a capital. -/
def isBool (t : Text) : Bool :=
  boolWords.any fun w =>
    let lower := w.1.toList
    t == lower || t == lower.map Char.toUpper ||
      t == (match lower with | c :: cs => c.toUpper :: cs | [] => [])

def isNull (t : Text) : Bool :=
  t.isEmpty || t == ['~'] || ["null", "Null", "NULL"].any fun s => t == s.toList

/-! ## Times -/

/-- The parts of a time as they are written. -/
structure TimeParts where
  year : Text
  month : Text
  day : Text
  /-- Hour, minute, second and the digits behind the point. -/
  time : Option (Text × Text × Text × Text)
  /-- The sign of the zone, hours and minutes; universal time has no sign. -/
  zone : Option (Option (Char × Text × Text))
  deriving Repr, DecidableEq

/-- One or two digits and the rest. -/
def shortNumber? : Text → Option (Text × Text)
  | a :: b :: t =>
    if a.isDigit then if b.isDigit then some ([a, b], t) else some ([a], b :: t) else none
  | [a] => if a.isDigit then some ([a], []) else none
  | [] => none

def twoDigits? : Text → Option (Text × Text)
  | a :: b :: t => if a.isDigit && b.isDigit then some ([a, b], t) else none
  | _ => none

def expect? (c : Char) : Text → Option Text
  | d :: t => if d = c then some t else none
  | [] => none

def zoneParts? (t : Text) : Option (Option (Option (Char × Text × Text))) :=
  if t.isEmpty then some none
  else
    match t.dropWhile fun c => c == ' ' || c == '\t' with
    | ['Z'] => some (some none)
    | sign :: u =>
      if sign == '+' || sign == '-' then do
        let (hours, u) ← shortNumber? u
        if u.isEmpty then return some (some (sign, hours, []))
        let u ← expect? ':' u
        let (minutes, u) ← twoDigits? u
        if u.isEmpty then return some (some (sign, hours, minutes)) else none
      else none
    | [] => none

def timeParts? (t : Text) : Option TimeParts := do
  let year := t.takeWhile Char.isDigit
  if year.length ≠ 4 then none
  let t ← expect? '-' (t.drop 4)
  let (month, t) ← shortNumber? t
  let t ← expect? '-' t
  let (day, t) ← shortNumber? t
  match t with
  | [] => return ⟨year, month, day, none, none⟩
  | c :: u =>
    let t ←
      if c == 'T' || c == 't' then some u
      else if c == ' ' || c == '\t' then some (u.dropWhile fun c => c == ' ' || c == '\t')
      else none
    let (hour, t) ← shortNumber? t
    let t ← expect? ':' t
    let (minute, t) ← twoDigits? t
    let t ← expect? ':' t
    let (second, t) ← twoDigits? t
    let (part, t) :=
      match t with
      | '.' :: u => (u.takeWhile Char.isDigit, u.dropWhile Char.isDigit)
      | _ => ([], t)
    let zone ← zoneParts? t
    return ⟨year, month, day, some (hour, minute, second, part), zone⟩

/-- A date by itself has two digits for month and day. -/
def isTimestamp (t : Text) : Bool :=
  match timeParts? t with
  | some parts => parts.time.isSome || (parts.month.length == 2 && parts.day.length == 2)
  | none => false

/-- The type of a plain scalar. -/
def resolve (t : Text) : Tag :=
  let exact (t : Text) : Tag :=
    if isNull t then .null
    else if isBool t then .bool
    else if isFloat t then .float
    else if isInt t then .int
    else if isTimestamp t then .timestamp
    else if t == ['<', '<'] then .merge
    else if t == ['='] then .value
    else .str
  if 1 < t.length && t.getLast? == some '\n' then exact t.dropLast else exact t

/-! ## Values -/

def isBaseDigit (base : Nat) (c : Char) : Option Nat :=
  match Text.decimalValue? c with
  | some d => if d < base then some d else none
  | none =>
    if 'a' ≤ c && c ≤ 'z' && c.toNat - 87 < base then some (c.toNat - 87)
    else if 'A' ≤ c && c ≤ 'Z' && c.toNat - 55 < base then some (c.toNat - 55)
    else none

def baseNumber (base : Nat) (soFar : Nat) : Text → Option Nat
  | [] => some soFar
  | c :: cs =>
    match isBaseDigit base c with
    | some d => baseNumber base (soFar * base + d) cs
    | none => none

/-- The letter that may announce a base. -/
def baseLetter (base : Nat) : Char := if base = 2 then 'b' else if base = 8 then 'o' else 'x'

/-- An integer in a base: blanks around it, a sign and the announcement of the base are allowed. -/
def integer (base : Nat) (t : Text) : Except Fault Int :=
  let stripped := Text.strip t
  let bare := unsigned stripped
  let digits :=
    match bare with
    | '0' :: c :: ds =>
      if base ≠ 10 && (c == baseLetter base || c == (baseLetter base).toUpper) then ds else bare
    | _ => bare
  match digits with
  | [] => .error (.int base t)
  | _ =>
    match baseNumber base 0 digits with
    | some n =>
      if base = 10 && Text.mostDigits < digits.length then .error (.tooLong digits.length)
      else .ok (if stripped.head? == some '-' then -(n : Int) else n)
    | none => .error (.int base t)

def integers : List Text → Except Fault (List Int)
  | [] => .ok []
  | t :: ts => do
    let i ← integer 10 t
    return i :: (← integers ts)

def readInt (t : Text) : Except Fault Int := do
  let t := t.filter (· != '_')
  let negative := t.head? == some '-'
  let signed (i : Int) : Int := if negative then -i else i
  match t with
  | [] => .error .emptyNumber
  | _ =>
    match unsigned t with
    | ['0'] => return 0
    | '0' :: 'b' :: ds => return signed (← integer 2 ds)
    | '0' :: 'x' :: ds => return signed (← integer 16 ds)
    | [] => .error .emptyNumber
    | u =>
      if u.head? == some '0' then return signed (← integer 8 u)
      else if u.contains ':' then
        let parts ← integers (Text.splitOn ':' u)
        return signed (parts.foldl (fun n d => n * 60 + d) 0)
      else return signed (← integer 10 u)

/-- A decimal with an optional point and exponent; infinities and `nan` by name. -/
def decimal? (t : Text) : Option Double :=
  let stripped := Text.strip t
  let negative := stripped.head? == some '-'
  let bare := unsigned stripped
  match String.ofList (bare.map Char.toLower) with
  | "inf" | "infinity" => some (.infinite negative)
  | "nan" => some .nan
  | _ =>
    let isDec (c : Char) : Bool := (Text.decimalValue? c).isSome
    let whole := bare.takeWhile isDec
    let t := bare.drop whole.length
    let part := match t with | '.' :: u => u.takeWhile isDec | _ => []
    let t := match t with | '.' :: u => u.drop part.length | _ => t
    let power : Option Int :=
      match t with
      | [] => some 0
      | e :: u =>
        if e == 'e' || e == 'E' then
          (Text.decimalNumber? (unsigned u)).map fun n =>
            if u.head? == some '-' then -(n : Int) else n
        else none
    match Text.decimalNumber? (whole ++ part), power with
    | some n, some p => some (Double.ofDecimal negative n (p - part.length))
    | _, _ => none

def decimal (t : Text) : Except Fault Double :=
  match decimal? t with
  | some x => .ok x
  | none => .error (.float t)

def decimals : List Text → Except Fault (List Double)
  | [] => .ok []
  | t :: ts => do
    let x ← decimal t
    return x :: (← decimals ts)

def readFloat (t : Text) : Except Fault Double := do
  let t := (t.filter (· != '_')).map Char.toLower
  let negative := t.head? == some '-'
  let signed (x : Double) : Double := if negative then x.negate else x
  let bare := unsigned t
  if t.isEmpty then .error .emptyNumber
  else if bare == ['.', 'i', 'n', 'f'] then return .infinite negative
  else if bare == ['.', 'n', 'a', 'n'] then return .nan
  else if bare.contains ':' then
    let parts ← decimals (Text.splitOn ':' bare)
    let step (state : Double × Nat) (x : Double) : Double × Nat :=
      (state.1.add (x.scale state.2), state.2 * 60)
    return signed (parts.reverse.foldl step (Double.zero false, 1)).1
  else return signed (← decimal bare)

def readBool (t : Text) : Except Fault Bool :=
  let lower := t.map Char.toLower
  match boolWords.find? fun w => w.1.toList == lower with
  | some w => .ok w.2
  | none => .error (.bool lower)

def number (t : Text) : Nat := t.foldl (fun n c => n * 10 + (c.toNat - 48)) 0

def checkDate (d : Date) : Except Fault Unit :=
  if d.year < 1 then .error (.calendar s!"year {d.year} is out of range")
  else if d.month < 1 || 12 < d.month then .error (.calendar "month must be in 1..12")
  else if d.day < 1 || Scalar.daysInMonth d.year d.month < d.day then
    .error (.calendar "day is out of range for month")
  else .ok ()

def checkTime (t : Timestamp) : Except Fault Unit :=
  if 23 < t.hour then .error (.calendar "hour must be in 0..23")
  else if 59 < t.minute then .error (.calendar "minute must be in 0..59")
  else if 59 < t.second then .error (.calendar "second must be in 0..59")
  else .ok ()

/-- A span of minutes in days and seconds, the days carrying the sign. -/
def spanText (minutes : Int) : String :=
  let days := minutes / 1440
  let seconds := minutes % 1440 * 60
  let parts :=
    (if days = 0 then [] else [s!"days={days}"]) ++
      (if seconds = 0 then [] else [s!"seconds={seconds}"])
  s!"datetime.timedelta({commaList parts})"

/-- A zone lies less than a day from universal time. -/
def checkZone (minutes : Int) : Except Fault Unit :=
  if minutes ≤ -1440 || 1440 ≤ minutes then
    .error (.calendar ("offset must be a timedelta strictly between -timedelta(hours=24) and " ++
      s!"timedelta(hours=24), not {spanText minutes}."))
  else .ok ()

/-- Parts of a second count down to the sixth digit. -/
def micros (part : Text) : Nat :=
  let six := part.take 6
  number six * Nat.pow 10 (6 - six.length)

def readTimestamp (t : Text) : Except Fault Scalar := do
  let t := if t.getLast? == some '\n' then t.dropLast else t
  match timeParts? t with
  | none => .error .timestamp
  | some parts =>
    let date : Date := ⟨number parts.year, number parts.month, number parts.day⟩
    match parts.time with
    | none =>
      checkDate date
      return .date date
    | some (hour, minute, second, part) =>
      let zone : Option Int :=
        parts.zone.map fun
          | none => 0
          | some (sign, hours, minutes) =>
            let n : Int := number hours * 60 + number minutes
            if sign == '-' then -n else n
      let stamp : Timestamp :=
        ⟨date, number hour, number minute, number second, micros part, zone⟩
      match zone with
      | some z => checkZone z
      | none => .ok ()
      checkDate date
      checkTime stamp
      return .timestamp stamp

/-! ## Bytes -/

def base64Value? (c : Char) : Option Nat :=
  if 'A' ≤ c && c ≤ 'Z' then some (c.toNat - 65)
  else if 'a' ≤ c && c ≤ 'z' then some (c.toNat - 71)
  else if c.isDigit then some (c.toNat + 4)
  else if c == '+' then some 62
  else if c == '/' then some 63
  else none

/-- Groups of four characters of six bits; characters outside the alphabet are passed over, and
the padding that fills a group ends the data. -/
def base64From (group : Nat) (left : Nat) (pads : Nat) : Text → Option (List UInt8)
  | [] => if group = 0 then some [] else none
  | c :: cs =>
    if c == '=' then
      if 2 ≤ group && 4 ≤ group + pads + 1 then some []
      else base64From group left (if 2 ≤ group then pads + 1 else pads) cs
    else
      match base64Value? c with
      | none => base64From group left pads cs
      | some v =>
        match group with
        | 0 => base64From 1 v 0 cs
        | 1 => (base64From 2 (v % 16) 0 cs).map ((left * 4 + v / 16).toUInt8 :: ·)
        | 2 => (base64From 3 (v % 4) 0 cs).map ((left * 16 + v / 4).toUInt8 :: ·)
        | _ => (base64From 0 0 0 cs).map ((left * 64 + v).toUInt8 :: ·)

def readBinary (t : Text) : Except Fault (List UInt8) :=
  if t.all fun c => c.toNat < 128 then
    match base64From 0 0 0 t with
    | some bytes => .ok bytes
    | none => .error .malformed
  else .error .malformed

end Notemark.Yaml
