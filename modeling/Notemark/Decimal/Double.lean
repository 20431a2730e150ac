/-!
# Binary fractions of double precision

* `Double`: a finite number `± mantissa · 2 ^ exponent`, an infinity, or no number,
* `Double.ofRatio`: the double nearest to a quotient, halves going to the even mantissa,
* `Double.ofDecimal`: the double nearest to a decimal,
* `Double.toInt?`, `Double.equalsInt`: exact comparison with integers.

All arithmetic is exact on natural numbers, so that nothing depends on the machine.
-/

namespace Notemark.Decimal

/-- A number of double precision. A finite one is kept with `mantissa < 2 ^ 53` and an exponent of
at least `-1074`, the exponent being as small as these two bounds allow. -/
inductive Double where
  | finite (negative : Bool) (mantissa : Nat) (exponent : Int)
  | infinite (negative : Bool)
  | nan
  deriving Repr, DecidableEq

namespace Double

def leastExponent : Int := -1074

def greatestExponent : Int := 971

def zero (negative : Bool) : Double := .finite negative 0 leastExponent

/-- The natural number nearest to `num / den`, halves going to the even neighbour. -/
def roundDiv (num den : Nat) : Nat :=
  let q := num / den
  let twice := 2 * (num % den)
  if twice < den then q else if den < twice then q + 1 else if q % 2 = 0 then q else q + 1

/-- `num / den` in units of `2 ^ exponent`, rounded. -/
def scaled (num den : Nat) (exponent : Int) : Nat :=
  if 0 ≤ exponent then roundDiv num (den * Nat.pow 2 exponent.toNat)
  else roundDiv (num * Nat.pow 2 (-exponent).toNat) den

/-- The least number that is too great for a mantissa. -/
def mantissaBound : Nat := Nat.pow 2 53

/-- The double nearest to `num / den`. -/
def ofRatio (negative : Bool) (num den : Nat) : Double :=
  if num = 0 || den = 0 then zero negative
  else
    let guess : Int := (Nat.log2 num : Int) - (Nat.log2 den : Int) - 53
    let start := if guess < leastExponent then leastExponent else guess
    -- `guess` leaves at most 54 binary digits, so one of two exponents fits
    let exponent := if scaled num den start < mantissaBound then start else start + 1
    let mantissa := scaled num den exponent
    let (mantissa, exponent) :=
      if mantissa < mantissaBound then (mantissa, exponent) else (mantissa / 2, exponent + 1)
    if greatestExponent < exponent then .infinite negative
    else .finite negative mantissa exponent

/-- The double nearest to `digits · 10 ^ exponent`. -/
def ofDecimal (negative : Bool) (digits : Nat) (exponent : Int) : Double :=
  if 0 ≤ exponent then
    -- beyond this the value is past every finite double
    if 400 < exponent && digits ≠ 0 then .infinite negative
    else ofRatio negative (digits * Nat.pow 10 exponent.toNat) 1
  -- below this the value is nearer to zero than to every other double
  else if Nat.log2 digits + 400 < (-exponent).toNat then zero negative
  else ofRatio negative digits (Nat.pow 10 (-exponent).toNat)

/-- The value of a finite double as a sign and a quotient. -/
def ratio? : Double → Option (Bool × Nat × Nat)
  | finite negative m e =>
    if 0 ≤ e then some (negative, m * Nat.pow 2 e.toNat, 1)
    else some (negative, m, Nat.pow 2 (-e).toNat)
  | _ => none

/-- The integer that the double equals, if there is one. -/
def toInt? (x : Double) : Option Int :=
  match x.ratio? with
  | some (negative, num, den) =>
    if num % den = 0 then some (if negative then -((num / den : Nat) : Int) else (num / den : Nat))
    else none
  | none => none

def equalsInt (x : Double) (i : Int) : Bool := x.toInt? == some i

/-- Equality of numbers: the zeros are equal, and what is no number equals nothing. -/
def equals : Double → Double → Bool
  | finite n m e, finite n' m' e' => (m == 0 && m' == 0) || (n == n' && m == m' && e == e')
  | infinite n, infinite n' => n == n'
  | _, _ => false

def isZero : Double → Bool
  | finite _ 0 _ => true
  | _ => false

/-- Changes the sign; what is no number stays as it is. -/
def negate : Double → Double
  | finite n m e => .finite (!n) m e
  | infinite n => .infinite (!n)
  | nan => .nan

/-- The sum, rounded to the nearest double. -/
def add : Double → Double → Double
  | nan, _ | _, nan => .nan
  | infinite n, infinite n' => if n = n' then .infinite n else .nan
  | infinite n, _ | _, infinite n => .infinite n
  | finite n m e, finite n' m' e' =>
    let low := min e e'
    let units (n : Bool) (m : Nat) (e : Int) : Int :=
      let u : Nat := m * Nat.pow 2 (e - low).toNat
      if n then -u else u
    let total := units n m e + units n' m' e'
    if total = 0 then zero (n && n')
    else if 0 ≤ low then ofRatio (decide (total < 0)) (total.natAbs * Nat.pow 2 low.toNat) 1
    else ofRatio (decide (total < 0)) total.natAbs (Nat.pow 2 (-low).toNat)

/-- The product with a natural number, rounded to the nearest double. -/
def scale (x : Double) (k : Nat) : Double :=
  match x with
  | nan => .nan
  | infinite n => if k = 0 then .nan else .infinite n
  | finite n m e =>
    if 0 ≤ e then ofRatio n (m * k * Nat.pow 2 e.toNat) 1
    else ofRatio n (m * k) (Nat.pow 2 (-e).toNat)

end Double

end Notemark.Decimal
