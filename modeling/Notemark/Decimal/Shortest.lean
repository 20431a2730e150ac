import Notemark.Decimal.Double

/-!
# The shortest decimal of a double

* `Digits`: a decimal `digits · 10 ^ exponent`,
* `shortest`: the decimal with the fewest digits that reads back as the same double, and of those
  the nearest one,
* `Double.text`: positional notation for magnitudes from `10 ^ -4` up to `10 ^ 16`, an exponent
  otherwise.
-/

namespace Notemark.Decimal

/-- A positive decimal `digits · 10 ^ exponent`. -/
structure Digits where
  digits : Nat
  exponent : Int
  deriving Repr, DecidableEq

/-- The greatest `k` with `10 ^ k ≤ num / den`, for a quotient that is not zero. The number of
steps is bounded by the number of decimal places a double can have. -/
def magnitude (num den : Nat) : Int :=
  if den ≤ num then ((Nat.toDigits 10 (num / den)).length : Int) - 1
  else
    let rec below (budget : Nat) (num : Nat) (k : Int) : Int :=
      match budget with
      | 0 => k
      | budget + 1 => if den ≤ num then k else below budget (num * 10) (k - 1)
    below 400 (num * 10) (-1)

/-- The two neighbours of the quotient on the grid of multiples of `10 ^ exponent`. -/
def neighbours (num den : Nat) (exponent : Int) : Nat × Nat :=
  let below :=
    if 0 ≤ exponent then num / (den * Nat.pow 10 exponent.toNat)
    else num * Nat.pow 10 (-exponent).toNat / den
  (below, below + 1)

/-- How far a decimal lies from `num / den`, in units that are the same for one exponent. -/
def gap (num den : Nat) (d : Digits) : Nat :=
  if 0 ≤ d.exponent then
    let v := d.digits * Nat.pow 10 d.exponent.toNat * den
    (num - v) + (v - num)
  else
    let v := d.digits * den
    let n := num * Nat.pow 10 (-d.exponent).toNat
    (n - v) + (v - n)

/-- The nearest decimal of `count` digits that reads back as `x`. -/
def candidate? (x : Double) (num den : Nat) (top : Int) (count : Nat) : Option Digits :=
  let exponent := top - (count : Int) + 1
  let (low, high) := neighbours num den exponent
  let fits (n : Nat) : Bool := n ≠ 0 && Double.ofDecimal false n exponent == x
  match fits low, fits high with
  | false, false => none
  | true, false => some ⟨low, exponent⟩
  | false, true => some ⟨high, exponent⟩
  | true, true =>
    let (l, h) := (gap num den ⟨low, exponent⟩, gap num den ⟨high, exponent⟩)
    if l < h then some ⟨low, exponent⟩
    else if h < l then some ⟨high, exponent⟩
    else if low % 2 = 0 then some ⟨low, exponent⟩
    else some ⟨high, exponent⟩

/-- The shortest decimal of a positive double; seventeen digits always suffice. -/
def shortest (x : Double) (num den : Nat) : Digits :=
  let top := magnitude num den
  ((List.range 17).findSome? fun i => candidate? x num den top (i + 1)).getD ⟨0, 0⟩

/-- Drops the zeros at the end of a decimal. -/
def trimZeros (budget : Nat) (d : Digits) : Digits :=
  match budget with
  | 0 => d
  | budget + 1 =>
    if d.digits ≠ 0 && d.digits % 10 = 0 then trimZeros budget ⟨d.digits / 10, d.exponent + 1⟩
    else d

/-- Writes a decimal: positional while the point stands within or near the digits. -/
def Digits.text (d : Digits) : String :=
  let ds := Nat.toDigits 10 d.digits
  let point : Int := (ds.length : Int) + d.exponent
  if -4 < point && point ≤ 16 then
    if point ≤ 0 then
      String.ofList ('0' :: '.' :: (List.replicate (-point).toNat '0' ++ ds))
    else if (ds.length : Int) ≤ point then
      String.ofList (ds ++ List.replicate (point - ds.length).toNat '0' ++ ['.', '0'])
    else String.ofList (ds.take point.toNat ++ '.' :: ds.drop point.toNat)
  else
    let power := point - 1
    let size := Nat.toDigits 10 power.natAbs
    let size := if size.length < 2 then '0' :: size else size
    let mantissa := match ds with | [] => [] | [c] => [c] | c :: cs => c :: '.' :: cs
    String.ofList (mantissa ++ 'e' :: (if power < 0 then '-' else '+') :: size)

/-- The text of a double. -/
def Double.text (x : Double) : String :=
  match x with
  | .nan => "nan"
  | .infinite negative => if negative then "-inf" else "inf"
  | .finite negative m e =>
    let size :=
      match (Double.finite false m e).ratio? with
      | some (_, num, den) =>
        if num = 0 then "0.0" else (trimZeros 20 (shortest (.finite false m e) num den)).text
      | none => ""
    if negative then "-" ++ size else size

end Notemark.Decimal
