import Notemark.Text.Search

/-!
# Bech32 strings

* `Symbol`: a digit of five bits, one character each,
* `checksum`, `isIntact`: six symbols that guard the others,
* `encode`, `decode`: a label and its symbols, of any length,
* `toBytes?`, `ofBytes`: symbols regrouped to bytes and back.
-/

namespace Notemark.Address.Bech32

/-- A digit of five bits. -/
abbrev Symbol := BitVec 5

/-- The characters of the symbols, in order. -/
def alphabet : Text := "qpzry9x8gf2tvdw0s3jn54khce6mua7l".toList

def Symbol.char (s : Symbol) : Char := alphabet.getD s.toNat 'q'

def Symbol.ofChar? (c : Char) : Option Symbol := (alphabet.idxOf? c).map (BitVec.ofNat 5)

/-! ## Checksum -/

/-- The state of the checksum, a polynomial of degree five over symbols. -/
abbrev Check := BitVec 30

/-- The multiples that take away the bits shifted out, lowest first. -/
def generators : List Check := [0x3b6a57b2, 0x26508e6d, 0x1ea119fa, 0x3d4233dd, 0x2a1462b3]

/-- What the five highest bits of a state contribute to the next one. -/
def carry (state : Check) : Check :=
  (generators.zipIdx.map fun g => if state.getLsbD (25 + g.2) then g.1 else 0).foldl (· ^^^ ·) 0

def absorb (state : Check) (s : Symbol) : Check :=
  (state <<< 5) ^^^ s.setWidth 30 ^^^ carry state

def absorbAll (state : Check) (ss : List Symbol) : Check := ss.foldl absorb state

/-- The label as symbols: the high bits of its characters, a gap, the low bits. -/
def labelSymbols (label : Text) : List Symbol :=
  label.map (fun c => BitVec.ofNat 5 (c.toNat / 32)) ++
    0 :: label.map fun c => BitVec.ofNat 5 (c.toNat % 32)

/-- A label and symbols that end in their checksum. -/
def isIntact (label : Text) (ss : List Symbol) : Bool :=
  absorbAll 1 (labelSymbols label ++ ss) == 1

/-- The six symbols that make a label and symbols intact. -/
def checksum (label : Text) (ss : List Symbol) : List Symbol :=
  let state := absorbAll 1 (labelSymbols label ++ ss ++ List.replicate 6 0) ^^^ 1
  (List.range 6).map fun i => (state >>> (5 * (5 - i))).setWidth 5

/-! ## Strings -/

def encode (label : Text) (ss : List Symbol) : Text :=
  label ++ '1' :: (ss ++ checksum label ss).map Symbol.char

/-- The last `1` divides the label from the symbols. -/
def divide? (t : Text) : Option (Text × Text) :=
  let symbols := (t.reverse.takeWhile (· != '1')).reverse
  if symbols.length < t.length then
    some (t.take (t.length - symbols.length - 1), symbols)
  else none

/-- Every character is printable ASCII, and letters are all of one case. -/
def isUniform (t : Text) : Bool :=
  t.all (fun c => 33 ≤ c.toNat && c.toNat ≤ 126) &&
    (t.map Char.toLower == t || t.map Char.toUpper == t)

/-- The label and the symbols of an intact string, without the checksum. -/
def decode (t : Text) : Option (Text × List Symbol) :=
  if !isUniform t then none
  else
    match divide? (t.map Char.toLower) with
    | none => none
    | some (label, rest) =>
      if label.isEmpty || rest.length < 6 then none
      else
        match rest.mapM Symbol.ofChar? with
        | none => none
        | some ss => if isIntact label ss then some (label, ss.take (ss.length - 6)) else none

/-! ## Bytes -/

/-- The bits of a number, highest first. -/
def bits {w : Nat} (x : BitVec w) : List Bool := (List.range w).map fun i => x.getMsbD i

def ofBits (w : Nat) (bs : List Bool) : BitVec w :=
  BitVec.ofNat w (bs.foldl (fun n b => 2 * n + b.toNat) 0)

/-- Groups of `size` bits, and the bits that are left over. -/
def groups (size : Nat) (current : List Bool) : List Bool → List (List Bool) × List Bool
  | [] => ([], current.reverse)
  | b :: bs =>
    if current.length + 1 = size then
      let (gs, rest) := groups size [] bs
      ((b :: current).reverse :: gs, rest)
    else groups size (b :: current) bs

/-- Whole bytes; at most four bits may be left over, all of them zero. -/
def toBytes? (ss : List Symbol) : Option (List UInt8) :=
  let (gs, rest) := groups 8 [] (ss.flatMap bits)
  if rest.length < 5 && rest.all (!·) then some (gs.map fun g => UInt8.ofBitVec (ofBits 8 g))
  else none

/-- The symbols of some bytes, filled up with zero bits. -/
def ofBytes (bytes : List UInt8) : List Symbol :=
  let (gs, rest) := groups 5 [] (bytes.flatMap fun b => bits b.toBitVec)
  gs.map (ofBits 5) ++
    if rest.isEmpty then [] else [ofBits 5 (rest ++ List.replicate (5 - rest.length) false)]

end Notemark.Address.Bech32
