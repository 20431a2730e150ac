import Notemark.Text.Blank

/-!
# Tagged entries

A payload is a sequence of entries: a type byte, a length byte and so many bytes.

* `Entry`, `encode`: entries and their bytes,
* `parse`: the entries of a payload; a single byte at its end is passed over,
* `values`: the values of one type, in order,
* `grouped`: the values by type, types in order of first appearance.
-/

namespace Notemark.Address.Tlv

structure Entry where
  type : UInt8
  value : List UInt8
  deriving Repr, DecidableEq

inductive Fault where
  | truncated
  deriving Repr, DecidableEq

def Entry.encode (e : Entry) : List UInt8 := e.type :: e.value.length.toUInt8 :: e.value

def encode (es : List Entry) : List UInt8 := es.flatMap Entry.encode

/-- What has been read of the entry at hand; its bytes so far are in reverse order. -/
inductive Stage where
  | start
  | length (type : UInt8)
  | value (type : UInt8) (left : Nat) (soFar : List UInt8)
  deriving Repr, DecidableEq

def parseFrom : Stage → List UInt8 → Except Fault (List Entry)
  | .start, [] => .ok []
  | .length _, [] => .ok []
  | .value .., [] => .error .truncated
  | .start, b :: bs => parseFrom (.length b) bs
  | .length type, b :: bs =>
    if b = 0 then (parseFrom .start bs).map (⟨type, []⟩ :: ·)
    else parseFrom (.value type (b.toNat - 1) []) bs
  | .value type left soFar, b :: bs =>
    match left with
    | 0 => (parseFrom .start bs).map (⟨type, (b :: soFar).reverse⟩ :: ·)
    | left + 1 => parseFrom (.value type left (b :: soFar)) bs

def parse (payload : List UInt8) : Except Fault (List Entry) := parseFrom .start payload

def values (es : List Entry) (type : UInt8) : List (List UInt8) :=
  (es.filter (·.type == type)).map (·.value)

/-- The types of a list of entries, each once. -/
def types (es : List Entry) : List UInt8 :=
  es.foldl (fun seen e => if seen.contains e.type then seen else seen ++ [e.type]) []

def grouped (es : List Entry) : List (UInt8 × List (List UInt8)) :=
  (types es).map fun type => (type, values es type)

end Notemark.Address.Tlv
