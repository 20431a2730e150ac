import Notemark.Text.Quoted

/-!
# Text as bytes

* `utf8Char`, `utf8`: the bytes of a text,
* `Utf8Fault`: the first bytes that are no part of a text, and why,
* `ofUtf8`: the text of some bytes; over-long forms and surrogates are refused.
-/

namespace Notemark.Text

/-- The bytes of a code point. -/
def utf8Char (c : Char) : List UInt8 :=
  let n := c.toNat
  if n < 0x80 then [n.toUInt8]
  else if n < 0x800 then [(0xC0 + n / 0x40).toUInt8, (0x80 + n % 0x40).toUInt8]
  else if n < 0x10000 then
    [(0xE0 + n / 0x1000).toUInt8, (0x80 + n / 0x40 % 0x40).toUInt8, (0x80 + n % 0x40).toUInt8]
  else
    [(0xF0 + n / 0x40000).toUInt8, (0x80 + n / 0x1000 % 0x40).toUInt8,
      (0x80 + n / 0x40 % 0x40).toUInt8, (0x80 + n % 0x40).toUInt8]

def utf8 (t : Text) : List UInt8 := t.flatMap utf8Char

inductive Utf8Reason where
  | start
  | continuation
  | finish
  deriving Repr, DecidableEq

/-- A run of `size` bytes from the offset `start`, the first one being `byte`, that no text has. -/
structure Utf8Fault where
  start : Nat
  size : Nat
  byte : UInt8
  reason : Utf8Reason
  deriving Repr, DecidableEq

def Utf8Reason.text : Utf8Reason → String
  | start => "invalid start byte"
  | continuation => "invalid continuation byte"
  | finish => "unexpected end of data"

def Utf8Fault.message (f : Utf8Fault) : String :=
  let place :=
    if f.size = 1 then
      s!"byte 0x{String.ofList (hexDigits 2 f.byte.toNat)} in position {f.start}"
    else s!"bytes in position {f.start}-{f.start + f.size - 1}"
  s!"'utf-8' codec can't decode {place}: {f.reason.text}"

/-- A code point whose bytes have not all been seen: how many are left, and the bounds of the next
one. -/
structure Utf8Partial where
  start : Nat
  byte : UInt8
  left : Nat
  low : Nat
  high : Nat
  code : Nat
  deriving Repr, DecidableEq

/-- What the first byte of a longer form says about the rest. -/
def utf8Lead? (offset : Nat) (b : UInt8) : Option Utf8Partial :=
  let n := b.toNat
  if n < 0xC2 then none
  else if n < 0xE0 then some ⟨offset, b, 1, 0x80, 0xBF, n - 0xC0⟩
  else if n < 0xF0 then
    some ⟨offset, b, 2, if n = 0xE0 then 0xA0 else 0x80, if n = 0xED then 0x9F else 0xBF, n - 0xE0⟩
  else if n < 0xF5 then
    some ⟨offset, b, 3, if n = 0xF0 then 0x90 else 0x80, if n = 0xF4 then 0x8F else 0xBF, n - 0xF0⟩
  else none

def ofUtf8From (offset : Nat) (pending : Option Utf8Partial) : List UInt8 → Except Utf8Fault Text
  | [] =>
    match pending with
    | none => .ok []
    | some p => .error ⟨p.start, offset - p.start, p.byte, .finish⟩
  | b :: bs =>
    match pending with
    | none =>
      if b.toNat < 0x80 then (ofUtf8From (offset + 1) none bs).map (Char.ofNat b.toNat :: ·)
      else
        match utf8Lead? offset b with
        | some p => ofUtf8From (offset + 1) (some p) bs
        | none => .error ⟨offset, 1, b, .start⟩
    | some p =>
      if p.low ≤ b.toNat && b.toNat ≤ p.high then
        let code := p.code * 0x40 + (b.toNat - 0x80)
        if p.left ≤ 1 then (ofUtf8From (offset + 1) none bs).map (Char.ofNat code :: ·)
        else ofUtf8From (offset + 1) (some ⟨p.start, p.byte, p.left - 1, 0x80, 0xBF, code⟩) bs
      else .error ⟨p.start, offset - p.start, p.byte, .continuation⟩

/-- The text of a sequence of bytes. -/
def ofUtf8 (bytes : List UInt8) : Except Utf8Fault Text := ofUtf8From 0 none bytes

end Notemark.Text
