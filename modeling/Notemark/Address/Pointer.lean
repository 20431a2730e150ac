import Notemark.Address.Bech32
import Notemark.Address.Tlv
import Notemark.Text.Utf8
import Notemark.Value.Basic

/-!
# Event addresses

* `Pointer`: the address of an event that can be replaced,
* `Pointer.decode`, `Pointer.encode`: its written form,
* `Pointer.query`: the filter that finds the event,
* `queryOf?`: the filter of a written address.
-/

namespace Notemark.Address

structure Pointer where
  identifier : Text
  /-- The author's key in lower-case hexadecimal. -/
  pubkey : Text
  kind : Nat
  relays : List Text
  deriving Repr, DecidableEq

inductive Fault where
  | notBech32
  | label (found : Text)
  | padding
  | truncated
  | missing
  | length
  | identifier (f : Text.Utf8Fault)
  deriving Repr, DecidableEq

def Fault.message : Fault → String
  | notBech32 => "not a valid bech32 string"
  | label found => s!"expected naddr, got {String.ofList found}"
  | padding => "invalid bech32 padding"
  | truncated => "truncated TLV entry"
  | missing => "naddr is missing identifier, author or kind"
  | length => "naddr author or kind has the wrong length"
  | identifier f => f.message

namespace Pointer

def labelText : Text := ['n', 'a', 'd', 'd', 'r']

def identifierType : UInt8 := 0

def relayType : UInt8 := 1

def authorType : UInt8 := 2

def kindType : UInt8 := 3

/-- Bytes beyond ASCII become replacement characters. -/
def asciiText (bytes : List UInt8) : Text :=
  bytes.map fun b => if b.toNat < 128 then Char.ofNat b.toNat else Char.ofNat 0xFFFD

def bigEndian (bytes : List UInt8) : Nat := bytes.foldl (fun n b => n * 256 + b.toNat) 0

def hex (bytes : List UInt8) : Text := bytes.flatMap fun b => Text.hexDigits 2 b.toNat

/-- The pointer of a payload. -/
def ofPayload (payload : List UInt8) : Except Fault Pointer :=
  match Tlv.parse payload with
  | .error .truncated => .error .truncated
  | .ok entries =>
    match Tlv.values entries identifierType, Tlv.values entries authorType,
      Tlv.values entries kindType with
    | identifier :: _, author :: _, kind :: _ =>
      if author.length ≠ 32 || kind.length ≠ 4 then .error .length
      else
        match Text.ofUtf8 identifier with
        | .error f => .error (.identifier f)
        | .ok identifier =>
          .ok { identifier, pubkey := hex author, kind := bigEndian kind
                relays := (Tlv.values entries relayType).map asciiText }
    | _, _, _ => .error .missing

/-- The pointer of a written address; blanks around it do not count. -/
def decode (t : Text) : Except Fault Pointer :=
  match Bech32.decode (Text.strip t) with
  | none => .error .notBech32
  | some (label, symbols) =>
    if label ≠ labelText then .error (.label label)
    else
      match Bech32.toBytes? symbols with
      | none => .error .padding
      | some payload => ofPayload payload

/-! ## Writing addresses -/

def hexDigit (c : Char) : Nat := if c.isDigit then c.toNat - 48 else c.toNat - 87

/-- Pairs of hexadecimal digits. -/
def unhex : Text → List UInt8
  | a :: b :: t => (hexDigit a * 16 + hexDigit b).toUInt8 :: unhex t
  | _ => []

def kindBytes (kind : Nat) : List UInt8 :=
  [(kind / 0x1000000).toUInt8, (kind / 0x10000 % 0x100).toUInt8, (kind / 0x100 % 0x100).toUInt8,
    (kind % 0x100).toUInt8]

def payload (p : Pointer) : List UInt8 :=
  Tlv.encode <|
    ⟨identifierType, Text.utf8 p.identifier⟩ ::
      p.relays.map (fun r => ⟨relayType, r.map fun c => c.toNat.toUInt8⟩) ++
        [⟨authorType, unhex p.pubkey⟩, ⟨kindType, kindBytes p.kind⟩]

def encode (p : Pointer) : Text := Bech32.encode labelText (Bech32.ofBytes p.payload)

/-! ## Queries -/

/-- The filter for the event; `first` asks for a step that takes the one result out of its list. -/
def query (p : Pointer) (first : Bool) : Value :=
  .object <|
    [("kinds", .list [.int p.kind]), ("authors", .strings [String.ofList p.pubkey]),
      ("#d", .strings [String.ofList p.identifier]), ("limit", .int 1)] ++
      if first then [("pipe", .strings ["first"])] else []

end Pointer

/-- The filter of a written address. -/
def queryOf? (t : Text) (first : Bool) : Option Value :=
  match Pointer.decode t with
  | .ok p => some (p.query first)
  | .error _ => none

end Notemark.Address
