import Notemark.Fault

/-!
# Faults of header data

* `Fault`: why a text has no data; `malformed` is every breach of the notation itself, the others
  are values that their type does not admit,
* `Fault.kind`: what sort of failure a caller sees,
* `Fault.message`: the wording.
-/

namespace Notemark

namespace Yaml

inductive Fault where
  | malformed
  /-- Collections are nested more deeply than they can be read. -/
  | depth
  | int (base : Nat) (text : Text)
  | tooLong (digits : Nat)
  | float (text : Text)
  | bool (text : Text)
  | emptyNumber
  | timestamp
  | calendar (message : String)
  | codePoint
  | codeNumber
  deriving Repr, DecidableEq

namespace Fault

def kind : Fault → FaultKind
  | malformed | int .. | tooLong _ | float _ | calendar _ | codePoint => .value
  | depth => .depth
  | bool _ => .key
  | emptyNumber => .index
  | timestamp => .missing
  | codeNumber => .range

def message : Fault → String
  | malformed => "malformed"
  | depth => depthMessage
  | int base text => Text.notInteger base text
  | tooLong digits => Text.tooManyDigits digits
  | float text => s!"could not convert string to float: {String.ofList (Text.quoted text)}"
  | bool text => String.ofList (Text.quoted text)
  | emptyNumber => "string index out of range"
  | timestamp => "'NoneType' object has no attribute 'groupdict'"
  | calendar message => message
  | codePoint => "chr() arg not in range(0x110000)"
  | codeNumber => "Python int too large to convert to C int"

end Fault

end Yaml

end Notemark
