import Notemark.Text.Digit
import Notemark.Text.Search

/-!
# Options of the command line

* `Options`: what a run can be told,
* `Switch`: the switches, with their spellings,
* `Word`: what an argument is taken for,
* `Request.ofArguments`: what the arguments ask for,
* `versionLine`: the answer to the question for the version.
-/

namespace Notemark.Batch

structure Options where
  /-- Which files are sources; without one the settings tell. -/
  pattern : Option Text := none
  lenient : Bool := false
  validate : Bool := false
  verbosity : Int := 1
  deriving Repr, DecidableEq

/-- What the arguments ask for. -/
inductive Request where
  | run (o : Options) (input output : Text)
  | version
  | help
  /-- The arguments make no sense. -/
  | misuse
  deriving Repr, DecidableEq

inductive Switch where
  | help
  | pattern
  | lenient
  | validate
  | verbosity
  | version
  deriving Repr, DecidableEq

def spellings : List (String × Switch) :=
  [("-h", .help), ("--help", .help), ("--pattern", .pattern), ("--lenient", .lenient),
    ("--validate", .validate), ("-v", .verbosity), ("--verbosity", .verbosity), ("-V", .version),
    ("--version", .version)]

def switch? (t : Text) : Option Switch := spellings.lookup (String.ofList t)

/-- What an argument is taken for. -/
inductive Word where
  | plain (t : Text)
  /-- A switch with a value, or with letters right behind its own. -/
  | switch (s : Switch) (letters : Bool) (value : Option Text)
  /-- Everything behind it is plain. -/
  | divider
  | unknown
  | ambiguous
  deriving Repr, DecidableEq

/-- Negative numbers are no switches. -/
def isNegative (t : Text) : Bool :=
  let digit (c : Char) : Bool := (Text.decimalValue? c).isSome
  match t with
  | '-' :: number =>
    let whole := number.takeWhile digit
    match number.drop whole.length with
    | [] => !whole.isEmpty
    | '.' :: part => !part.isEmpty && part.all digit
    | _ => false
  | _ => false

/-- The switch of an argument with two hyphens, which may be cut short. -/
def longSwitch (t : Text) : Option Word :=
  let (name, value) :=
    match Text.cut? ['='] t with
    | some (name, value) => (name, some value)
    | none => (t, none)
  match spellings.filter fun s => name.isPrefixOf s.1.toList with
  | [] => none
  | [(_, s)] => some (.switch s false value)
  | _ => some .ambiguous

/-- The switch of an argument with one hyphen: its letter, with the rest attached. -/
def shortSwitch (t : Text) : Option Word :=
  (switch? (t.take 2)).map fun s => .switch s true (some (t.drop 2))

/-- An argument that spells a switch, alone or with a value behind a sign of equality. -/
def exactSwitch (t : Text) : Option Word :=
  match switch? t with
  | some s => some (.switch s false none)
  | none =>
    match Text.cut? ['='] t with
    | some (name, value) => (switch? name).map fun s => .switch s false (some value)
    | none => none

def Word.ofArgument (t : Text) : Word :=
  if t.head? != some '-' then .plain t
  else
    match exactSwitch t with
    | some word => word
    | none =>
      if t.length = 1 then .plain t
      else
        match if ['-', '-'].isPrefixOf t then longSwitch t else shortSwitch t with
        | some word => word
        | none => if isNegative t || t.contains ' ' then .plain t else .unknown

/-- The words of some arguments. -/
def words : List Text → List Word
  | [] => []
  | t :: ts => if t = ['-', '-'] then .divider :: ts.map .plain else .ofArgument t :: words ts

/-- The switches that letters behind a switch stand for, up to the first that is none of them, and
whether there is one. A hyphen or a sign of equality cannot stand there. -/
def letterSwitches : Text → Option (List Switch × Bool)
  | [] => some ([], false)
  | c :: cs =>
    if c = '-' || c = '=' then none
    else
      match switch? ['-', c] with
      | none => some ([], true)
      | some s => (letterSwitches cs).map fun later => (s :: later.1, later.2)

/-- What a switch without a value does. -/
def apply (o : Options) : Switch → Except Request Options
  | .help => .error .help
  | .version => .error .version
  | .lenient => .ok { o with lenient := true }
  | .validate => .ok { o with validate := true }
  | .verbosity => .ok { o with verbosity := o.verbosity + 1 }
  | .pattern => .error .misuse

def applyAll (o : Options) : List Switch → Except Request Options
  | [] => .ok o
  | s :: later => do applyAll (← apply o s) later

/-- The switches of one word, if it makes sense, and whether a stray letter is left. -/
def switchesOf (s : Switch) (letters : Bool) (value : Option Text) : Option (List Switch × Bool) :=
  match value with
  | none => some ([s], false)
  | some t => if letters then (letterSwitches t).map fun later => (s :: later.1, later.2) else none

/-- Follows the words from the left. Plain words are the two directories. Words that mean nothing
count against the whole only at the end, so that asking for the version before is answered. -/
def follow (o : Options) (folders : List Text) (stray : Bool) : List Word → Request
  | [] =>
    match folders, stray with
    | [input, output], false => .run o input output
    | _, _ => .misuse
  | .switch .pattern _ (some t) :: later => follow { o with pattern := some t } folders stray later
  | .switch .pattern _ none :: .plain t :: later =>
    follow { o with pattern := some t } folders stray later
  | .switch .pattern _ none :: .divider :: .plain t :: later =>
    follow { o with pattern := some t } folders stray later
  | .switch .pattern _ none :: _ => .misuse
  | .switch s letters value :: later =>
    match switchesOf s letters value with
    | none => .misuse
    | some (switches, left) =>
      match applyAll o switches with
      | .error request => request
      | .ok o => follow o folders (stray || left) later
  | .divider :: later => follow o folders stray later
  | .plain t :: later => follow o (folders ++ [t]) stray later
  | .unknown :: later => follow o folders true later
  | .ambiguous :: _ => .misuse

/-- What the arguments ask for. -/
def Request.ofArguments (arguments : List Text) : Request :=
  let ws := words arguments
  if ws.contains .ambiguous then .misuse else follow {} [] false ws

/-- The name of the program and its version. -/
def versionLine : String := "hypernote 1.1.0"

end Notemark.Batch
