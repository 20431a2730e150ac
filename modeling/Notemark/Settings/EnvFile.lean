import Notemark.Text.Search

/-!
# Files of variables

A file of lines `NAME=value`, with comments, quoted values and references to other variables.

* `Binding`: a variable and its value, if it has one,
* `bindings`: the variables of a file; a line that cannot be read is passed over,
* `expand`: a value with its references replaced,
* `load`: the variables of a file with their values expanded.
-/

namespace Notemark.EnvFile

/-- A variable and its value; a name alone has none. -/
abbrev Binding := Text × Option Text

/-- White space that does not end a line. -/
def isGap (c : Char) : Bool := Text.isBlank c && c != '\n' && c != '\r'

def isLineEnd (c : Char) : Bool := c == '\n' || c == '\r'

def skipGap (t : Text) : Text := t.dropWhile isGap

/-- What follows the line at hand. -/
def nextLine (t : Text) : Text :=
  match t.dropWhile fun c => !isLineEnd c with
  | [] => []
  | _ :: rest => rest

/-- What follows the end of a line, if a line ends here. -/
def afterLine? (t : Text) : Option Text :=
  match skipGap t with
  | [] => some []
  | '\r' :: '\n' :: rest => some rest
  | c :: rest => if isLineEnd c then some rest else none

def skipComment (t : Text) : Text :=
  match skipGap t with
  | '#' :: rest => rest.dropWhile fun c => !isLineEnd c
  | _ => t

/-- The word `export` may stand before a name. -/
def skipExport (t : Text) : Text :=
  if "export".toList.isPrefixOf t then
    let rest := t.drop 6
    if (rest.head?.map isGap).getD false then skipGap rest else t
  else t

/-! ## Names -/

/-- The name at the beginning of a text and what follows; a comment has no name. -/
def name? (t : Text) : Option (Option Text × Text) :=
  match t with
  | '#' :: _ => some (none, t)
  | '\'' :: rest =>
    let name := rest.takeWhile (· != '\'')
    match rest.drop name.length with
    | _ :: after => if name.isEmpty then none else some (some name, after)
    | [] => none
  | t =>
    let name := t.takeWhile fun c => c != '=' && c != '#' && !Text.isBlank c
    if name.isEmpty then none else some (some name, t.drop name.length)

/-! ## Values -/

/-- How far a quoted value reaches, and where the last escaped quotation mark was. -/
def quotedLength (mark : Char) (index : Nat) (last : Option Nat) : Text → Option Nat × Option Nat
  | [] => (none, last)
  | '\\' :: c :: rest =>
    if c = mark then quotedLength mark (index + 2) (some index) rest
    else quotedLength mark (index + 1) last (c :: rest)
  | c :: rest => if c = mark then (some index, last) else quotedLength mark (index + 1) last rest
termination_by t => t.length

/-- A value between quotation marks, as written, and what follows it. A backslash keeps a mark
from ending the value, unless no other mark does. -/
def quoted? (mark : Char) (t : Text) : Option (Text × Text) :=
  match quotedLength mark 0 none t with
  | (some n, _) => some (t.take n, t.drop (n + 1))
  | (none, some n) => some (t.take (n + 1), t.drop (n + 2))
  | (none, none) => none

/-- Replaces the escapes of a table. -/
def unescape (table : List (Char × Char)) : Text → Text
  | [] => []
  | ['\\'] => ['\\']
  | '\\' :: c :: rest =>
    match table.lookup c with
    | some d => d :: unescape table rest
    | none => '\\' :: unescape table (c :: rest)
  | c :: rest => c :: unescape table rest
termination_by t => t.length

def singleEscapes : List (Char × Char) := [('\\', '\\'), ('\'', '\'')]

def doubleEscapes : List (Char × Char) :=
  [('\\', '\\'), ('\'', '\''), ('"', '"'), ('a', '\x07'), ('b', '\x08'), ('f', '\x0c'),
    ('n', '\n'), ('r', '\r'), ('t', '\t'), ('v', '\x0b')]

/-- A text up to the first comment that white space stands before. -/
def beforeComment (t : Text) : Text :=
  match t with
  | [] => []
  | c :: cs =>
    if Text.isBlank c && (cs.dropWhile Text.isBlank).head? == some '#' then []
    else c :: beforeComment cs

/-- The value at the beginning of a text and what follows. -/
def value? (t : Text) : Option (Text × Text) :=
  match t with
  | '\'' :: rest => (quoted? '\'' rest).map fun q => (unescape singleEscapes q.1, q.2)
  | '"' :: rest => (quoted? '"' rest).map fun q => (unescape doubleEscapes q.1, q.2)
  | t =>
    let line := t.takeWhile fun c => !isLineEnd c
    some (Text.stripEnd (beforeComment line), t.drop line.length)

/-! ## Lines -/

/-- The binding at the beginning of a text, if its line has one, and what follows the line. -/
def binding? (t : Text) : Option (Option Binding × Text) := do
  let (name, rest) ← name? (skipExport t)
  let (value, rest) ←
    match skipGap rest with
    | '=' :: after => (value? (skipGap after)).map fun v => (some v.1, v.2)
    | rest => some (none, rest)
  let rest ← afterLine? (skipComment rest)
  return (name.map fun name => (name, value), rest)

/-- The bindings of a text; every line takes at least one character. -/
def bindingsFrom : Nat → Text → List Binding
  | 0, _ => []
  | budget + 1, t =>
    match t.dropWhile Text.isBlank with
    | [] => []
    | c :: cs =>
      match binding? (c :: cs) with
      | some (some b, rest) => b :: bindingsFrom budget rest
      | some (none, rest) => bindingsFrom budget rest
      | none => bindingsFrom budget (nextLine (c :: cs))

def bindings (t : Text) : List Binding := bindingsFrom (t.length + 1) t

/-! ## References -/

/-- A reference at the beginning of a text: its name, the text to use if there is no such variable,
and what follows. -/
def reference? (t : Text) : Option (Text × Text × Text) := do
  let t ← match t with | '$' :: '\x7b' :: rest => some rest | _ => none
  let name := t.takeWhile fun c => c != '\x7d' && c != ':'
  match t.drop name.length with
  | '\x7d' :: rest => some (name, [], rest)
  | ':' :: '-' :: rest =>
    let other := rest.takeWhile (· != '\x7d')
    match rest.drop other.length with
    | _ :: rest => some (name, other, rest)
    | [] => none
  | _ => none

/-- A value with its references replaced by what the variables stand for. -/
def expandFrom (known : Text → Option Text) : Nat → Text → Text
  | 0, _ => []
  | _, [] => []
  | budget + 1, c :: cs =>
    match reference? (c :: cs) with
    | some (name, other, rest) => (known name).getD other ++ expandFrom known budget rest
    | none => c :: expandFrom known budget cs

def expand (known : Text → Option Text) (t : Text) : Text := expandFrom known t.length t

/-- The value of a variable that was bound before, the last binding counting. -/
def lookup (bound : List Binding) (name : Text) : Option (Option Text) :=
  (bound.reverse.find? fun b => b.1 = name).map (·.2)

/-- Expands the values one after the other: each sees those before it, and behind them the
variables of the surroundings. -/
def expandAll (outer : Text → Option Text) (bound : List Binding) : List Binding → List Binding
  | [] => bound
  | (name, value) :: later =>
    let known (n : Text) : Option Text :=
      match lookup bound n with
      | some value => some (value.getD [])
      | none => outer n
    expandAll outer (bound ++ [(name, value.map (expand known))]) later

/-- The variables of a file. -/
def load (outer : Text → Option Text) (t : Text) : List Binding :=
  expandAll outer [] (bindings t)

end Notemark.EnvFile
