import Notemark.Text.Search
import Notemark.Text.Surrogate
import Notemark.Text.Utf8
import Notemark.Yaml.Fault

/-!
# Tokens of header data

Header data is written in YAML 1.1. This module turns text into tokens:

* `Token`: indicators, properties and scalars; block structure is told by start and end tokens,
* `Place`, `Scan`: the text ahead with its position, and steps over it,
* the scalar forms: plain, quoted and block scalars,
* `Scanner`: indentation, flow nesting and the tokens that may turn out to be keys,
* `scan`: the tokens of a text, and the fault that ended them, if one did.
-/

namespace Notemark.Yaml

inductive Directive where
  | version (major : Nat)
  | tag (handle target : Text)
  | other
  deriving Repr, DecidableEq

inductive Token where
  | directive (d : Directive)
  | documentStart
  | documentEnd
  | blockSequenceStart
  | blockMappingStart
  | blockEnd
  | flowSequenceStart
  | flowSequenceEnd
  | flowMappingStart
  | flowMappingEnd
  | flowEntry
  | blockEntry
  | key
  | value
  | alias (name : Text)
  | anchor (name : Text)
  | tag (handle : Option Text) (suffix : Text)
  /-- A scalar by its code points: in quotation marks, halves of surrogate pairs can be spelled. -/
  | scalar (codes : List Nat) (plain : Bool)
  deriving Repr, DecidableEq

/-! ## Characters -/

def isBreak (c : Char) : Bool :=
  c == '\n' || c == '\r' || c.toNat == 0x85 || c.toNat == 0x2028 || c.toNat == 0x2029

def isGap (c : Char) : Bool := c == ' ' || c == '\t' || isBreak c

/-- The text ends here, or a space, a tab or a line break follows. -/
def gapOrEnd (c : Option Char) : Bool := match c with | none => true | some c => isGap c

/-- The text ends here, or a space or a line break follows. -/
def spaceOrEnd (c : Option Char) : Bool :=
  match c with | none => true | some c => c == ' ' || isBreak c

def breakOrEnd (c : Option Char) : Bool := match c with | none => true | some c => isBreak c

def isWordChar (c : Char) : Bool := c.isAlphanum || c == '-' || c == '_'

def isHex (c : Char) : Bool := c.isDigit || ('a' ≤ c && c ≤ 'f') || ('A' ≤ c && c ≤ 'F')

def hexDigit (c : Char) : Nat :=
  if c.isDigit then c.toNat - 48 else if 'a' ≤ c then c.toNat - 87 else c.toNat - 55

def hexValue (t : Text) : Nat := t.foldl (fun n c => n * 16 + hexDigit c) 0

/-- Characters a text may hold at all. -/
def isAllowed (c : Char) : Bool :=
  let n := c.toNat
  n == 9 || n == 10 || n == 13 || (0x20 ≤ n && n ≤ 0x7E) || n == 0x85 || (0xA0 ≤ n && n ≤ 0xFFFD) ||
    0x10000 ≤ n

/-! ## Steps over the text -/

/-- The text ahead, and where it begins. -/
structure Place where
  rest : Text
  index : Nat := 0
  line : Nat := 0
  column : Nat := 0
  deriving Repr, DecidableEq

namespace Place

/-- One character on. A byte order mark takes no column. -/
def next (p : Place) : Place :=
  match p.rest with
  | [] => p
  | c :: cs =>
    if isBreak c && !(c == '\r' && cs.head? == some '\n') then
      { rest := cs, index := p.index + 1, line := p.line + 1, column := 0 }
    else
      { rest := cs, index := p.index + 1, line := p.line
        column := if c.toNat = 0xFEFF then p.column else p.column + 1 }

def skip : Nat → Place → Place
  | 0, p => p
  | n + 1, p => skip n p.next

end Place

/-- Steps over the text that may fail. -/
abbrev Scan := StateT Place (Except Fault)

namespace Scan

def rest : Scan Text := return (← get).rest

def column : Scan Nat := return (← get).column

def peek : Scan (Option Char) := return (← get).rest.head?

def skip (n : Nat) : Scan Unit := modify (Place.skip n)

def malformed {α : Type} : Scan α := throw .malformed

/-- Takes so many characters. -/
def takeN (n : Nat) : Scan Text := do
  let t := (← rest).take n
  skip n
  return t

def takeWhile (p : Char → Bool) : Scan Text := do takeN ((← rest).takeWhile p).length

def skipWhile (p : Char → Bool) : Scan Unit := do skip ((← rest).takeWhile p).length

/-- One line break, as the text that it stands for; nothing if there is none. -/
def lineBreak : Scan Text := do
  match ← rest with
  | '\r' :: '\n' :: _ => skip 2; return ['\n']
  | c :: _ =>
    if c == '\n' || c == '\r' || c.toNat == 0x85 then do skip 1; return ['\n']
    else if isBreak c then do skip 1; return [c]
    else return []
  | [] => return []

/-- A document indicator stands here, at the beginning of a line. -/
def atSeparator : Scan Bool := do
  let t ← rest
  return (t.take 3 == ['-', '-', '-'] || t.take 3 == ['.', '.', '.']) && gapOrEnd t[3]?

/-- Skips blanks and a comment up to the end of the line, where nothing else may stand. -/
def ignoredLine : Scan Unit := do
  skipWhile (· == ' ')
  if (← peek) == some '#' then skipWhile (!isBreak ·)
  if !breakOrEnd (← peek) then malformed
  let _ ← lineBreak

end Scan

open Scan

/-! ## Directives, anchors and tags -/

/-- Bytes written as `%` and two hexadecimal digits, together the text of some code points. -/
def uriEscapes : Nat → Scan (List UInt8)
  | 0 => return []
  | budget + 1 => do
    match ← rest with
    | '%' :: a :: b :: _ =>
      if isHex a && isHex b then do
        skip 3
        return (hexValue [a, b]).toUInt8 :: (← uriEscapes budget)
      else malformed
    | '%' :: _ => malformed
    | _ => return []

def isUriChar (c : Char) : Bool :=
  c.isAlphanum ||
    ['-', ';', '/', '?', ':', '@', '&', '=', '+', '$', ',', '_', '.', '!', '~', '*', '\'', '(', ')',
      '[', ']'].contains c

def uriParts : Nat → Scan Text
  | 0 => return []
  | budget + 1 => do
    let part ← takeWhile isUriChar
    if (← peek) == some '%' then
      let bytes ← uriEscapes (← rest).length
      match Text.ofUtf8 bytes with
      | .ok t => return part ++ t ++ (← uriParts budget)
      | .error _ => malformed
    else return part

def uri : Scan Text := do
  let c ← peek
  if (match c with | some c => isUriChar c || c == '%' | none => false) then
    uriParts ((← rest).length + 1)
  else malformed

/-- A tag handle: `!`, `!!` or `!name!`. -/
def tagHandle : Scan Text := do
  let t ← rest
  if t.head? != some '!' then malformed
  if t[1]? == some ' ' then takeN 1
  else
    let word := (t.drop 1).takeWhile isWordChar
    if t[word.length + 1]? != some '!' then malformed
    takeN (word.length + 2)

def directive : Scan Directive := do
  skip 1
  let name ← takeWhile isWordChar
  if name.isEmpty || !spaceOrEnd (← peek) then malformed
  let d ←
    if name == ['Y', 'A', 'M', 'L'] then do
      skipWhile (· == ' ')
      let major ← takeWhile Char.isDigit
      let dot ← takeN 1
      let minor ← takeWhile Char.isDigit
      if major.isEmpty || dot != ['.'] || minor.isEmpty || !spaceOrEnd (← peek) then malformed
      pure (Directive.version (major.foldl (fun n c => n * 10 + (c.toNat - 48)) 0))
    else if name == ['T', 'A', 'G'] then do
      skipWhile (· == ' ')
      let handle ← tagHandle
      if (← peek) != some ' ' then malformed
      skipWhile (· == ' ')
      let target ← uri
      if !spaceOrEnd (← peek) then malformed
      pure (Directive.tag handle target)
    else do
      skipWhile (!isBreak ·)
      pure .other
  ignoredLine
  return d

/-- The name behind `&` or `*`. -/
def anchorName : Scan Text := do
  skip 1
  let name ← takeWhile isWordChar
  let ends (c : Option Char) : Bool :=
    gapOrEnd c ||
      (match c with
      | some c => ['?', ':', ',', ']', '\x7d', '%', '@', '\x60'].contains c
      | none => true)
  if name.isEmpty || !ends (← peek) then malformed
  return name

def tagProperty : Scan Token := do
  let t ← rest
  let token ←
    if t[1]? == some '<' then do
      skip 2
      let suffix ← uri
      if (← peek) != some '>' then malformed
      skip 1
      pure (Token.tag none suffix)
    else if gapOrEnd t[1]? then do
      skip 1
      pure (Token.tag none ['!'])
    else if ((t.drop 1).takeWhile fun c => c != ' ' && !isBreak c).contains '!' then do
      let handle ← tagHandle
      pure (Token.tag (some handle) (← uri))
    else do
      skip 1
      pure (Token.tag (some ['!']) (← uri))
  if !spaceOrEnd (← peek) then malformed
  return token

/-! ## Block scalars -/

/-- What happens to the line breaks at the end of a block scalar. -/
inductive Chomp where
  | strip
  | clip
  | keep
  deriving Repr, DecidableEq

def chompOf (c : Char) : Option Chomp :=
  if c == '+' then some .keep else if c == '-' then some .strip else none

/-- The indicators behind `|` or `>`: chomping and an indentation from one to nine, in any order. -/
def blockIndicators : Scan (Chomp × Option Nat) := do
  let indentation (c : Char) : Option Nat := if c.isDigit then some (c.toNat - 48) else none
  let found ←
    match ← rest with
    | c :: t =>
      match chompOf c, indentation c with
      | some chomp, _ => do
        skip 1
        match t.head?.bind indentation with
        | some n => skip 1; pure (chomp, some n)
        | none => pure (chomp, none)
      | none, some n => do
        skip 1
        match t.head?.bind chompOf with
        | some chomp => skip 1; pure (chomp, some n)
        | none => pure (Chomp.clip, some n)
      | none, none => pure (Chomp.clip, none)
    | [] => pure (Chomp.clip, none)
  if found.2 == some 0 || !spaceOrEnd (← peek) then malformed
  return found

/-- Skips spaces up to a column. -/
def skipIndent (indent : Nat) : Scan Unit := do
  let spaces := ((← rest).takeWhile (· == ' ')).length
  skip (min spaces (indent - (← column)))

/-- The breaks of empty lines before a line that is indented. -/
def blockBreaks (indent : Nat) : Nat → Scan Text
  | 0 => return []
  | budget + 1 => do
    skipIndent indent
    match ← lineBreak with
    | [] => return []
    | b => return b ++ (← blockBreaks indent budget)

/-- The breaks before the first line with content, and the deepest column that spaces reach. -/
def blockLead (deepest : Nat) : Nat → Scan (Text × Nat)
  | 0 => return ([], deepest)
  | budget + 1 => do
    if (← peek) == some ' ' then
      skip 1
      blockLead (max deepest (← column)) budget
    else
      match ← lineBreak with
      | [] => return ([], deepest)
      | b =>
        let (breaks, deepest) ← blockLead deepest budget
        return (b ++ breaks, deepest)

def isSpaceOrTab (c : Option Char) : Bool := c == some ' ' || c == some '\t'

/-- The lines of a block scalar. The breaks before the line are given; the last break and the
breaks after it are returned with the text, for chomping. -/
def blockLines (folded : Bool) (indent : Nat) (breaks : Text) : Nat → Scan (Text × Text × Text)
  | 0 => return ([], [], breaks)
  | budget + 1 => do
    if (← column) == indent && (← peek).isSome then
      let indented := isSpaceOrTab (← peek)
      let content ← takeWhile (!isBreak ·)
      let lineEnd ← lineBreak
      let later ← blockBreaks indent ((← rest).length + 1)
      if (← column) == indent && (← peek).isSome then
        let joint : Text :=
          if folded && lineEnd == ['\n'] && !indented && !isSpaceOrTab (← peek) then
            if later.isEmpty then [' '] else []
          else lineEnd
        let (text, last, tail) ← blockLines folded indent later budget
        return (breaks ++ content ++ joint ++ text, last, tail)
      else return (breaks ++ content, lineEnd, later)
    else return ([], [], breaks)

/-- A block scalar inside a block of the given indentation. -/
def blockScalar (folded : Bool) (parent : Int) : Scan Text := do
  skip 1
  let (chomp, increment) ← blockIndicators
  ignoredLine
  let least := (max (parent + 1) 1).toNat
  let budget := (← rest).length + 1
  let (breaks, indent) ←
    match increment with
    | none => do
      let (breaks, deepest) ← blockLead 0 budget
      pure (breaks, max least deepest)
    | some n => do
      let indent := least + n - 1
      pure (← blockBreaks indent budget, indent)
  let (text, last, tail) ← blockLines folded indent breaks budget
  return text ++ (if chomp == .strip then [] else last) ++ (if chomp == .keep then tail else [])

/-! ## Quoted scalars -/

def escapeOf (c : Char) : Option Char :=
  match c with
  | '0' => some (Char.ofNat 0)
  | 'a' => some (Char.ofNat 7)
  | 'b' => some (Char.ofNat 8)
  | 't' | '\t' => some '\t'
  | 'n' => some '\n'
  | 'v' => some (Char.ofNat 11)
  | 'f' => some (Char.ofNat 12)
  | 'r' => some '\r'
  | 'e' => some (Char.ofNat 27)
  | ' ' => some ' '
  | '"' => some '"'
  | '\\' => some '\\'
  | '/' => some '/'
  | 'N' => some (Char.ofNat 0x85)
  | '_' => some (Char.ofNat 0xA0)
  | 'L' => some (Char.ofNat 0x2028)
  | 'P' => some (Char.ofNat 0x2029)
  | _ => none

def escapeWidth (c : Char) : Option Nat :=
  match c with
  | 'x' => some 2
  | 'u' => some 4
  | 'U' => some 8
  | _ => none

/-- Numbers above the last code point are none. Half of a surrogate pair is one, and two halves are
two. -/
def codePoint (n : Nat) : Except Fault Nat :=
  if 0x7FFFFFFF < n then .error .codeNumber
  else if 0x10FFFF < n then .error .codePoint
  else .ok n

/-- The breaks of empty lines inside quotes; a document may not end there. -/
def quotedBreaks : Nat → Scan Text
  | 0 => return []
  | budget + 1 => do
    if ← atSeparator then malformed
    skipWhile fun c => c == ' ' || c == '\t'
    match ← lineBreak with
    | [] => return []
    | b => return b ++ (← quotedBreaks budget)

/-- What stands behind a backslash, in code points. -/
def escapeSequence : Scan (List Nat) := do
  match ← peek with
  | none => malformed
  | some c =>
    match escapeOf c, escapeWidth c with
    | some d, _ => skip 1; return [d.toNat]
    | none, some width =>
      skip 1
      let digits ← takeN width
      if digits.length < width || !digits.all isHex then malformed
      match codePoint (hexValue digits) with
      | .ok n => return [n]
      | .error fault => throw fault
    | none, none =>
      if isBreak c then do
        let _ ← lineBreak
        return Text.codes (← quotedBreaks ((← rest).length + 1))
      else malformed

/-- The code points of a quoted scalar up to its end or to white space. -/
def quotedWord (double : Bool) : Nat → Scan (List Nat)
  | 0 => return []
  | budget + 1 => do
    let part ← Text.codes <$> takeWhile fun c => c != '\'' && c != '"' && c != '\\' && !isGap c
    let andMark (c : Char) : Scan (List Nat) :=
      return part ++ c.toNat :: (← quotedWord double budget)
    match ← rest with
    | '\'' :: '\'' :: _ => do
      skip (if double then 1 else 2)
      andMark '\''
    | '\'' :: _ =>
      if double then do
        skip 1
        andMark '\''
      else return part
    | '"' :: _ =>
      if double then return part
      else do
        skip 1
        andMark '"'
    | '\\' :: _ => do
      skip 1
      if double then do
        let codes ← escapeSequence
        return part ++ codes ++ (← quotedWord double budget)
      else andMark '\\'
    | _ => return part

/-- White space inside quotes: a line break is a space, and each empty line a break. -/
def quotedGap : Scan Text := do
  let blanks ← takeWhile fun c => c == ' ' || c == '\t'
  match ← peek with
  | none => malformed
  | some c =>
    if isBreak c then
      let b ← lineBreak
      let later ← quotedBreaks ((← rest).length + 1)
      let joint : Text := if b != ['\n'] then b else if later.isEmpty then [' '] else []
      return joint ++ later
    else return blanks

def quotedParts (double : Bool) (mark : Char) : Nat → Scan (List Nat)
  | 0 => malformed
  | budget + 1 => do
    if (← peek) == some mark then
      skip 1
      return []
    let gap ← Text.codes <$> quotedGap
    let word ← quotedWord double ((← rest).length + 1)
    return gap ++ word ++ (← quotedParts double mark budget)

/-- The code points of a scalar in quotation marks. -/
def quotedScalar (double : Bool) : Scan (List Nat) := do
  skip 1
  let budget := (← rest).length + 1
  let word ← quotedWord double budget
  return word ++ (← quotedParts double (if double then '"' else '\'') budget)

/-! ## Plain scalars -/

def isFlowMark (c : Char) : Bool :=
  c == ',' || c == '[' || c == ']' || c == '\x7b' || c == '\x7d'

/-- The length of a run of plain characters. -/
def plainLength (flow : Bool) : Text → Nat
  | [] => 0
  | c :: cs =>
    if isGap c then 0
    else if c == ':' &&
        (match cs with | [] => true | d :: _ => isGap d || (flow && isFlowMark d)) then 0
    else if flow && (isFlowMark c || c == '?') then 0
    else plainLength flow cs + 1

/-- The breaks of empty lines inside a plain scalar; `none` where a document ends. -/
def plainBreaks : Nat → Scan (Option Text)
  | 0 => return some []
  | budget + 1 => do
    skipWhile (· == ' ')
    match ← lineBreak with
    | [] => return some []
    | b =>
      if ← atSeparator then return none
      return (← plainBreaks budget).map (b ++ ·)

/-- White space inside a plain scalar, and whether it has a line break. -/
def plainGap : Scan (Text × Bool) := do
  let spaces ← takeWhile (· == ' ')
  match ← lineBreak with
  | [] => return (spaces, false)
  | b =>
    if ← atSeparator then return ([], true)
    match ← plainBreaks ((← rest).length + 1) with
    | none => return ([], true)
    | some later =>
      let joint : Text := if b != ['\n'] then b else if later.isEmpty then [' '] else []
      return (joint ++ later, true)

/-- A plain scalar after some text and the white space behind it. The second result tells whether
it ended at the beginning of a line. -/
def plainParts (flow : Bool) (indent : Int) (soFar gap : Text) (broken : Bool) :
    Nat → Scan (Text × Bool)
  | 0 => return (soFar, broken)
  | budget + 1 => do
    if (← peek) == some '#' then return (soFar, broken)
    let size := plainLength flow (← rest)
    if size == 0 then return (soFar, broken)
    let part ← takeN size
    let soFar := soFar ++ gap ++ part
    let (gap, broken) ← plainGap
    if gap.isEmpty || (← peek) == some '#' || (!flow && ((← column) : Int) < indent) then
      return (soFar, broken)
    plainParts flow indent soFar gap broken budget

def plainScalar (flow : Bool) (parent : Int) : Scan (Text × Bool) := do
  plainParts flow (parent + 1) [] [] false ((← rest).length + 1)

/-! ## The scanner -/

/-- A token that is a key if a colon follows on its line: its number and its place. -/
structure Candidate where
  number : Nat
  required : Bool
  index : Nat
  line : Nat
  column : Nat
  deriving Repr, DecidableEq

structure Scanner where
  place : Place
  tokens : Array Token := #[]
  flow : Nat := 0
  indent : Int := -1
  indents : List Int := []
  keyAllowed : Bool := true
  /-- At most one candidate per flow level. -/
  candidates : List (Nat × Candidate) := []

namespace Scanner

def push (s : Scanner) (t : Token) : Scanner := { s with tokens := s.tokens.push t }

def head? (s : Scanner) : Option Char := s.place.rest.head?

def after? (s : Scanner) : Option Char := s.place.rest[1]?

def skip (s : Scanner) (n : Nat) : Scanner := { s with place := s.place.skip n }

def candidate? (s : Scanner) : Option Candidate :=
  (s.candidates.find? fun c => c.1 == s.flow).map (·.2)

def forget (s : Scanner) : Scanner :=
  { s with candidates := s.candidates.filter fun c => c.1 != s.flow }

/-- Gives up the candidate of this level, which is a fault if a key has to stand there. -/
def dropCandidate (s : Scanner) : Except Fault Scanner :=
  match s.candidate? with
  | some c => if c.required then .error .malformed else .ok s.forget
  | none => .ok s

/-- The next token may be a key. -/
def saveCandidate (s : Scanner) : Except Fault Scanner := do
  if s.keyAllowed then
    let required := s.flow == 0 && s.indent == s.place.column
    let s ← s.dropCandidate
    let c : Candidate :=
      ⟨s.tokens.size, required, s.place.index, s.place.line, s.place.column⟩
    return { s with candidates := (s.flow, c) :: s.candidates }
  else return s

/-- A key stands on one line and is not longer than 1024 characters. -/
def dropStale (s : Scanner) : Except Fault Scanner :=
  let stale (c : Candidate) : Bool := c.line != s.place.line || 1024 < s.place.index - c.index
  if s.candidates.any fun c => stale c.2 && c.2.required then .error .malformed
  else .ok { s with candidates := s.candidates.filter fun c => !stale c.2 }

/-- Ends the blocks that are indented deeper than a column. -/
def unwindFrom (column : Int) (s : Scanner) : List Int → Scanner
  | [] => s
  | outer :: indents =>
    if column < s.indent then
      unwindFrom column { (s.push .blockEnd) with indent := outer, indents := indents } indents
    else s

def unwind (s : Scanner) (column : Int) : Scanner :=
  if s.flow == 0 then unwindFrom column s s.indents else s

/-- Begins a block at a column, if it is deeper than the one around it. -/
def indentTo (s : Scanner) (column : Nat) : Option Scanner :=
  if s.indent < column then some { s with indents := s.indent :: s.indents, indent := column }
  else none

/-- Runs a step over the text. -/
def run {α : Type} (s : Scanner) (x : Scan α) : Except Fault (α × Scanner) := do
  let (a, place) ← x.run s.place
  return (a, { s with place })

/-- Skips spaces, comments and line breaks. After a line break a key may follow. -/
def skipToToken : Nat → Scanner → Scanner
  | 0, s => s
  | budget + 1, s =>
    let spaces := (s.place.rest.takeWhile (· == ' ')).length
    let s := s.skip spaces
    let comment :=
      if s.head? == some '#' then (s.place.rest.takeWhile (!isBreak ·)).length else 0
    let s := s.skip comment
    match s.place.rest with
    | c :: cs =>
      if isBreak c then
        let s := s.skip (if c == '\r' && cs.head? == some '\n' then 2 else 1)
        skipToToken budget { s with keyAllowed := s.keyAllowed || s.flow == 0 }
      else s
    | [] => s

def documentIndicator (s : Scanner) (t : Token) : Except Fault Scanner := do
  let s ← (s.unwind (-1)).dropCandidate
  return ({ s with keyAllowed := false }.skip 3).push t

def flowStart (s : Scanner) (t : Token) : Except Fault Scanner := do
  let s ← s.saveCandidate
  return ({ s with flow := s.flow + 1, keyAllowed := true }.skip 1).push t

def flowEnd (s : Scanner) (t : Token) : Except Fault Scanner := do
  let s ← s.dropCandidate
  if s.flow == 0 then .error .malformed
  else return ({ s with flow := s.flow - 1, keyAllowed := false }.skip 1).push t

def flowEntry (s : Scanner) : Except Fault Scanner := do
  let s ← { s with keyAllowed := true }.dropCandidate
  return (s.skip 1).push .flowEntry

/-- Begins a block collection here where one is due. -/
def startBlock (s : Scanner) (t : Token) : Except Fault Scanner :=
  if s.flow == 0 then
    if !s.keyAllowed then .error .malformed
    else
      match s.indentTo s.place.column with
      | some s => .ok (s.push t)
      | none => .ok s
  else .ok s

def blockEntry (s : Scanner) : Except Fault Scanner := do
  let s ← s.startBlock .blockSequenceStart
  let s ← { s with keyAllowed := true }.dropCandidate
  return (s.skip 1).push .blockEntry

def keyMark (s : Scanner) : Except Fault Scanner := do
  let s ← s.startBlock .blockMappingStart
  let s ← { s with keyAllowed := s.flow == 0 }.dropCandidate
  return (s.skip 1).push .key

/-- A colon makes the candidate of this level a key. -/
def valueMark (s : Scanner) : Except Fault Scanner := do
  match s.candidate? with
  | some c =>
    let s := s.forget
    let s :=
      { s with tokens := s.tokens.insertIdxIfInBounds c.number .key, keyAllowed := false }
    let s :=
      if s.flow == 0 then
        match s.indentTo c.column with
        | some s =>
          { s with tokens := s.tokens.insertIdxIfInBounds c.number .blockMappingStart }
        | none => s
      else s
    return (s.skip 1).push .value
  | none =>
    let s ← s.startBlock .blockMappingStart
    let s ← { s with keyAllowed := s.flow == 0 }.dropCandidate
    return (s.skip 1).push .value

/-- A token that may be a key and after which none may begin. -/
def property (s : Scanner) (x : Scan Token) : Except Fault Scanner := do
  let s ← s.saveCandidate
  let (t, s) ← { s with keyAllowed := false }.run x
  return s.push t

def blockText (s : Scanner) (folded : Bool) : Except Fault Scanner := do
  let s ← { s with keyAllowed := true }.dropCandidate
  let (t, s) ← s.run (blockScalar folded s.indent)
  return s.push (.scalar (Text.codes t) false)

def plainText (s : Scanner) : Except Fault Scanner := do
  let s ← s.saveCandidate
  let ((t, broken), s) ← s.run (plainScalar (s.flow != 0) s.indent)
  return { s with keyAllowed := broken }.push (.scalar (Text.codes t) true)

/-- A plain scalar begins with a character that indicates nothing else. -/
def beginsPlain (s : Scanner) (c : Char) : Bool :=
  let indicators : Text :=
    ['-', '?', ':', ',', '[', ']', '\x7b', '\x7d', '#', '&', '*', '!', '|', '>', '\'', '"', '%',
      '@', '\x60']
  (!isGap c && !indicators.contains c) ||
    (!gapOrEnd s.after? && (c == '-' || (s.flow == 0 && (c == '?' || c == ':'))))

def separatorHere (s : Scanner) (c : Char) : Bool :=
  s.place.column == 0 && s.place.rest.take 3 == [c, c, c] && gapOrEnd s.place.rest[3]?

/-- The next token, given its first character. -/
def token (s : Scanner) (c : Char) : Except Fault Scanner :=
  if c == '%' && s.place.column == 0 then do
    let s ← (s.unwind (-1)).dropCandidate
    let (d, s) ← { s with keyAllowed := false }.run directive
    return s.push (.directive d)
  else if c == '-' && s.separatorHere '-' then s.documentIndicator .documentStart
  else if c == '.' && s.separatorHere '.' then s.documentIndicator .documentEnd
  else if c == '[' then s.flowStart .flowSequenceStart
  else if c == '\x7b' then s.flowStart .flowMappingStart
  else if c == ']' then s.flowEnd .flowSequenceEnd
  else if c == '\x7d' then s.flowEnd .flowMappingEnd
  else if c == ',' then s.flowEntry
  else if c == '-' && gapOrEnd s.after? then s.blockEntry
  else if c == '?' && (s.flow != 0 || gapOrEnd s.after?) then s.keyMark
  else if c == ':' && (s.flow != 0 || gapOrEnd s.after?) then s.valueMark
  else if c == '*' then s.property (Token.alias <$> anchorName)
  else if c == '&' then s.property (Token.anchor <$> anchorName)
  else if c == '!' then s.property tagProperty
  else if c == '|' && s.flow == 0 then s.blockText false
  else if c == '>' && s.flow == 0 then s.blockText true
  else if c == '\'' then s.property ((Token.scalar · false) <$> quotedScalar false)
  else if c == '"' then s.property ((Token.scalar · false) <$> quotedScalar true)
  else if s.beginsPlain c then s.plainText
  else .error .malformed

/-- Reads tokens to the end; every token takes at least one character. -/
def loop : Nat → Scanner → Array Token × Option Fault
  | 0, s => (s.tokens, some .malformed)
  | budget + 1, s =>
    let s := skipToToken (s.place.rest.length + 1) s
    match s.dropStale with
    | .error fault => (s.tokens, some fault)
    | .ok s =>
      let s := s.unwind s.place.column
      match s.head? with
      | none =>
        let s := s.unwind (-1)
        match s.dropCandidate with
        | .ok s => (s.tokens, none)
        | .error fault => (s.tokens, some fault)
      | some c =>
        match s.token c with
        | .ok s => loop budget s
        | .error fault => (s.tokens, some fault)

end Scanner

/-- The tokens of a text, and the fault that ended them, if one did. -/
def scan (t : Text) : List Token × Option Fault :=
  if !t.all isAllowed then ([], some .malformed)
  else
    let start : Scanner := { place := { rest := t } }
    let start := if t.head? == some (Char.ofNat 0xFEFF) then start.skip 1 else start
    let (tokens, fault) := start.loop (t.length + 1)
    (tokens.toList, fault)

end Notemark.Yaml
