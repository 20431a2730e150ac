import Notemark.Text.Search

/-!
# Lookahead

A scanner asks two questions about the text ahead of an offset. This module holds

* `Lookahead`: the two questions, for any monad that can answer them,
* `braceDistance`: the plain answer to the second one,
* `Memo`: answers that are kept, so that text already searched is not searched again,
* the instances for `Id`, which searches afresh each time, and for `Memoised`.
-/

namespace Notemark.Body

/-- The questions of a scanner; the text given with an offset is the text that starts there. -/
class Lookahead (m : Type → Type) where
  /-- How many characters stand before the next occurrence of a character. -/
  ahead : Char → Nat → Text → m (Option Nat)
  /-- How many characters stand before the brace that closes the one at the start, on its line. -/
  braceAhead : Nat → Text → m (Option Nat)

/-- A scanner that can give up asks as one that cannot. -/
instance {ε : Type} {m : Type → Type} [Monad m] [Lookahead m] : Lookahead (ExceptT ε m) where
  ahead c start t := ExceptT.lift (Lookahead.ahead c start t)
  braceAhead start t := ExceptT.lift (Lookahead.braceAhead start t)

/-! ## Searching afresh -/

/-- How many characters stand before the brace that brings the depth back to zero on this line. -/
def braceDistance (depth : Nat) : Text → Option Nat
  | [] => none
  | c :: cs =>
    if c = '\n' then none
    else if c = '{' then (braceDistance (depth + 1) cs).map (· + 1)
    else if c = '}' then
      if depth ≤ 1 then some 0 else (braceDistance (depth - 1) cs).map (· + 1)
    else (braceDistance depth cs).map (· + 1)

instance : Lookahead Id where
  ahead c _ t := Text.distance c t
  braceAhead _ t := braceDistance 0 t

/-! ## Remembered answers -/

/-- The last search for a character: where it began and what it found. -/
structure Search where
  char : Char
  since : Nat
  hit : Option Nat
  deriving Repr, DecidableEq

/-- What has been found so far: one search per character, the brace pairs of the lines looked at,
and the offset up to which braces have been paired. -/
structure Memo where
  searches : List Search := []
  braces : List (Nat × Nat) := []
  paired : Nat := 0
  deriving Repr, DecidableEq

namespace Memo

def search? (memo : Memo) (c : Char) : Option Search := memo.searches.find? fun s => s.char == c

/-- A kept search answers every question asked between its start and its hit. -/
def answers (s : Search) (start : Nat) : Bool :=
  s.since ≤ start && (match s.hit with | none => true | some hit => start ≤ hit)

def record (memo : Memo) (s : Search) : Memo :=
  { memo with searches := s :: memo.searches.filter fun old => old.char != s.char }

/-- The offset of the next `c`, searched for only if no kept search answers. -/
def find (memo : Memo) (c : Char) (start : Nat) (t : Text) : Option Nat × Memo :=
  let afresh :=
    let hit := (Text.distance c t).map (start + ·)
    (hit, memo.record ⟨c, start, hit⟩)
  match memo.search? c with
  | some s => if answers s start then (s.hit, memo) else afresh
  | none => afresh

/-- Pairs the braces of a line, innermost first; a closing brace without a partner is passed
over. -/
def pairBraces (offset : Nat) (opened : List Nat) : Text → List (Nat × Nat)
  | [] => []
  | c :: cs =>
    if c = '{' then pairBraces (offset + 1) (offset :: opened) cs
    else if c = '}' then
      match opened with
      | [] => pairBraces (offset + 1) [] cs
      | o :: os => (o, offset) :: pairBraces (offset + 1) os cs
    else pairBraces (offset + 1) opened cs

/-- Pairs the braces from `start` to the end of its line, unless that was done before. -/
def pairLine (memo : Memo) (start : Nat) (t : Text) : Memo :=
  if memo.paired ≤ start then
    let (hit, memo) := memo.find '\n' start t
    let size := match hit with | some hit => hit - start | none => t.length
    { memo with
      braces := pairBraces start [] (t.take size) ++ memo.braces
      paired := start + size }
  else memo

def closing? (memo : Memo) (start : Nat) : Option Nat :=
  (memo.braces.find? fun pair => pair.1 == start).map (·.2)

end Memo

/-- Scanning with remembered answers. -/
abbrev Memoised := StateM Memo

instance : Lookahead Memoised where
  ahead c start t := fun memo =>
    let (hit, memo) := memo.find c start t
    (hit.map (· - start), memo)
  braceAhead start t := fun memo =>
    let memo := memo.pairLine start t
    ((memo.closing? start).map (· - start), memo)

end Notemark.Body
