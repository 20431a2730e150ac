import Notemark.Body.Scanner
import Notemark.Log

/-!
# From text to tokens

The scanners go through a body from left to right, one construct after the other.

* `Scan`: the state between two rounds,
* `Scan.round`, `Scan.rounds`, `Scan.finish`: the loop,
* `scan`: the tokens of a body with the number of markers that were dropped, `tokenize`: the
  tokens alone,
* `scanNotes`: what there is to say about it.
-/

namespace Notemark.Body

/-- Plain text that has been read and not yet made a token. -/
def flush (pending : Text) : List Token := if pending.isEmpty then [] else [.text pending]

/-- The state of the loop: the text from the cursor on, the answers that are remembered, the tokens
emitted and the plain text that is not yet a token, what came last in front, the open tags, and how
many markers were dropped. -/
structure Scan where
  cursor : Cursor := {}
  rest : Text
  memo : Memo := {}
  emitted : List Token := []
  held : Text := []
  stack : TagStack Container := []
  dropped : Nat := 0

namespace Scan

def start (content : Text) : Scan := { rest := content }

/-- The tokens so far, in order. -/
def tokens (s : Scan) : List Token := s.emitted.reverse

/-- The plain text that waits for more of it. -/
def pending (s : Scan) : Text := s.held.reverse

/-- What is taken at the cursor, or the fault for which the scan gives up, and what is remembered
afterwards. -/
def look (mode : Mode) (map : SourceMap) (s : Scan) : Except ScanError Taken × Memo :=
  (scanAt mode map s.stack s.cursor s.rest : ExceptT ScanError Memoised Taken).run.run s.memo

/-- The state behind what is taken: neighbouring plain runs become one text token. -/
def behind (s : Scan) (taken : Taken) (memo : Memo) : Scan :=
  let next : Scan :=
    { s with
      cursor := s.cursor.advance (s.rest.take taken.size)
      rest := s.rest.drop taken.size
      memo
      stack := taken.stack }
  match taken.output with
  | .token token => { next with emitted := token :: (flush s.pending ++ s.emitted), held := [] }
  | .plain run => { next with held := run.reverse ++ s.held }
  | .dropped => { next with dropped := s.dropped + 1 }

/-- One round: what stands at the cursor is taken. -/
def round (mode : Mode) (map : SourceMap) (s : Scan) : Except ScanError Scan :=
  match s.look mode map with
  | (.ok taken, memo) => .ok (s.behind taken memo)
  | (.error e, _) => .error e

/-- So many rounds, or fewer if the text ends. -/
def rounds (mode : Mode) (map : SourceMap) : Nat → Scan → Except ScanError Scan
  | 0, s => .ok s
  | n + 1, s => if s.rest = [] then .ok s else do rounds mode map n (← s.round mode map)

/-- The end of the text: in strict mode nothing may be open. -/
def finish (mode : Mode) (s : Scan) : Except ScanError (List Token) := do
  mode.demand s.stack.finish
  return s.tokens ++ (flush s.pending ++ [.eof])

end Scan

/-- The tokens of a body, and how many markers were dropped. Every round takes something, so there
are never more rounds than characters. -/
def scan (mode : Mode) (body : Text) : Except ScanError (List Token × Nat) := do
  let content := Text.joinLines body
  let s ← (Scan.start content).rounds mode (SourceMap.ofText content) content.length
  return (← s.finish mode, s.dropped)

/-- The tokens of a body. Lenient mode takes every body; strict mode gives up at the first construct
that breaks a rule. -/
def tokenize (mode : Mode) (body : Text) : Except ScanError (List Token) :=
  (scan mode body).map (·.1)

/-! ## Notes -/

/-- What there is to say about a body that was scanned: the markers without an id, which lenient
mode drops, and the sizes. -/
def scanNotes (body : Text) (tokens : List Token) (dropped : Nat) : List Note :=
  List.replicate dropped (.trace 2 "Dropping empty \x7b#\x7d marker") ++
    [.trace 3
      s!"Tokenized {(Text.joinLines body).length} characters into {tokens.length} tokens"]

end Notemark.Body
