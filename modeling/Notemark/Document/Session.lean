import Notemark.Document.Compile

/-!
# Compiling while a note is written

A session compiles a note again and again and keeps the last document that came out well.

* `Session`: settings, mode and the last good document,
* `Problem`: what is reported of a failure,
* `Answer`: what a compilation gives to show,
* `Session.compile`: the last good document, or a box with the message, stands in for a note that
  fails. Failures of arithmetic and of missing parts are not reported: they go through.
-/

namespace Notemark.Document

structure Session where
  settings : Settings := {}
  mode : Body.Mode := .strict
  last : Option Value := none

/-- The part of the work that a failure comes from. -/
inductive Phase where
  | tokenization
  | validation
  | unknown
  deriving Repr, DecidableEq

def Phase.text : Phase → String
  | tokenization => "tokenization"
  | validation => "validation"
  | unknown => "unknown"

structure Problem where
  phase : Phase
  message : String
  /-- The broken rule and its place in the body. -/
  detail : Option (Body.Fault × Body.Position) := none
  deriving Repr, DecidableEq

structure Answer where
  success : Bool
  /-- The document to show. -/
  data : Value
  problem : Option Problem := none
  /-- The document is one of before. -/
  stale : Bool := false

/-- What is reported of a failure. -/
def Problem.ofFailure : Failure → Problem
  | .scan e => ⟨.tokenization, e.fault.message, some (e.fault, e.position)⟩
  | .schema issues => ⟨.validation, Schema.issuesSummary issues, none⟩
  | f => ⟨.unknown, if f.text = "" then "Compilation failed" else f.text, none⟩

/-- Whether a session reports a failure instead of letting it through. -/
def Failure.isReported : Failure → Bool
  | scan _ | schema _ => true
  | tree _ => false
  | header f => f.kind.isReported
  | style f => f.kind.isReported
  | pipe f => f.kind.isReported
  | report f => f.kind.isReported

variable [CallStack]

/-- The document of a note; if the settings ask for it, it has to satisfy the schema. -/
def Session.build (s : Session) (note : Text) : Run Failure Value := do
  let document ← Document.build s.settings s.mode note
  if s.settings.validateOutput then
    match Schema.documentIssues document with
    | [] => return document
    | issues => throw (.schema issues)
  else return document

/-- A box with a message. -/
def errorBox (settings : Settings) (message : String) : Value :=
  .object
    [("version", .str settings.documentVersion),
      ("elements", .list
        [.object
          [("type", .str "div"),
            ("style", .object
              [("padding", .str "1rem"), ("backgroundColor", .str "rgb(254,202,202)"),
                ("borderRadius", .str "0.25rem"), ("borderWidth", .str "1px"),
                ("borderColor", .str "rgb(239,68,68)")]),
            ("elements", .list
              [.object
                [("type", .str "p"), ("content", .strings ["⚠️ Syntax Error"]),
                  ("style", .object
                    [("fontWeight", .int 700), ("color", .str "rgb(127,29,29)"),
                      ("marginBottom", .str "0.5rem")])],
                .object
                  [("type", .str "p"), ("content", .strings [message]),
                    ("style", .object
                      [("fontSize", .str "0.875rem"), ("color", .str "rgb(153,27,27)")])]])]])]

namespace Session

/-- What stands in for a note that fails. -/
def standIn (s : Session) (useLast : Bool) (problem : Problem) : Run Failure Answer := do
  Run.trace 2 s!"Safe compile failed in {problem.phase.text}: {problem.message}"
  match if useLast then s.last else none with
  | some last => return { success := false, data := last, problem := some problem, stale := true }
  | none =>
    Run.warning s!"No valid document to fall back on: {problem.message}"
    let box := errorBox s.settings problem.message
    return { success := false, data := box, problem := some problem }

/-- Compiles a note. A document that comes out well is the last good one from then on; a failure
leaves the session as it is. -/
def compile (s : Session) (note : Text) (useLast : Bool) : Run Failure (Answer × Session) :=
  tryCatch
    (do
      let document ← s.build note
      return ({ success := true, data := document }, { s with last := some document }))
    fun failure =>
      if failure.isReported then do
        return (← s.standIn useLast (.ofFailure failure), s)
      else throw failure

def set (s : Session) (document : Value) : Session := { s with last := some document }

def clear (s : Session) : Session := { s with last := none }

end Session

end Notemark.Document
