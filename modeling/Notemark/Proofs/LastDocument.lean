import Mathlib.Data.List.Induction
import Notemark.Document.Session
import Notemark.Proofs.Runs

/-!
# The last good document

A session answers one request after the other:

* `Request`, `Session.after`, `Session.run`: requests and what they do to a session,
* `Request.document?`: the document that a request brings,
* `Session.last_run`: one more request changes the last document in one of three ways,
* `ShowsMessage`, `errorBox_shows`: what a box with a message shows,
* `session_keeps_last_document`: after any requests the last document is the one that was brought
  last since it was cleared, and every answer agrees with it.
-/

namespace Notemark.Document

open Body (Mode)

section Requests

variable [CallStack]

/-- What a session is asked for. -/
inductive Request where
  | compile (note : Text) (useLast : Bool)
  | get
  | set (document : Value)
  | clear

/-- The document that a request brings, in a session of some settings and mode. -/
def Request.document? (settings : Settings) (mode : Mode) : Request → Option Value
  | .compile note _ => ((Session.build { settings, mode } note).outcome).toOption
  | .set document => some document
  | .get | .clear => none

namespace Session

/-- The session after a request. A compilation whose failure goes through leaves it as it is. -/
def after (s : Session) : Request → Session
  | .compile note useLast =>
    match (s.compile note useLast).outcome with
    | .ok (_, s') => s'
    | .error _ => s
  | .get => s
  | .set document => s.set document
  | .clear => s.clear

def run (s : Session) (requests : List Request) : Session := requests.foldl after s

theorem run_snoc (s : Session) (requests : List Request) (r : Request) :
    s.run (requests ++ [r]) = (s.run requests).after r := by
  rw [run, List.foldl_append]
  rfl

variable {s : Session} {note : Text} {useLast : Bool}

/-! ## One compilation -/

theorem outcome_compile_ok {document : Value} (h : (s.build note).outcome = .ok document) :
    (s.compile note useLast).outcome =
      .ok ({ success := true, data := document }, { s with last := some document }) := by
  rw [compile, Run.outcome_tryCatch, Run.outcome_bind, h]
  rfl

theorem outcome_compile_escaped {f : Failure} (h : (s.build note).outcome = .error f)
    (hf : f.isReported = false) : (s.compile note useLast).outcome = .error f := by
  rw [compile, Run.outcome_tryCatch, Run.outcome_bind, h]
  change Run.outcome (if f.isReported = true then _ else throw f) = _
  rw [if_neg (by simp [hf])]
  rfl

/-- The answer to a failure that is reported. -/
def failed (s : Session) (useLast : Bool) (problem : Problem) : Answer :=
  match if useLast then s.last else none with
  | some last => { success := false, data := last, problem := some problem, stale := true }
  | none =>
    { success := false, data := errorBox s.settings problem.message, problem := some problem }

theorem outcome_compile_reported {f : Failure} (h : (s.build note).outcome = .error f)
    (hf : f.isReported = true) :
    (s.compile note useLast).outcome = .ok (s.failed useLast (.ofFailure f), s) := by
  have hstandIn : (s.standIn useLast (.ofFailure f)).outcome =
      .ok (s.failed useLast (.ofFailure f)) := by
    rw [standIn, failed, Run.outcome_bind]
    cases (if useLast then s.last else none) with
    | some last => rfl
    | none => rfl
  rw [compile, Run.outcome_tryCatch, Run.outcome_bind, h]
  change Run.outcome (if f.isReported = true then _ else throw f) = _
  rw [if_pos hf, Run.outcome_bind, hstandIn]
  rfl

/-! ## One request -/

/-- What a compilation leaves behind and what it answers, by what becomes of the note. -/
theorem compile_cases (s : Session) (note : Text) (useLast : Bool) :
    (∃ document, (s.build note).outcome = .ok document ∧
      (s.compile note useLast).outcome =
        .ok ({ success := true, data := document }, { s with last := some document })) ∨
    (∃ f, (s.build note).outcome = .error f ∧ f.isReported = true ∧
      (s.compile note useLast).outcome = .ok (s.failed useLast (.ofFailure f), s)) ∨
    ∃ f, (s.build note).outcome = .error f ∧ f.isReported = false ∧
      (s.compile note useLast).outcome = .error f := by
  cases hbuild : (s.build note).outcome with
  | ok document => exact Or.inl ⟨document, rfl, outcome_compile_ok hbuild⟩
  | error f =>
    cases hf : f.isReported with
    | true => exact Or.inr (Or.inl ⟨f, rfl, hf, outcome_compile_reported hbuild hf⟩)
    | false => exact Or.inr (Or.inr ⟨f, rfl, hf, outcome_compile_escaped hbuild hf⟩)

/-- The last document plays no part in what becomes of a note. -/
theorem document?_compile (s : Session) (note : Text) (useLast : Bool) :
    (Request.compile note useLast).document? s.settings s.mode = (s.build note).outcome.toOption :=
  rfl

/-- A request brings a document, clears the last one, or changes nothing. -/
theorem after_eq (s : Session) (r : Request) :
    s.after r = { s with last :=
      match r with
      | .clear => none
      | r => (r.document? s.settings s.mode).or s.last } := by
  cases r with
  | compile note useLast =>
    dsimp only
    rw [document?_compile]
    unfold after
    dsimp only
    rcases s.compile_cases note useLast with ⟨d, hbuild, hcompile⟩ | ⟨f, hbuild, -, hcompile⟩ |
      ⟨f, hbuild, -, hcompile⟩
    · rw [hcompile, hbuild]
      rfl
    · rw [hcompile, hbuild]
      rfl
    · rw [hcompile, hbuild]
      rfl
  | get => rfl
  | set document => rfl
  | clear => rfl

/-! ## All requests -/

theorem run_eq (s : Session) (requests : List Request) :
    (s.run requests).settings = s.settings ∧ (s.run requests).mode = s.mode := by
  induction requests using List.reverseRecOn with
  | nil => exact ⟨rfl, rfl⟩
  | append_singleton requests r ih =>
    rw [run_snoc, after_eq]
    exact ih

/-- A document was brought by a request, and no later one brought another or cleared it. -/
def Brought (settings : Settings) (mode : Mode) (requests : List Request) (d : Value) : Prop :=
  ∃ before r later, requests = before ++ r :: later ∧ r.document? settings mode = some d ∧
    ∀ q ∈ later, q ≠ .clear ∧ q.document? settings mode = none

section Bringing

variable {settings : Settings} {mode : Mode} {requests : List Request} {d : Value}

theorem not_brought_nil : ¬ Brought settings mode [] d := by
  rintro ⟨before, r, later, heq, -⟩
  simp at heq

/-- One request more brings a document itself, or keeps the one that was brought before. -/
theorem brought_snoc (r : Request) :
    Brought settings mode (requests ++ [r]) d ↔
      r.document? settings mode = some d ∨
        r ≠ .clear ∧ r.document? settings mode = none ∧ Brought settings mode requests d := by
  constructor
  · rintro ⟨before, q, later, heq, hq, hlater⟩
    -- The request that brought it is the last one, or comes before the last one.
    rcases List.eq_nil_or_concat later with rfl | ⟨later, x, rfl⟩
    · have hlast := (List.append_inj' heq rfl).2
      exact Or.inl ((List.singleton_inj.mp hlast).symm ▸ hq)
    · have hsplit : requests ++ [r] = (before ++ q :: later) ++ [x] := by simp [heq]
      rcases List.append_inj' hsplit rfl with ⟨hrequests, hlast⟩
      obtain rfl := List.singleton_inj.mp hlast
      rcases hlater r (by simp) with ⟨hclear, hnone⟩
      refine Or.inr ⟨hclear, hnone, before, q, later, hrequests, hq, ?_⟩
      intro p hp
      exact hlater p (by simp [hp])
  · rintro (hd | ⟨hclear, hnone, before, q, later, rfl, hq, hlater⟩)
    · exact ⟨requests, r, [], rfl, hd, by simp⟩
    · refine ⟨before, q, later ++ [r], by simp, hq, ?_⟩
      intro p hp
      rcases List.mem_append.mp hp with hp | hp
      · exact hlater p hp
      · rw [List.mem_singleton.mp hp]
        exact ⟨hclear, hnone⟩

end Bringing

/-- The last document of a session is the one that was brought last. -/
theorem last_run (settings : Settings) (mode : Mode) (requests : List Request) (d : Value) :
    (run { settings, mode } requests).last = some d ↔ Brought settings mode requests d := by
  induction requests using List.reverseRecOn with
  | nil => exact iff_of_false (by simp [run]) not_brought_nil
  | append_singleton requests r ih =>
    rcases run_eq { settings, mode } requests with ⟨hsettings, hmode⟩
    rw [run_snoc, after_eq, brought_snoc, ← ih, hsettings, hmode]
    cases r with
    | clear => simp [Request.document?]
    | get => simp [Request.document?]
    | set document => simp [Request.document?]
    | compile note useLast =>
      dsimp only
      cases (Request.compile note useLast).document? settings mode with
      | some document => simp
      | none => simp

end Session

end Requests

/-! ## Answers -/

/-- A document that shows a message in a box: its only element is a `div` of two paragraphs, a
heading and one whose content is the message and nothing else. -/
structure ShowsMessage (settings : Settings) (document : Value) (message : String) : Prop where
  version : document.get? "version" = some (.str settings.documentVersion)
  box : ∃ box heading paragraph, document.get? "elements" = some (.list [box]) ∧
    box.get? "type" = some (.str "div") ∧
    box.get? "elements" = some (.list [heading, paragraph]) ∧
    heading.get? "type" = some (.str "p") ∧
    heading.get? "content" = some (.list [.str "⚠️ Syntax Error"]) ∧
    paragraph.get? "type" = some (.str "p") ∧
    paragraph.get? "content" = some (.list [.str message])

theorem errorBox_shows (settings : Settings) (message : String) :
    ShowsMessage settings (errorBox settings message) message where
  version := rfl
  box := ⟨_, _, _, rfl, rfl, rfl, rfl, rfl, rfl, rfl⟩

/-- The answer to a note, and the session after it, given what the work on the note comes to. -/
structure Answered (s : Session) (useLast : Bool) (built : Except Failure Value) (answer : Answer)
    (s' : Session) : Prop where
  success : answer.success = true → built = .ok answer.data ∧
    s' = { s with last := some answer.data } ∧ answer.problem = none ∧ answer.stale = false
  failure : answer.success = false → s' = s ∧ ∃ f, built = .error f ∧ f.isReported = true ∧
    answer.problem = some (.ofFailure f) ∧
    (answer.stale = true ↔ useLast = true ∧ s.last ≠ none) ∧
    (answer.stale = true → s.last = some answer.data) ∧
    (answer.stale = false → ShowsMessage s.settings answer.data (Problem.ofFailure f).message)

theorem answered_success (s : Session) (useLast : Bool) (document : Value) :
    Answered s useLast (.ok document) { success := true, data := document }
      { s with last := some document } where
  success _ := ⟨rfl, rfl, rfl, rfl⟩
  failure h := by simp at h

theorem answered_failed (s : Session) (useLast : Bool) {f : Failure} (hf : f.isReported = true) :
    Answered s useLast (.error f) (s.failed useLast (.ofFailure f)) s where
  success h := by
    unfold Session.failed at h
    split at h
    · simp at h
    · simp at h
  failure _ := by
    refine ⟨rfl, f, rfl, hf, ?_⟩
    have hbox := errorBox_shows s.settings (Problem.ofFailure f).message
    unfold Session.failed
    cases useLast with
    | false => simpa using hbox
    | true =>
      cases hlast : s.last with
      | none => simpa using hbox
      | some last => simp

/-- After any requests the last document is the one that was brought last, and not cleared since. A
failure of any sort leaves the session as it is; one that is reported is answered with the last
document, if there is one and it is wanted, and with a box that shows its message otherwise. -/
theorem session_keeps_last_document [CallStack] (settings : Settings) (mode : Mode)
    (requests : List Request) :
    let s := Session.run { settings, mode } requests
    (∀ d, s.last = some d ↔ Session.Brought settings mode requests d) ∧
    ∀ note useLast,
      let built := (Session.build { settings, mode } note).outcome
      (∀ answer s', (s.compile note useLast).outcome = .ok (answer, s') →
        s.after (.compile note useLast) = s' ∧ Answered s useLast built answer s') ∧
      ∀ f, (s.compile note useLast).outcome = .error f →
        s.after (.compile note useLast) = s ∧ built = .error f ∧ f.isReported = false := by
  intro s
  refine ⟨Session.last_run settings mode requests, ?_⟩
  intro note useLast built
  -- No request changes the settings, so the note comes to what it would come to at the start.
  have hbuilt : built = (s.build note).outcome := by
    rcases Session.run_eq { settings, mode } requests with ⟨hsettings, hmode⟩
    rw [Session.build, hsettings, hmode]
    rfl
  rw [hbuilt]
  rcases s.compile_cases note useLast with ⟨d, hbuild, hcompile⟩ | ⟨f, hbuild, hf, hcompile⟩ |
    ⟨f, hbuild, hf, hcompile⟩
  · rw [hcompile, hbuild]
    refine ⟨?_, by simp⟩
    rintro answer s' heq
    obtain ⟨rfl, rfl⟩ := Prod.mk.inj (Except.ok.inj heq)
    exact ⟨by simp [Session.after, hcompile], answered_success s useLast d⟩
  · rw [hcompile, hbuild]
    refine ⟨?_, by simp⟩
    rintro answer s' heq
    obtain ⟨rfl, rfl⟩ := Prod.mk.inj (Except.ok.inj heq)
    exact ⟨by simp [Session.after, hcompile], answered_failed s useLast hf⟩
  · rw [hcompile, hbuild]
    refine ⟨by simp, ?_⟩
    rintro f' hescaped
    obtain rfl := Except.error.inj hescaped
    exact ⟨by simp [Session.after, hcompile], rfl, hf⟩

section Stale

open scoped CallStack.Standard

/-- A box that is never closed comes after a paragraph: the paragraph is still shown, unless the
last document is not wanted. Then the answer shows what is wrong. -/
theorem session_keeps_last_document_stale :
    (Session.run {} [.compile ['a'] true]).last = some (.object
      [("version", .str "1.1.0"),
        ("elements", .list [.object [("type", .str "p"), ("content", .strings ["a"])]])]) ∧
    (∃ answer s',
      ((Session.run {} [.compile ['a'] true]).compile ['[', 'd', 'i', 'v', ']'] true).outcome =
        .ok (answer, s') ∧
      answer.success = false ∧ s' = Session.run {} [.compile ['a'] true] ∧ answer.stale = true ∧
      (Session.run {} [.compile ['a'] true]).last = some answer.data) ∧
    ∃ answer s' problem,
      ((Session.run {} [.compile ['a'] true]).compile ['[', 'd', 'i', 'v', ']'] false).outcome =
        .ok (answer, s') ∧
      answer.problem = some problem ∧ ShowsMessage {} answer.data problem.message := by
  rcases session_keeps_last_document {} .strict [.compile ['a'] true] with ⟨hlast, hanswers⟩
  refine ⟨(hlast _).mpr ⟨[], _, [], rfl, rfl, by simp⟩, ⟨_, _, rfl, rfl, ?_⟩, ?_⟩
  · rcases ((hanswers ['[', 'd', 'i', 'v', ']'] true).1 _ _ rfl).2.failure rfl with
      ⟨hsame, f, -, -, -, -, hdata, -⟩
    exact ⟨hsame, rfl, hdata rfl⟩
  · rcases ((hanswers ['[', 'd', 'i', 'v', ']'] false).1 _ _ rfl).2.failure rfl with
      ⟨-, f, -, -, hproblem, -, -, hshows⟩
    exact ⟨_, _, _, rfl, hproblem, hshows rfl⟩

end Stale

end Notemark.Document
