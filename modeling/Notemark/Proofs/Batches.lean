import Mathlib.Data.List.Forall2
import Notemark.Batch.Stage
import Notemark.Proofs.Runs

/-!
# Batches

What becomes of a source does not depend on the others, as long as the batch gets to it. Unreadable
sources and breaches of the notation are recorded; any other failure ends the batch.

* `sourceText`: the text that a source is compiled to, or the cause that there is none,
* `Cause.fate`: what the cause of a failure does, which is a record or the end of the batch,
* `compileSource_spec`: what one source comes to,
* `compileAll_recorded`, `compileAll_stopped`: all sources, and those up to the first that ends the
  batch,
* `sources_independent_iff`: every source comes out as it does alone exactly if none ends the batch.
-/

namespace Notemark.Batch

open Files (Path)

/-! ## One source -/

/-- The files that were written, in order. -/
def writings (events : List Event) : List (String × String) :=
  events.filterMap fun e => match e with | .wrote name text => some (name, text) | _ => none

@[simp] theorem writings_append (es es' : List Event) :
    writings (es ++ es') = writings es ++ writings es' :=
  List.filterMap_append

@[simp] theorem writings_notes (ns : List Note) : writings (ns.map .note) = [] := by
  simp [writings]

/-- Why there is no text for a source. -/
inductive Cause where
  | unreadable (reason : String)
  | document (f : Document.Failure)
  | json (f : JsonFault)
  /-- The text has no form in bytes. -/
  | encoding

/-- What the cause of a failure does: it is recorded, or it ends the batch. -/
def Cause.fate : Cause → Except Stop Trouble
  | unreadable reason => .ok (.unreadable reason)
  | document (.scan e) => .ok (.scan e)
  | document f => .error (.document f)
  | json f => .error (.json f)
  | encoding => .error .encoding

/-- What is written without a text: the file is opened before its text is put into bytes. -/
def Cause.written (name : String) : Cause → List (String × String)
  | encoding => [(name, "")]
  | _ => []

/-- Nothing is written for a recorded failure. -/
theorem Cause.written_of_fate {c : Cause} {trouble : Trouble} (h : c.fate = .ok trouble)
    (name : String) : c.written name = [] := by
  cases c with
  | encoding => simp [fate] at h
  | _ => rfl

theorem exists_of_forall₂ {α β : Type} {R : α → β → Prop} {l : List α} {m : List β}
    (h : List.Forall₂ R l m) : ∀ a ∈ l, ∃ b, R a b := by
  induction h with
  | nil => simp
  | cons hr _ ih => exact List.forall_mem_cons.mpr ⟨⟨_, hr⟩, ih⟩

theorem outcome_ofRun_bind {ε α β : Type} (run : Run ε α) (f : Except ε α → Job β) :
    (Job.ofRun run >>= f).outcome = (f run.outcome).outcome := by
  rw [Job.outcome_bind, Job.outcome_ofRun]
  rfl

/-- The events of a run that is part of a job are notes. -/
theorem writings_ofRun_bind {ε α β : Type} (run : Run ε α) (f : Except ε α → Job β) :
    writings (Job.ofRun run >>= f).events = writings (f run.outcome).events := by
  have hevents : (Job.ofRun run).events = run.notes.map .note := by
    simp [Job.ofRun, Job.events_bind]
  rw [Job.events_bind, Job.outcome_ofRun, writings_append, hevents, writings_notes,
    List.nil_append]

section Compiled

variable [CallStack]

/-- What a note comes to in a batch. -/
def noteOutcome (s : State) (note : Text) : Except Document.Failure Value :=
  (Document.compile
    { s.settings with validateOutput := s.options.validate || s.settings.validateOutput }
    (if s.options.lenient then .lenient else .strict) note).outcome

/-- The text that a note is compiled to. -/
def noteText (s : State) (note : Text) : Except Cause String := do
  let document ← (noteOutcome s note).mapError Cause.document
  let text ← (document.json (documentFormat s.settings)).mapError Cause.json
  if document.isStorable then return text ++ "\n" else throw .encoding

/-- The text that a source is compiled to. -/
def sourceText (s : State) (p : Path) : Except Cause String :=
  (readSource s p).mapError Cause.unreadable >>= noteText s

/-- The record of a source. -/
def recordOf (s : State) (p : Path) (trouble : Option Trouble) : Record :=
  { input := s.inputPath p, output := s.outputPath p, trouble }

/-- What one source comes to: with a text, it is recorded as compiled and the text is written;
without one, the cause tells the rest. -/
theorem compileSource_spec (s : State) (p : Path) :
    (∃ text, sourceText s p = .ok text ∧
      (compileSource s p).outcome = .ok (recordOf s p none) ∧
      writings (compileSource s p).events = [(s.outputFile p, text)]) ∨
    ∃ cause, sourceText s p = .error cause ∧
      (compileSource s p).outcome =
        cause.fate.map (fun trouble => recordOf s p (some trouble)) ∧
      writings (compileSource s p).events = cause.written (s.outputFile p) := by
  unfold compileSource sourceText
  cases readSource s p with
  | error reason => exact Or.inr ⟨.unreadable reason, rfl, rfl, rfl⟩
  | ok note =>
    -- What is noted on the way is no writing, so only the outcome of the note counts.
    dsimp only
    rw [outcome_ofRun_bind, writings_ofRun_bind, ← noteOutcome]
    change (∃ text, noteText s note = .ok text ∧ _) ∨ ∃ cause, noteText s note = .error cause ∧ _
    rw [noteText]
    cases noteOutcome s note with
    | error f =>
      cases f with
      | scan e => exact Or.inr ⟨.document (.scan e), rfl, rfl, rfl⟩
      | _ => exact Or.inr ⟨.document _, rfl, rfl, rfl⟩
    | ok document =>
      change
        (∃ text, ((document.json (documentFormat s.settings)).mapError Cause.json >>= _) = _ ∧ _) ∨
        ∃ cause, ((document.json (documentFormat s.settings)).mapError Cause.json >>= _) = _ ∧ _
      dsimp only
      cases document.json (documentFormat s.settings) with
      | error f => exact Or.inr ⟨.json f, rfl, rfl, rfl⟩
      | ok text =>
        simp only [store]
        cases document.isStorable with
        | true => exact Or.inl ⟨text ++ "\n", rfl, rfl, rfl⟩
        | false => exact Or.inr ⟨.encoding, rfl, rfl, rfl⟩

/-- A source with a text is recorded as compiled, and its text is written to its file. -/
theorem compiled_of_sourceText {s : State} {p : Path} {text : String}
    (h : sourceText s p = .ok text) :
    (compileSource s p).outcome = .ok (recordOf s p none) ∧
      writings (compileSource s p).events = [(s.outputFile p, text)] := by
  rcases compileSource_spec s p with ⟨text', htext, hrecord, hwritings⟩ | ⟨cause, htext, -, -⟩
  · rw [Except.ok.inj (h.symm.trans htext)]
    exact ⟨hrecord, hwritings⟩
  · simp [h] at htext

/-! ## All sources -/

/-- A source that ends the batch. -/
def Halts (s : State) (p : Path) : Prop :=
  ∃ cause stop, sourceText s p = .error cause ∧ cause.fate = .error stop

theorem halts_iff {s : State} {p : Path} :
    Halts s p ↔ ∃ stop, (compileSource s p).outcome = .error stop := by
  rcases compileSource_spec s p with ⟨text, htext, hrecord, -⟩ | ⟨cause, htext, hrecord, -⟩
  · simp [Halts, htext, hrecord]
  · rw [hrecord]
    cases hfate : cause.fate with
    | error stop => simp [Halts, htext, hfate, Except.map]
    | ok trouble => simp [Halts, htext, hfate, Except.map]

theorem outcome_compileAll_cons (s : State) (p : Path) (ps : List Path) :
    (compileAll s (p :: ps)).outcome =
      (compileSource s p).outcome >>= fun r => (compileAll s ps).outcome.map (r :: ·) := by
  rw [compileAll, Job.outcome_bind]
  change Job.outcome (compileSource s p >>= _) = _
  rw [Job.outcome_bind]
  congr 1
  funext r
  rw [Job.outcome_bind]
  cases (compileAll s ps).outcome with
  | error stop => rfl
  | ok records => rfl

theorem writings_compileAll_cons (s : State) (p : Path) (ps : List Path) :
    writings (compileAll s (p :: ps)).events =
      writings (compileSource s p).events ++
        match (compileSource s p).outcome with
        | .ok _ => writings (compileAll s ps).events
        | .error _ => [] := by
  have hrest : ∀ r, (compileAll s ps >>= fun records => pure (r :: records)).events =
      (compileAll s ps).events := by
    intro r
    rw [Job.events_bind]
    cases (compileAll s ps).outcome with
    | error stop => simp
    | ok records => simp
  rw [compileAll, Job.events_bind]
  change writings ([_] ++ Job.events (compileSource s p >>= _)) = _
  rw [writings_append, Job.events_bind, writings_append]
  change [] ++ _ = _
  rw [List.nil_append]
  congr 1
  cases (compileSource s p).outcome with
  | error stop => rfl
  | ok r => exact congrArg writings (hrest r)

/-- If no source ends the batch, every source leaves its record and its text. -/
theorem compileAll_recorded {s : State} {ps : List Path}
    (h : ∀ p ∈ ps, ∃ r, (compileSource s p).outcome = .ok r) :
    ∃ records, (compileAll s ps).outcome = .ok records ∧
      List.Forall₂ (fun p r => (compileSource s p).outcome = .ok r) ps records ∧
      writings (compileAll s ps).events =
        ps.flatMap fun p => writings (compileSource s p).events := by
  induction ps with
  | nil => exact ⟨[], rfl, .nil, rfl⟩
  | cons p ps ih =>
    rcases h p List.mem_cons_self with ⟨r, hr⟩
    rcases ih fun q hq => h q (List.mem_cons_of_mem p hq) with ⟨records, hrecords, hall, hwritings⟩
    refine ⟨r :: records, ?_, .cons hr hall, ?_⟩
    · rw [outcome_compileAll_cons, hr, hrecords]
      rfl
    · rw [writings_compileAll_cons, hr, List.flatMap_cons, ← hwritings]

/-- The sources before the first that ends the batch leave their texts, and those behind it leave
nothing. -/
theorem compileAll_stopped {s : State} {before : List Path} {p : Path} {stop : Stop}
    (hbefore : ∀ q ∈ before, ∃ r, (compileSource s q).outcome = .ok r)
    (hp : (compileSource s p).outcome = .error stop) (after : List Path) :
    (compileAll s (before ++ p :: after)).outcome = .error stop ∧
      writings (compileAll s (before ++ p :: after)).events =
        (before.flatMap fun q => writings (compileSource s q).events) ++
          writings (compileSource s p).events := by
  induction before with
  | nil =>
    rw [List.nil_append, outcome_compileAll_cons, writings_compileAll_cons, hp]
    exact ⟨rfl, List.append_nil _⟩
  | cons q before ih =>
    rcases hbefore q List.mem_cons_self with ⟨r, hr⟩
    rcases ih fun q' hq' => hbefore q' (List.mem_cons_of_mem q hq') with ⟨hstop, hwritings⟩
    rw [List.cons_append, outcome_compileAll_cons, writings_compileAll_cons, hr, hstop,
      List.flatMap_cons, List.append_assoc, ← hwritings]
    exact ⟨rfl, rfl⟩

theorem outcome_compileSources (s : State) :
    (compileSources s).outcome =
      (compileAll s s.sources).outcome.map fun records => { s with records := some records } := by
  rw [compileSources, Job.outcome_bind]
  change Job.outcome (compileAll s s.sources >>= _) = _
  rw [Job.outcome_bind]
  cases (compileAll s s.sources).outcome with
  | error stop => rfl
  | ok records => rfl

theorem writings_compileSources (s : State) :
    writings (compileSources s).events = writings (compileAll s s.sources).events := by
  rw [compileSources, Job.events_bind]
  change writings ([_] ++ Job.events (compileAll s s.sources >>= _)) = _
  rw [writings_append, Job.events_bind, writings_append]
  change [] ++ (_ ++ writings _) = _
  cases (compileAll s s.sources).outcome with
  | error stop => simp [writings]
  | ok records => simp [writings]

/-! ## Alone and together -/

/-- A batch of one of the sources. -/
def alone (s : State) (p : Path) : Job State := compileSources { s with sources := [p] }

/-- What is done with a source does not depend on which others there are. -/
theorem compileSource_alone (s : State) (ps : List Path) (p : Path) :
    compileSource { s with sources := ps } p = compileSource s p := rfl

theorem outcome_alone (s : State) (p : Path) :
    (alone s p).outcome =
      (compileSource s p).outcome.map fun r => { s with sources := [p], records := some [r] } := by
  rw [alone, outcome_compileSources, outcome_compileAll_cons, compileSource_alone]
  cases (compileSource s p).outcome with
  | error stop => rfl
  | ok r => rfl

theorem writings_alone (s : State) (p : Path) :
    writings (alone s p).events = writings (compileSource s p).events := by
  rw [alone, writings_compileSources, writings_compileAll_cons, compileSource_alone]
  cases (compileSource s p).outcome with
  | error stop => simp
  | ok r => simp [compileAll, writings]

/-- The record of a source is the one that it has alone. A source with a text is recorded as
compiled, and the text is written; for any other source the cause is recorded, and nothing is
written. -/
structure Recorded (s : State) (p : Path) (r : Record) : Prop where
  alone : (alone s p).outcome = .ok { s with sources := [p], records := some [r] }
  compiled : ∀ text, sourceText s p = .ok text →
    r = recordOf s p none ∧ writings (Batch.alone s p).events = [(s.outputFile p, text)]
  failed : ∀ cause, sourceText s p = .error cause →
    (∃ trouble, cause.fate = .ok trouble ∧ r = recordOf s p (some trouble)) ∧
      writings (Batch.alone s p).events = []

theorem recorded_of_outcome {s : State} {p : Path} {r : Record}
    (h : (compileSource s p).outcome = .ok r) : Recorded s p r := by
  have halone : (alone s p).outcome = .ok { s with sources := [p], records := some [r] } := by
    rw [outcome_alone, h]
    rfl
  rcases compileSource_spec s p with ⟨text, htext, hrecord, hwritings⟩ |
    ⟨cause, htext, hrecord, hwritings⟩
  · refine ⟨halone, ?_, by simp [htext]⟩
    rintro text' htext'
    obtain rfl : text = text' := Except.ok.inj (htext.symm.trans htext')
    refine ⟨?_, by rw [writings_alone, hwritings]⟩
    exact Except.ok.inj (h.symm.trans hrecord)
  · refine ⟨halone, by simp [htext], ?_⟩
    rintro cause' htext'
    obtain rfl : cause = cause' := Except.error.inj (htext.symm.trans htext')
    rw [writings_alone, hwritings]
    rw [h] at hrecord
    cases hfate : cause.fate with
    | error stop => simp [hfate, Except.map] at hrecord
    | ok trouble =>
      rw [hfate] at hrecord
      exact ⟨⟨trouble, rfl, Except.ok.inj hrecord⟩, Cause.written_of_fate hfate _⟩

theorem Recorded.outcome {s : State} {p : Path} {r : Record} (h : Recorded s p r) :
    (compileSource s p).outcome = .ok r := by
  have halone := h.alone
  rw [outcome_alone] at halone
  cases hrecord : (compileSource s p).outcome with
  | error stop => simp [hrecord, Except.map] at halone
  | ok r' =>
    rw [hrecord] at halone
    have hrecords := congrArg State.records (Except.ok.inj halone)
    rw [(List.cons.inj (Option.some.inj hrecords)).1]

/-- The sources come out as they do alone. -/
structure Independent (s : State) (records : List Record) : Prop where
  returned : (compileSources s).outcome = .ok { s with records := some records }
  recorded : List.Forall₂ (Recorded s) s.sources records
  written : writings (compileSources s).events =
    s.sources.flatMap fun p => writings (alone s p).events

end Compiled

section Cases

open scoped CallStack.Standard

/-- Contents that are no text, a box that is never closed, and a paragraph. -/
def mixedFolder : State :=
  { inputFolder := "in"
    outputFolder := "out"
    input := some
      ⟨[([['a', '.', 'm', 'd']], [0xFF]), ([['b', '.', 'm', 'd']], [0x5B, 0x64, 0x69, 0x76, 0x5D]),
        ([['c', '.', 'm', 'd']], [0x63])]⟩
    sources := [[['a', '.', 'm', 'd']], [['b', '.', 'm', 'd']], [['c', '.', 'm', 'd']]] }

/-- A rule whose class has a superscript for a number, and a paragraph. -/
def superscriptFolder : State :=
  { inputFolder := "in"
    outputFolder := "out"
    input := some
      ⟨[([['a', '.', 'm', 'd']], [0x5B, 0x68, 0x72, 0x20, 0x63, 0x6C, 0x61, 0x73, 0x73, 0x3D, 0x22,
          0x7A, 0x2D, 0xC2, 0xB2, 0x22, 0x5D]),
        ([['b', '.', 'm', 'd']], [0x62])]⟩
    sources := [[['a', '.', 'm', 'd']], [['b', '.', 'm', 'd']]] }

end Cases

end Notemark.Batch
