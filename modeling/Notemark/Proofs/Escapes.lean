import Notemark.Proofs.Building
import Notemark.Proofs.ClassNumbers
import Notemark.Proofs.ElementIssues
import Notemark.Proofs.LastDocument
import Notemark.Proofs.RoundTrip

/-!
# Failures that go through

A session reports what is wrong with a note, with one exception: a class whose number is too large
for a fraction.

* `Header.failure?_extract`: what the header of a note fails with,
* `Header.outcome_extract`: the fields depend on the block alone,
* `classTexts`, `classWords`: the classes of a note, in the order in which they are converted,
* `build_escapes_iff`: when the work on a note fails without a report,
* `session_answers_iff`: a session answers unless the first class with a fault is oversized.
-/

namespace Notemark

/-! ## Headers -/

namespace Header

/-- The classes in an entry of a header. -/
def styleText? : Scalar × Value → Option Text
  | (.str name, value) => if name = "style" then Style.written? value else none
  | _ => none

theorem Section.ofName_eq_style_iff {name : String} :
    Section.ofName name = .style ↔ name = "style" := by
  constructor
  · intro h
    unfold Section.ofName at h
    split at h
    · simp at h
    · simp at h
    · simp at h
    · split at h
      · next hname => exact hname
      · split at h
        · simp at h
        · simp at h
  · rintro rfl
    decide

theorem Section.mem_copiedNames {name : String} (h : Section.ofName name = .copied) :
    name ∈ copiedNames := by
  unfold Section.ofName at h
  split at h
  · simp at h
  · simp at h
  · simp at h
  · split at h
    · simp at h
    · split at h
      · next hcopied => exact List.contains_iff_mem.mp hcopied
      · simp at h

/-- A key that is no text is none of the names: half of a surrogate pair stands in it. -/
theorem Section.exists_of_ofKey? {key : Scalar} {found : Section}
    (h : Section.ofKey? key = some found) (hnamed : found = .style ∨ found = .copied) :
    ∃ name, key = .str name ∧ Section.ofName name = found := by
  cases key with
  | str name => exact ⟨name, rfl, Option.some.inj h⟩
  | illFormed codes half =>
    have hname : String.ofList (Text.repaired codes) ∈ "style" :: copiedNames := by
      obtain rfl := Option.some.inj h
      rcases hnamed with hstyle | hcopied
      · exact List.mem_cons.mpr (Or.inl (Section.ofName_eq_style_iff.mp hstyle))
      · exact List.mem_cons_of_mem _ (Section.mem_copiedNames hcopied)
    rcases List.any_eq_true.mp half with ⟨n, hn, hsurrogate⟩
    have hmem : Char.ofNat 0xFFFD ∈ (String.ofList (Text.repaired codes)).toList := by
      rw [String.toList_ofList]
      exact List.mem_map.mpr ⟨n, hn, if_pos hsurrogate⟩
    have hnone : ∀ name ∈ "style" :: copiedNames, Char.ofNat 0xFFFD ∉ name.toList := by decide
    exact absurd hmem (hnone _ hname)
  | _ => cases h

theorem failure?_putClasses (classes : Text) (shown : String) (fields : Entries) :
    failure? (putClasses classes shown fields).outcome = Style.textFault? classes := by
  rw [putClasses, Run.outcome_bind, Style.outcome_styleOf]
  calc failure? (barring (Style.textFault? classes) _ >>= _)
      = (failure? (barring (Style.textFault? classes) _)).or none := by
        apply failure?_bind
        intro style _
        cases style with
        | some style => rfl
        | none => rfl
    _ = Style.textFault? classes := by rw [failure?_barring, Option.or_none]

theorem failure?_putStyle (value : Value) (fields : Entries) :
    failure? (putStyle value fields).outcome =
      (Style.written? value).bind Style.textFault? := by
  cases value with
  | scalar x =>
    cases x with
    | str classes => exact failure?_putClasses _ _ fields
    | illFormed codes half => exact failure?_putClasses _ _ fields
    | _ => rfl
  | _ => rfl

/-- Only the style of a document is converted, and every key but a long number can be shown. -/
theorem failure?_putEntry (fields : Entries) {key : Scalar} (hkey : key.isLong = false)
    (value : Value) :
    failure? (putEntry fields key value).outcome =
      ((styleText? (key, value)).bind Style.textFault?).map Fault.style := by
  unfold putEntry
  cases hsection : Section.ofKey? key with
  | none =>
    have hshown : (shownKey key).outcome = .ok key.shown := by
      simp only [shownKey, Run.outcome_ofExcept, Scalar.shown?, hkey]
      rfl
    cases key with
    | str name => cases hsection
    | illFormed codes half => cases hsection
    | _ =>
      dsimp only
      rw [Run.outcome_bind, hshown]
      rfl
  | some found =>
    cases key with
    | str name =>
      obtain rfl : Section.ofName name = found := Option.some.inj hsection
      rw [styleText?]
      -- Events, queries and plain fields are taken as they are.
      cases hname : Section.ofName name with
      | style =>
        rw [if_pos (Section.ofName_eq_style_iff.mp hname)]
        dsimp only
        rw [Run.outcome_adapt, failure?_mapError, failure?_putStyle]
      | _ =>
        have hother : name ≠ "style" := by
          intro heq
          rw [Section.ofName_eq_style_iff.mpr heq] at hname
          cases hname
        rw [if_neg hother]
        rfl
    | illFormed codes half =>
      cases found with
      | style =>
        rcases Section.exists_of_ofKey? hsection (Or.inl rfl) with ⟨name, hkey, -⟩
        cases hkey
      | _ => rfl
    | _ => cases hsection

/-- The keys of a header that messages can show. -/
def keysBrief (entries : Entries) : Bool := entries.all fun e => !e.1.isLong

theorem failure?_putEntries (fields : Entries) {entries : Entries} (h : keysBrief entries = true) :
    failure? (putEntries fields entries).outcome =
      ((entries.filterMap styleText?).findSome? Style.textFault?).map Fault.style := by
  induction entries generalizing fields with
  | nil => rfl
  | cons e entries ih =>
    rcases e with ⟨key, value⟩
    rw [keysBrief, List.all_cons, Bool.and_eq_true] at h
    have hkey : key.isLong = false := by simpa using h.1
    rw [putEntries, Run.outcome_bind, failure?_bind (fun later _ => ih later h.2),
      failure?_putEntry fields hkey, List.filterMap_cons]
    cases styleText? (key, value) with
    | none => rfl
    | some classes =>
      rw [List.findSome?_cons, Option.bind_some]
      cases Style.textFault? classes with
      | none => rfl
      | some f => rfl

theorem failure?_plainKeys (entries : Entries) :
    failure? (plainKeys entries).outcome =
      if keysBrief entries then none else some (.note .digits) := by
  induction entries with
  | nil => rfl
  | cons e entries ih =>
    rcases e with ⟨key, value⟩
    rw [plainKeys, Run.outcome_bind, plainKey, Run.outcome_ofExcept, Scalar.plain?, keysBrief,
      List.all_cons]
    cases key.isLong with
    | true => rfl
    | false =>
      change failure? (Run.outcome (plainKeys entries >>= _)) = _
      rw [Run.outcome_bind, failure?_bind_ok fun _ => rfl, ih]
      rfl

theorem failure?_mappingFields (entries : Entries) :
    failure? (mappingFields entries).outcome =
      if keysBrief entries then
        ((entries.filterMap styleText?).findSome? Style.textFault?).map Fault.style
      else some (.note .digits) := by
  have hkeys := failure?_plainKeys entries
  rw [mappingFields, Run.outcome_bind]
  split
  · next hbrief =>
    rw [if_pos hbrief] at hkeys
    rcases failure?_eq_none_iff.mp hkeys with ⟨keys, hkeys⟩
    rw [hkeys]
    exact failure?_putEntries [] hbrief
  · next hlong =>
    rw [if_neg hlong] at hkeys
    rw [failure?_eq_some_iff.mp hkeys]
    rfl

section Blocks

variable [CallStack]

/-- The entries that a header's block gives; `none` if its data cannot be taken, or its keys cannot
be shown. -/
def entries? (block : Text) : Option Entries :=
  match readBlock block with
  | .ok (.map _ entries) => if keysBrief entries then some entries else none
  | .ok _ | .error .malformed => some []
  | .error _ => none

/-- What the header of a note fails with apart from classes: its data, or a key that is too long. -/
def DataFault (block : Text) (f : Fault) : Prop :=
  (∀ g, Yaml.load block = .error g → g.kind.isReported = true) → f.kind.isReported = true

/-- A block fails if its data cannot be taken, or if a class of it has a fault. -/
theorem failure?_blockFields (block : Text) :
    (∃ entries, entries? block = some entries ∧
      failure? (blockFields block).outcome =
        ((entries.filterMap styleText?).findSome? Style.textFault?).map Fault.style) ∨
    ∃ f, entries? block = none ∧ DataFault block f ∧
      (blockFields block).outcome = .error f := by
  have hdata : ∀ {f}, readBlock block = .error f → DataFault block (.data f) := by
    intro f hread hreported
    unfold readBlock at hread
    split at hread
    · exact hreported f hread
    · obtain rfl := Except.error.inj hread
      rfl
  unfold entries? blockFields
  cases hread : readBlock block with
  | error f =>
    cases f with
    | malformed => exact Or.inl ⟨[], rfl, rfl⟩
    | _ => exact Or.inr ⟨_, rfl, hdata hread, rfl⟩
  | ok v =>
    cases v with
    | map label entries =>
      have hfields := failure?_mappingFields entries
      dsimp only
      split
      · next hbrief =>
        rw [if_pos hbrief] at hfields
        exact Or.inl ⟨entries, rfl, hfields⟩
      · next hlong =>
        rw [if_neg hlong] at hfields
        exact Or.inr ⟨_, rfl, fun _ => rfl, failure?_eq_some_iff.mp hfields⟩
    | scalar x =>
      cases x with
      | null => exact Or.inl ⟨[], rfl, failure?_mappingFields []⟩
      | _ => exact Or.inl ⟨[], rfl, rfl⟩
    | _ => exact Or.inl ⟨[], rfl, rfl⟩

/-- The entries of the header of a note. -/
def noteEntries? (note : Text) : Option Entries :=
  match (split note).1 with
  | none => some []
  | some block => entries? block

theorem failure?_extract (note : Text) :
    (∃ entries, noteEntries? note = some entries ∧
      failure? (extract note).outcome =
        ((entries.filterMap styleText?).findSome? Style.textFault?).map Fault.style) ∨
    ∃ block f, noteEntries? note = none ∧ (split note).1 = some block ∧
      DataFault block f ∧ (extract note).outcome = .error f := by
  unfold noteEntries? extract
  rcases split note with ⟨block, body⟩
  cases block with
  | none => exact Or.inl ⟨[], rfl, rfl⟩
  | some block =>
    dsimp only
    rw [Run.outcome_bind]
    rcases failure?_blockFields block with ⟨entries, hentries, hfailure⟩ |
      ⟨f, hentries, hdata, hfails⟩
    · refine Or.inl ⟨entries, hentries, ?_⟩
      rw [failure?_bind_ok fun _ => rfl, hfailure]
    · refine Or.inr ⟨block, f, hentries, rfl, hdata, ?_⟩
      rw [hfails]
      rfl

/-- The fields that the block of a note gives, if there is one. -/
def fieldsIn : Option Text → Except Fault Entries
  | none => .ok []
  | some block => (blockFields block).outcome

theorem outcome_extract (note : Text) :
    (extract note).outcome = (fieldsIn (split note).1).map (·, (split note).2) := by
  unfold extract fieldsIn
  rcases split note with ⟨block, body⟩
  cases block with
  | none => rfl
  | some block =>
    dsimp only
    rw [Run.outcome_bind]
    cases (blockFields block).outcome with
    | error f => rfl
    | ok fields => rfl

theorem fields_of_extract {note : Text} {found : Entries × Text}
    (h : (extract note).outcome = .ok found) : fieldsIn (split note).1 = .ok found.1 := by
  rw [outcome_extract] at h
  rcases map_eq_ok_iff.mp h with ⟨fields, hfields, rfl⟩
  exact hfields

theorem body_of_extract {note : Text} {found : Entries × Text}
    (h : (extract note).outcome = .ok found) : found.2 = (split note).2 := by
  rw [outcome_extract] at h
  rcases map_eq_ok_iff.mp h with ⟨fields, -, rfl⟩
  rfl

end Blocks

end Header

/-! ## Classes of a note -/

namespace Document

open Body (Mode)

/-- The classes in a body, if they are to be converted, in the order in which they are. -/
def bodyTexts (settings : Settings) (mode : Mode) (body : Text) : List Text :=
  match Body.tokenize mode body with
  | .error _ => []
  | .ok tokens =>
    match Body.parse tokens with
    | .error _ => []
    | .ok elements => (classed settings (Body.Element.toValues elements)).filterMap Style.classText?

theorem fault?_of_named [CallStack] {es : Entries} (h : Body.Named es) :
    Style.fault? es = ((Style.classText? es).bind Style.textFault?).map Style.Fault.cls := by
  have hshown : ∀ s, Style.shownFault? (.str s) = none := fun s =>
    Style.shownFault?_eq_none_iff.mpr ⟨rfl, Nat.zero_le _⟩
  unfold Style.fault? Style.classText?
  cases hclasses : Style.classes? es with
  | none => rfl
  | some classes =>
    rcases h.classes classes hclasses with ⟨s, rfl⟩
    rcases h.type with ⟨type, htype⟩
    have hmessage : Style.messageFault? es (.str s) = none := by
      rw [Style.messageFault?, htype, hshown, hshown]
      exact ite_self none
    simp only [Option.bind_some, hmessage, Option.map_none, ite_self, Option.or_none]

theorem firstFault?_eq [CallStack] {elements : List Entries}
    (h : ∀ es ∈ elements, Body.Named es) :
    Style.firstFault? elements =
      ((elements.filterMap Style.classText?).findSome? Style.textFault?).map Style.Fault.cls := by
  induction elements with
  | nil => rfl
  | cons es elements ih =>
    rw [List.forall_mem_cons] at h
    rw [Style.firstFault?_cons, fault?_of_named h.1, List.filterMap_cons, ih h.2]
    cases Style.classText? es with
    | none => rfl
    | some classes =>
      rw [List.findSome?_cons, Option.bind_some]
      cases Style.textFault? classes with
      | none => rfl
      | some f => rfl

theorem findSome?_classTexts (texts : List Text) :
    texts.findSome? Style.textFault? = (texts.flatMap Text.words).findSome? Style.wordFault? := by
  induction texts with
  | nil => rfl
  | cons classes texts ih =>
    -- A list of classes fails with the fault of the first class in it that has one.
    rw [List.findSome?_cons, List.flatMap_cons, List.findSome?_append, ← ih, Style.textFault?_eq]
    cases (Text.words classes).findSome? Style.wordFault? with
    | none => rfl
    | some f => rfl

/-- The elements of a body that are converted have names and classes. -/
theorem named_of_mem_classed {settings : Settings} {elements : List Body.Element} {es : Entries}
    (h : es ∈ classed settings (Body.Element.toValues elements)) : Body.Named es := by
  unfold classed at h
  split at h
  · rcases List.mem_flatMap.mp h with ⟨v, hv, hes⟩
    rcases Body.mem_toValues.mp hv with ⟨e, -, rfl⟩
    exact Body.named_of_mem_visits hes
  · cases h

/-- Of the faults of classes, only a number that is too large is not reported. -/
theorem isReported_kind {f : Style.ClassFault} : f.kind.isReported = false ↔ f = .tooLarge := by
  cases f <;> simp [Style.ClassFault.kind, FaultKind.isReported]

theorem isReported_pipe (f : Pipe.Fault) : f.kind.isReported = true := by
  rcases f with (_ | _) | _ | _ <;> rfl

/-- What is not reported comes from the first part, if all that the second fails with is. -/
theorem exists_escape_bind_iff {α β : Type} {x : Except Failure α} {k : α → Except Failure β}
    (hk : ∀ a f, k a = .error f → f.isReported = true) :
    (∃ f, (x >>= k) = .error f ∧ f.isReported = false) ↔
      ∃ f, x = .error f ∧ f.isReported = false := by
  constructor
  · rintro ⟨f, hf, hescapes⟩
    rcases bind_eq_error_iff.mp hf with hx | ⟨a, -, hlater⟩
    · exact ⟨f, hx, hescapes⟩
    · simp [hk a f hlater] at hescapes
  · rintro ⟨f, hf, hescapes⟩
    exact ⟨f, bind_eq_error_iff.mpr (Or.inl hf), hescapes⟩

section Notes

variable [CallStack]

/-- The classes of a note, in the order in which they are converted. -/
def classTexts (settings : Settings) (mode : Mode) (note : Text) : List Text :=
  match Header.noteEntries? note with
  | none => []
  | some entries =>
    entries.filterMap Header.styleText? ++ bodyTexts settings mode (Header.split note).2

/-- The single classes of a note. -/
def classWords (settings : Settings) (mode : Mode) (note : Text) : List Text :=
  (classTexts settings mode note).flatMap Text.words

/-- A body fails if it breaks the notation, or if a class in it has a fault. -/
theorem failure?_elementsOf (settings : Settings) (mode : Mode) (body : Text) :
    (∃ e, bodyTexts settings mode body = [] ∧
      failure? (elementsOf settings mode body).outcome = some (.scan e)) ∨
    failure? (elementsOf settings mode body).outcome =
      ((bodyTexts settings mode body).findSome? Style.textFault?).map fun f => .style (.cls f) := by
  unfold bodyTexts
  cases htokens : Body.tokenize mode body with
  | error e =>
    rw [outcome_elementsOf_error htokens]
    exact Or.inl ⟨e, rfl, rfl⟩
  | ok tokens =>
    rcases Body.exists_elements htokens with ⟨elements, htree, -⟩
    dsimp only
    rw [outcome_elementsOf htokens htree, failure?_mapError, failure?_barring,
      firstFault?_eq fun es hes => named_of_mem_classed hes, htree, Option.map_map]
    exact Or.inr rfl

/-- The work on a note fails without a report exactly if the first class with a fault is too large,
given that the faults of header data are reported. -/
theorem build_escapes_iff {settings : Settings} {mode : Mode} {note : Text}
    (hdata : ∀ block f, (Header.split note).1 = some block → Yaml.load block = .error f →
      f.kind.isReported = true) :
    (∃ f, (build settings mode note).outcome = .error f ∧ f.isReported = false) ↔
      (classTexts settings mode note).findSome? Style.textFault? = some .tooLarge := by
  rw [outcome_build, classTexts]
  rcases Header.failure?_extract note with ⟨entries, hentries, hfailure⟩ |
    ⟨block, f, hentries, hblock, hfault, hextract⟩
  · rw [hentries]
    dsimp only
    rw [List.findSome?_append]
    cases hheader : (entries.filterMap Header.styleText?).findSome? Style.textFault? with
    | some f =>
      -- A class in the header fails first.
      rw [hheader] at hfailure
      rw [failure?_eq_some_iff.mp hfailure, Option.some_or, Option.some.injEq, ← isReported_kind]
      constructor
      · rintro ⟨g, hg, hescapes⟩
        obtain rfl : Failure.header (.style f) = g := Except.error.inj hg
        exact hescapes
      · intro hescapes
        exact ⟨.header (.style f), rfl, hescapes⟩
    | none =>
      -- The header is taken, and the classes in the body decide: faults of pipes are reported.
      rw [hheader] at hfailure
      rcases failure?_eq_none_iff.mp hfailure with ⟨found, hfound⟩
      have hpipes : ∀ elements f,
          ((assemble settings found.1 elements).outcome.mapError Failure.pipe).map
            (Value.map none) = .error f → f.isReported = true := by
        intro elements f hf
        cases hassemble : (assemble settings found.1 elements).outcome with
        | ok document =>
          rw [hassemble] at hf
          cases hf
        | error g =>
          rw [hassemble] at hf
          obtain rfl : Failure.pipe g = f := Except.error.inj hf
          exact isReported_pipe g
      rw [hfound, Option.none_or]
      change (∃ g, ((elementsOf settings mode found.2).outcome >>= _) = .error g ∧ _) ↔ _
      rw [exists_escape_bind_iff hpipes, Header.body_of_extract hfound]
      simp only [← failure?_eq_some_iff]
      rcases failure?_elementsOf settings mode (Header.split note).2 with
        ⟨e, htexts, hscan⟩ | hstyle
      · rw [hscan, htexts]
        apply iff_of_false
        · rintro ⟨g, hg, hescapes⟩
          obtain rfl : Failure.scan e = g := Option.some.inj hg
          simp [Failure.isReported] at hescapes
        · simp
      · rw [hstyle]
        constructor
        · rintro ⟨g, hg, hescapes⟩
          rcases Option.map_eq_some_iff.mp hg with ⟨f, hf, rfl⟩
          rw [hf, isReported_kind.mp hescapes]
        · intro hf
          exact ⟨.style (.cls .tooLarge), by rw [hf]; rfl, rfl⟩
  · -- The data of the header cannot be taken, which is reported.
    have hreported := hfault fun g hload => hdata block g hblock hload
    rw [hentries, hextract]
    apply iff_of_false
    · rintro ⟨g, hg, hescapes⟩
      obtain rfl : Failure.header f = g := Except.error.inj hg
      exact absurd hescapes (by simp [Failure.isReported, hreported])
    · simp

/-! ## Sessions -/

namespace Session

variable {s : Session} {note : Text}

/-- Issues with a document are reported. -/
theorem build_escapes_iff :
    (∃ f, (s.build note).outcome = .error f ∧ f.isReported = false) ↔
      ∃ f, (Document.build s.settings s.mode note).outcome = .error f ∧ f.isReported = false := by
  rw [Session.build, Run.outcome_bind]
  refine exists_escape_bind_iff fun document f hissues => ?_
  -- What the check of the document fails with is a list of issues.
  split at hissues
  · split at hissues
    · simp at hissues
    · obtain rfl := Except.error.inj hissues
      rfl
  · simp at hissues

theorem compile_answers_iff (useLast : Bool) :
    (∃ result, (s.compile note useLast).outcome = .ok result) ↔
      ¬ ∃ f, (s.build note).outcome = .error f ∧ f.isReported = false := by
  rcases s.compile_cases note useLast with ⟨d, hbuild, hcompile⟩ | ⟨f, hbuild, hf, hcompile⟩ |
    ⟨f, hbuild, hf, hcompile⟩
  · rw [hcompile, hbuild]
    simp
  · rw [hcompile, hbuild]
    simp [hf]
  · rw [hcompile, hbuild]
    simp [hf]

end Session

end Notes

/-! ### A note of one rule -/

/-- A rule with some classes. -/
def ruleNote (classes : Text) : Text :=
  ['[', 'h', 'r', ' ', 'c', 'l', 'a', 's', 's', '=', '"'] ++ (classes ++ ['"', ']'])

theorem split_ruleNote {classes : Text} (hclasses : '\r' ∉ classes) :
    Header.split (ruleNote classes) = (none, ruleNote classes) := by
  have hreturn : '\r' ∉ ruleNote classes := by simp [ruleNote, hclasses]
  rw [Header.split, Text.joinLines_of_settled (Text.settled_of_notMem hreturn)]
  rfl

theorem classTexts_ruleNote [CallStack] {classes : Text}
    (hclasses : ∀ c ∈ classes, c ≠ '"' ∧ c ≠ '\\' ∧ c ≠ '\r') :
    classTexts {} .strict (ruleNote classes) = [classes] := by
  have hwritable : Body.Writable [(Body.classKey, classes)] :=
    ⟨by simp, by simp; decide, by simp; decide, by simpa using hclasses⟩
  let rule : Body.BlockTree :=
    .line 0 (.leaf ⟨⟨['h', 'r'], by decide⟩, by intro c; cases c <;> decide, by decide⟩
      ⟨_, hwritable⟩)
  have hnote : ruleNote classes = Body.print [rule] 0 := by
    simp [ruleNote, rule, Body.print, Body.documentPieces, Body.BlockTree.allPieces,
      Body.BlockTree.pieces, Body.BlockTree.gap, Body.Piece.print, Body.Line.print, Body.bracketed,
      Body.attributeText, Body.classKey]
  -- The note is the printed form of the rule, so it is read back.
  have htokens := Body.tokenize_pieces (Body.onLines_document [rule] 0) fun map offset =>
    Body.balanced_document map offset [rule] 0
  have hsplit : Header.split (ruleNote classes) = (none, ruleNote classes) := by
    apply split_ruleNote
    intro hreturn
    exact (hclasses '\r' hreturn).2.2 rfl
  -- The rule is the only element, and it has no children.
  have hvisits : (Body.Element.toValues (Body.BlockTree.elements [rule])).flatMap Style.visits =
      [[(.str "type", .str (String.ofList ['h', 'r'])),
        (.str "attributes",
          .object [(String.ofList Body.classKey, .str (String.ofList classes))])]] := by
    change Style.visits _ ++ [] = _
    rw [Style.visits, Style.below_eq]
    rfl
  rw [classTexts, Header.noteEntries?, hsplit, bodyTexts, hnote, Body.print, htokens]
  dsimp only
  rw [Body.parse_document]
  change ((Body.Element.toValues (Body.BlockTree.elements [rule])).flatMap Style.visits).filterMap
    Style.classText? = _
  rw [hvisits]
  change [(String.ofList classes).toList] = _
  rw [String.toList_ofList]

/-- One oversized opacity is enough. -/
theorem not_answers_ruleNote [CallStack] {word : Text}
    (hchars : ∀ c ∈ word, Text.isBlank c = false ∧ c ≠ '"' ∧ c ≠ '\\' ∧ c ≠ '\r')
    (hne : word ≠ []) (hlarge : Style.Oversized word) (useLast : Bool) :
    (Header.split (ruleNote word)).1 = none ∧
      ¬ ∃ result, (Session.compile {} (ruleNote word) useLast).outcome = .ok result := by
  have hsplit : (Header.split (ruleNote word)).1 = none := by
    rw [split_ruleNote fun hreturn => (hchars '\r' hreturn).2.2.2 rfl]
  have hwords : Text.words word = [word] :=
    Text.words_of_not_blank (fun c hc => (hchars c hc).1) hne
  refine ⟨hsplit, ?_⟩
  rw [Session.compile_answers_iff, not_not, Session.build_escapes_iff,
    build_escapes_iff (by simp [hsplit]), findSome?_classTexts,
    classTexts_ruleNote fun c hc => (hchars c hc).2, List.flatMap_singleton, hwords,
    List.findSome?_singleton]
  exact Style.wordFault?_eq_tooLarge_iff.mpr hlarge

theorem chars_ninesOpacity (n : Nat) :
    ∀ c ∈ Style.ninesOpacity n, Text.isBlank c = false ∧ c ≠ '"' ∧ c ≠ '\\' ∧ c ≠ '\r' := by
  intro c hc
  rcases List.mem_append.mp hc with hletter | hnine
  · simp only [List.mem_cons, List.not_mem_nil, or_false] at hletter
    rcases hletter with rfl | rfl | rfl | rfl | rfl | rfl | rfl | rfl <;> decide
  · rw [List.eq_of_mem_replicate hnine]
    decide

/-! ### All notes -/

/-- A session answers to a note, whatever it is, with one exception: the first class that has a
fault, in the order in which classes are converted, is an opacity beyond every double. Header data
is taken to fail only with faults that are reported. -/
theorem session_answers_iff [CallStack] (s : Session) (note : Text) (useLast : Bool)
    (hdata : ∀ block f, (Header.split note).1 = some block → Yaml.load block = .error f →
      f.kind.isReported = true) :
    (∃ result, (s.compile note useLast).outcome = .ok result) ↔
      ¬ ∃ before word after, classWords s.settings s.mode note = before ++ word :: after ∧
        (∀ w ∈ before, ∃ new, Style.declarations w = .ok new) ∧ Style.Oversized word := by
  rw [Session.compile_answers_iff, Session.build_escapes_iff, build_escapes_iff hdata,
    findSome?_classTexts, ← classWords, List.findSome?_eq_some_iff]
  have hfine : ∀ w, Style.wordFault? w = none ↔ ∃ new, Style.declarations w = .ok new := by
    intro w
    rw [Style.wordFault?]
    cases Style.declarations w with
    | error f => simp
    | ok new => simp
  apply not_congr
  constructor
  · rintro ⟨before, word, after, hsplit, hword, hbefore⟩
    refine ⟨before, word, after, hsplit, ?_, Style.wordFault?_eq_tooLarge_iff.mp hword⟩
    intro w hw
    exact (hfine w).mp (hbefore w hw)
  · rintro ⟨before, word, after, hsplit, hbefore, hword⟩
    refine ⟨before, word, after, hsplit, Style.wordFault?_eq_tooLarge_iff.mpr hword, ?_⟩
    intro w hw
    exact (hfine w).mpr (hbefore w hw)

section Opacities

open scoped CallStack.Standard

/-- A note with an empty header and an opacity of one half. -/
theorem session_answers_half :
    (Header.split (['-', '-', '-', '\n', '\n', '-', '-', '-', '\n'] ++
      ruleNote ['o', 'p', 'a', 'c', 'i', 't', 'y', '-', '5', '0'])).1 = some [] ∧
    ∃ result, (Session.compile {} (['-', '-', '-', '\n', '\n', '-', '-', '-', '\n'] ++
      ruleNote ['o', 'p', 'a', 'c', 'i', 't', 'y', '-', '5', '0']) true).outcome = .ok result := by
  refine ⟨rfl, (session_answers_iff {} _ true ?_).mpr ?_⟩
  · intro block f hblock hload
    obtain rfl : [] = block := Option.some.inj hblock
    have hnothing : Yaml.load [] = .ok .null := rfl
    rw [hnothing] at hload
    simp at hload
  · rintro ⟨before, word, after, hwords, -, digits, rest, n, hsplit, -, hn, hlarge⟩
    have hclasses : classWords {} .strict (['-', '-', '-', '\n', '\n', '-', '-', '-', '\n'] ++
        ruleNote ['o', 'p', 'a', 'c', 'i', 't', 'y', '-', '5', '0']) =
          [['o', 'p', 'a', 'c', 'i', 't', 'y', '-', '5', '0']] := by
      decide +kernel
    have hword : word ∈ [['o', 'p', 'a', 'c', 'i', 't', 'y', '-', '5', '0']] := by
      rw [← hclasses, hwords]
      simp
    obtain rfl := List.mem_singleton.mp hword
    obtain ⟨-, hdigits⟩ := List.cons.inj hsplit
    obtain ⟨rfl, -⟩ := List.cons.inj hdigits
    obtain rfl : 50 = n := Option.some.inj hn
    exact absurd hlarge (by decide +kernel)

/-- A note without a header, so that nothing is asked of header data, gets no answer. -/
theorem session_fails_ninesOpacity :
    (Header.split (ruleNote (Style.ninesOpacity 311))).1 = none ∧
      ¬ ∃ result,
        (Session.compile {} (ruleNote (Style.ninesOpacity 311)) true).outcome = .ok result :=
  not_answers_ruleNote (chars_ninesOpacity 311) (List.cons_ne_nil _ _)
    (Style.oversized_nines (by decide) (by decide)) true

end Opacities

end Document

end Notemark
