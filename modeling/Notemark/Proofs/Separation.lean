import Notemark.Proofs.Entries
import Notemark.Proofs.Escapes

/-!
# Headers apart from bodies

A header says nothing about the elements of a document, and a body nothing about its other fields.

* `Header.settable_of_extract`: a header sets no fields but those that are meant for it,
* `Pipe.processPipes_put`: compiling pipes leaves the elements alone,
* `Document.outcome_build_extracted`: the document of a note, from its fields and its body,
* `Document.header_apart_from_body`: notes with one body have the same elements, notes with one
  block the same fields.
-/

namespace Notemark

/-! ## What a header sets -/

namespace Header

/-- The names of the fields that a header can set. -/
def fieldNames : List String := ["events", "queries", "style"] ++ copiedNames

/-- Fields that a header can have set. -/
def Settable (fields : Entries) : Prop := ∀ e ∈ fields, ∃ name ∈ fieldNames, e.1 = .str name

variable {fields later : Entries} {key : Scalar} {value : Value} {name : String}

theorem settable_nil : Settable [] := by simp [Settable]

theorem Settable.put (h : Settable fields) (hname : name ∈ fieldNames) (value : Value) :
    Settable (Entries.put name value fields) := by
  intro e he
  rcases Entries.mem_put he with rfl | he
  · exact ⟨name, hname, rfl⟩
  · exact h e he

theorem Settable.putClasses {classes : Text} {shown : String} (h : Settable fields)
    (hput : (putClasses classes shown fields).outcome = .ok later) : Settable later := by
  rw [Header.putClasses, Run.outcome_bind] at hput
  rcases bind_eq_ok_iff.mp hput with ⟨style, -, hput⟩
  cases style with
  | some style =>
    obtain rfl := Except.ok.inj hput
    exact h.put (by decide) style.toValue
  | none =>
    obtain rfl := Except.ok.inj hput
    exact h

theorem Settable.putStyle (h : Settable fields)
    (hput : (putStyle value fields).outcome = .ok later) : Settable later := by
  unfold Header.putStyle at hput
  split at hput
  · exact h.putClasses hput
  · exact h.putClasses hput
  · obtain rfl := Except.ok.inj hput
    exact h

/-- An entry sets one of the fields, or none. -/
theorem Settable.putEntry (h : Settable fields)
    (hput : (putEntry fields key value).outcome = .ok later) : Settable later := by
  unfold Header.putEntry at hput
  cases hsection : Section.ofKey? key with
  | none =>
    rw [hsection] at hput
    dsimp only at hput
    rw [Run.outcome_bind] at hput
    rcases bind_eq_ok_iff.mp hput with ⟨shown, -, hput⟩
    obtain rfl := Except.ok.inj hput
    exact h
  | some found =>
    rw [hsection] at hput
    cases found with
    | events =>
      obtain rfl := Except.ok.inj hput
      exact h.put (by decide) _
    | queries component =>
      obtain rfl := Except.ok.inj hput
      exact h.put (by decide) _
    | style =>
      dsimp only at hput
      rw [Run.outcome_adapt, mapError_eq_ok_iff] at hput
      exact h.putStyle hput
    | copied =>
      rcases Section.exists_of_ofKey? hsection (Or.inr rfl) with ⟨name, rfl, hname⟩
      obtain rfl := Except.ok.inj hput
      exact h.put (List.mem_append_right _ (Section.mem_copiedNames hname)) value
    | unknown =>
      obtain rfl := Except.ok.inj hput
      exact h

theorem Settable.putEntries {entries : Entries} (h : Settable fields)
    (hput : (putEntries fields entries).outcome = .ok later) : Settable later := by
  induction entries generalizing fields with
  | nil =>
    obtain rfl := Except.ok.inj hput
    exact h
  | cons e entries ih =>
    rw [Header.putEntries, Run.outcome_bind] at hput
    rcases bind_eq_ok_iff.mp hput with ⟨next, hentry, hput⟩
    exact ih (h.putEntry hentry) hput

theorem settable_mappingFields {entries : Entries}
    (h : (mappingFields entries).outcome = .ok fields) : Settable fields := by
  rw [mappingFields, Run.outcome_bind] at h
  rcases bind_eq_ok_iff.mp h with ⟨keys, -, h⟩
  exact settable_nil.putEntries h

theorem settable_blockFields [CallStack] {block : Text}
    (h : (blockFields block).outcome = .ok fields) : Settable fields := by
  unfold blockFields at h
  split at h
  · obtain rfl := Except.ok.inj h
    exact settable_nil
  · cases h
  · exact settable_mappingFields h
  · exact settable_mappingFields h
  · obtain rfl := Except.ok.inj h
    exact settable_nil

theorem settable_of_extract [CallStack] {note : Text} {found : Entries × Text}
    (h : (extract note).outcome = .ok found) : Settable found.1 := by
  have hfields := fields_of_extract h
  cases hblock : (split note).1 with
  | none =>
    rw [hblock] at hfields
    rw [← Except.ok.inj hfields]
    exact settable_nil
  | some block =>
    rw [hblock] at hfields
    exact settable_blockFields hfields

end Header

/-! ## What compiling pipes changes -/

namespace Pipe

variable [CallStack] {name other : String} {document later : Entries}

theorem outcome_processSection (document : Entries) (name : String) :
    (processSection document name).outcome =
      match document.get? name with
      | some (.map label entries) =>
        if CallStack.copies (.map label entries) then
          (processNames entries (entries.map (·.1))).outcome.map fun new =>
            Entries.put name (.map label new) document
        else .error .depth
      | _ => .ok document := by
  rw [processSection]
  cases document.get? name with
  | none => rfl
  | some v =>
    cases v with
    | map label entries =>
      dsimp only
      cases CallStack.copies (.map label entries) with
      | true =>
        change Run.outcome (processNames entries (entries.map (·.1)) >>= _) = _
        rw [Run.outcome_bind]
        rfl
      | false => rfl
    | _ => rfl

theorem get?_processSection (h : other ≠ name)
    (hok : (processSection document name).outcome = .ok later) :
    later.get? other = document.get? other := by
  rw [outcome_processSection] at hok
  split at hok
  · split at hok
    · rcases map_eq_ok_iff.mp hok with ⟨new, -, rfl⟩
      exact Entries.get?_put_ne h _ document
    · cases hok
  · rw [Except.ok.inj hok]

/-- A section is compiled in its place, whatever stands in other fields. -/
theorem processSection_put (h : other ≠ name) (value : Value) (document : Entries) :
    (processSection (Entries.put other value document) name).outcome =
      (processSection document name).outcome.map (Entries.put other value) := by
  rw [outcome_processSection, outcome_processSection, Entries.get?_put_ne h.symm]
  split
  · next label entries hname =>
    split
    · cases (processNames entries (entries.map (·.1))).outcome with
      | error f => rfl
      | ok new =>
        exact congrArg Except.ok (Entries.put_comm h (by rw [hname]; rfl)).symm
    · rfl
  · rfl

theorem processPipes_put (elements : Value) (document : Entries) :
    (processPipes (Entries.put "elements" elements document)).outcome =
      (processPipes document).outcome.map (Entries.put "elements" elements) := by
  rw [processPipes, processPipes, Run.outcome_bind, Run.outcome_bind,
    processSection_put (by decide)]
  cases (processSection document "queries").outcome with
  | error f => rfl
  | ok middle => exact processSection_put (by decide) elements middle

theorem get?_processPipes (hqueries : other ≠ "queries") (hevents : other ≠ "events")
    (hok : (processPipes document).outcome = .ok later) :
    later.get? other = document.get? other := by
  rw [processPipes, Run.outcome_bind] at hok
  rcases bind_eq_ok_iff.mp hok with ⟨middle, hmiddle, hlater⟩
  rw [get?_processSection hevents hlater, get?_processSection hqueries hmiddle]

end Pipe

/-! ## Documents -/

namespace Document

open Body (Mode)

section Separate

variable [CallStack] {settings : Settings} {mode : Mode} {note : Text} {found : Entries × Text}

/-- The fields of a document without its elements, unless the pipes have a fault. -/
def headed (settings : Settings) (fields : Entries) : Except Pipe.Fault Entries :=
  (Pipe.processPipes
    (Entries.update [(.str "version", .str settings.documentVersion)] fields)).outcome

theorem outcome_assemble (settings : Settings) (fields : Entries) (elements : List Value) :
    (assemble settings fields elements).outcome =
      (headed settings fields).map (Entries.put "elements" (.list elements)) :=
  Pipe.processPipes_put _ _

/-- A header cannot set the version. -/
theorem get?_version {fields rest : Entries} (h : Header.Settable fields)
    (hrest : headed settings fields = .ok rest) :
    rest.get? "version" = some (.str settings.documentVersion) := by
  rw [Pipe.get?_processPipes (by decide) (by decide) hrest, Entries.get?_update]
  · rfl
  · intro e he
    rcases h e he with ⟨name, hname, hkey⟩
    exact ⟨name, hkey, by rintro rfl; revert hname; decide⟩

/-- The document of a note whose header is read: the elements are those of the body, and all else
comes from the header. -/
theorem outcome_build_extracted (h : (Header.extract note).outcome = .ok found) :
    (build settings mode note).outcome =
      (elementsOf settings mode (Header.split note).2).outcome >>= fun elements =>
        ((headed settings found.1).mapError Failure.pipe).map fun rest =>
          .map none (Entries.put "elements" (.list elements) rest) := by
  rw [outcome_build, h, ← Header.body_of_extract h]
  change ((elementsOf settings mode found.2).outcome >>= _) = _
  congr 1
  funext elements
  rw [outcome_assemble]
  cases headed settings found.1 <;> rfl

/-- A document is built from a header that is read. -/
theorem extract_of_build {d : Value} (h : (build settings mode note).outcome = .ok d) :
    ∃ found elements rest, (Header.extract note).outcome = .ok found ∧
      (elementsOf settings mode (Header.split note).2).outcome = .ok elements ∧
      headed settings found.1 = .ok rest ∧
      d = .map none (Entries.put "elements" (.list elements) rest) := by
  cases hextract : (Header.extract note).outcome with
  | error f =>
    rw [outcome_build, hextract] at h
    cases h
  | ok found =>
    rw [outcome_build_extracted hextract] at h
    rcases bind_eq_ok_iff.mp h with ⟨elements, helements, h⟩
    rcases map_eq_ok_iff.mp h with ⟨rest, hrest, rfl⟩
    exact ⟨found, elements, rest, rfl, helements, mapError_eq_ok_iff.mp hrest, rfl⟩

/-- A note has a document with these elements, or the pipes of its header have a fault, which they
have whatever stands in the body. -/
def Finishes (settings : Settings) (mode : Mode) (elements : List Value) (note : Text) : Prop :=
  (∃ d, (compile settings mode note).outcome = .ok d ∧
    d.get? "elements" = some (.list elements)) ∨
  ∃ found f, (Header.extract note).outcome = .ok found ∧ headed settings found.1 = .error f ∧
    (compile settings mode note).outcome = .error (.pipe f)

theorem finishes (h : settings.validateOutput = false) {elements : List Value}
    (hfound : (Header.extract note).outcome = .ok found)
    (helements : (elementsOf settings mode (Header.split note).2).outcome = .ok elements) :
    Finishes settings mode elements note := by
  have hcompile := @outcome_build_extracted _ settings mode _ _ hfound
  rw [← outcome_compile_unchecked h, helements] at hcompile
  cases hheaded : headed settings found.1 with
  | error f =>
    rw [hheaded] at hcompile
    exact Or.inr ⟨found, f, hfound, hheaded, hcompile⟩
  | ok rest =>
    rw [hheaded] at hcompile
    exact Or.inl ⟨_, hcompile, Entries.get?_put_self ..⟩

/-- Two notes with one body and headers that are read come to the same elements, unless the pipes of
a header cannot be compiled, or fail both, with the same breach of the notation at the same place or
with the same fault of a class in the body. Two notes with one block come to the same fields other
than the elements. The version is that of the settings and the elements are those of the body,
whatever the header holds. -/
theorem header_apart_from_body (h : settings.validateOutput = false) (mode : Mode)
    (one other : Text) :
    ((∃ found, (Header.extract one).outcome = .ok found) →
      (∃ found, (Header.extract other).outcome = .ok found) →
      (Header.split one).2 = (Header.split other).2 →
      (∃ elements, (elementsOf settings mode (Header.split one).2).outcome = .ok elements ∧
        Finishes settings mode elements one ∧ Finishes settings mode elements other) ∨
      (∃ e, (compile settings mode one).outcome = .error (.scan e) ∧
        (compile settings mode other).outcome = .error (.scan e)) ∨
      ∃ f, (bodyTexts settings mode (Header.split one).2).findSome? Style.textFault? = some f ∧
        (compile settings mode one).outcome = .error (.style (.cls f)) ∧
        (compile settings mode other).outcome = .error (.style (.cls f))) ∧
    ((Header.split one).1 = (Header.split other).1 → ∀ es es' : Entries,
      (compile settings mode one).outcome = .ok (.map none es) →
      (compile settings mode other).outcome = .ok (.map none es') →
      es.erase "elements" = es'.erase "elements") ∧
    ∀ d, (compile settings mode one).outcome = .ok d →
      (∃ es, d = .map none es) ∧ d.get? "version" = some (.str settings.documentVersion) ∧
      ∃ elements, (elementsOf settings mode (Header.split one).2).outcome = .ok elements ∧
        d.get? "elements" = some (.list elements) := by
  refine ⟨?_, ?_, ?_⟩
  · rintro ⟨found, hfound⟩ ⟨found', hfound'⟩ hbody
    cases helements : (elementsOf settings mode (Header.split one).2).outcome with
    | ok elements =>
      exact Or.inl ⟨elements, rfl, finishes h hfound helements,
        finishes h hfound' (hbody ▸ helements)⟩
    | error f =>
      -- The failure is one of the body, so the header has no part in it.
      have hfails : ∀ {note found}, (Header.extract note).outcome = .ok found →
          (Header.split one).2 = (Header.split note).2 →
          (compile settings mode note).outcome = .error f := by
        intro note found hfound hsame
        rw [outcome_compile_unchecked h, outcome_build_extracted hfound, ← hsame, helements]
        rfl
      rcases failure?_elementsOf settings mode (Header.split one).2 with ⟨e, -, hscan⟩ | hstyle
      · rw [helements] at hscan
        obtain rfl : f = .scan e := Option.some.inj hscan
        exact Or.inr (Or.inl ⟨e, hfails hfound rfl, hfails hfound' hbody⟩)
      · rw [helements] at hstyle
        rcases Option.map_eq_some_iff.mp hstyle.symm with ⟨fault, hfault, rfl⟩
        exact Or.inr (Or.inr ⟨fault, hfault, hfails hfound rfl, hfails hfound' hbody⟩)
  · intro hblock es es' hone hother
    rw [outcome_compile_unchecked h] at hone hother
    rcases extract_of_build hone with ⟨found, elements, rest, hfound, -, hrest, hes⟩
    rcases extract_of_build hother with ⟨found', elements', rest', hfound', -, hrest', hes'⟩
    have hfields := Header.fields_of_extract hfound
    rw [hblock, Header.fields_of_extract hfound'] at hfields
    rw [← Except.ok.inj hfields, hrest'] at hrest
    cases hes
    cases hes'
    rw [Entries.erase_put, Entries.erase_put, Except.ok.inj hrest]
  · intro d hd
    rw [outcome_compile_unchecked h] at hd
    rcases extract_of_build hd with ⟨found, elements, rest, hfound, helements, hrest, rfl⟩
    refine ⟨⟨_, rfl⟩, ?_, elements, helements, Entries.get?_put_self ..⟩
    exact (Entries.get?_put_ne (by decide) _ _).trans
      (get?_version (Header.settable_of_extract hfound) hrest)

end Separate

section Forged

open scoped CallStack.Standard

/-- A rule under a header that names the version and the elements. -/
def forgedNote : Text := "---\nversion: 2\nelements: [x]\ntitle: t\n---\n[hr]".toList

/-- The rule has the elements that it has without the header, and the version is not touched. -/
theorem header_apart_from_body_forged :
    ∃ d d' elements, (compile {} .strict forgedNote).outcome = .ok d ∧
      (compile {} .strict ['[', 'h', 'r', ']']).outcome = .ok d' ∧
      d.get? "elements" = some elements ∧ d'.get? "elements" = some elements ∧
      d.get? "version" = some (.str "1.1.0") := by
  have hextract : (failure? (Header.extract forgedNote).outcome).isNone := by decide +kernel
  have hcompile : (failure? (compile {} .strict forgedNote).outcome).isNone := by decide +kernel
  have hrule : (failure? (compile {} .strict ['[', 'h', 'r', ']']).outcome).isNone := rfl
  have hapart := @header_apart_from_body _ {} rfl .strict forgedNote ['[', 'h', 'r', ']']
  rcases hapart.1 (exists_ok_of_isNone hextract) ⟨_, rfl⟩
    (by decide +kernel) with ⟨elements, -, hone, hother⟩ | ⟨e, he, -⟩ | ⟨f, -, hf, -⟩
  · rcases hone with ⟨d, hd, hsame⟩ | ⟨-, f, -, -, hf⟩
    · rcases hother with ⟨d', hd', hsame'⟩ | ⟨-, f, -, -, hf⟩
      · exact ⟨d, d', .list elements, hd, hd', hsame, hsame', (hapart.2.2 d hd).2.1⟩
      · rw [hf] at hrule
        cases hrule
    · rw [hf] at hcompile
      cases hcompile
  · rw [he] at hcompile
    cases hcompile
  · rw [hf] at hcompile
    cases hcompile

/-- A class whose number is none is no breach of the notation, and yet there is no document. -/
theorem header_apart_from_body_superscript :
    (∃ found, (Header.extract ['[', 'h', 'r', ' ', 'c', 'l', 'a', 's', 's', '=', '"', 'z', '-',
      '²', '"', ']']).outcome = .ok found) ∧
    (compile {} .strict ['[', 'h', 'r', ' ', 'c', 'l', 'a', 's', 's', '=', '"', 'z', '-', '²', '"',
      ']']).outcome = .error (.style (.cls (.digits ['²']))) :=
  ⟨⟨_, rfl⟩, rfl⟩

end Forged

end Document

end Notemark
