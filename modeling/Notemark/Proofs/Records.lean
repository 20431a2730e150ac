import Notemark.Proofs.Entries
import Notemark.Schema.Document

/-!
# Records without issues

What it takes for a value to have no issues, in terms of its fields:

* `recordIssues_eq_nil`: a record,
* `brokenRule?_eq_none`: the rules of a type,
* `elementIssues_eq_nil`: an element,
* `isValid_plain`: a document of elements.
-/

namespace Notemark.Schema

/-! ## Records -/

section Records

variable {check : Value → List Issue} {checkEntry : Scalar → Value → List Issue}
  {fields : List Field} {es : Entries}

theorem itemIssues_eq_nil {index : Nat} {vs : List Value} :
    itemIssues check index vs = [] ↔ ∀ v ∈ vs, check v = [] := by
  induction vs generalizing index with
  | nil => simp [itemIssues]
  | cons v vs ih => simp [itemIssues, ih]

theorem mappingIssues_eq_nil (h : ∀ e ∈ es, ∃ name, e.1 = .str name) (label : Option Nat) :
    mappingIssues check (.map label es) = [] ↔ ∀ e ∈ es, check e.2 = [] := by
  rw [mappingIssues, List.flatMap_eq_nil_iff]
  constructor
  · intro hall e he
    exact List.map_eq_nil_iff.mp (List.append_eq_nil_iff.mp (hall e he)).2
  · intro hall e he
    rcases h e he with ⟨name, hname⟩
    rw [entryIssues, hall e he, hname]
    rfl

theorem eitherIssues_eq_nil {one other : String × List Issue} :
    eitherIssues one other = [] ↔ one.2 = [] ∨ other.2 = [] := by
  rw [eitherIssues]
  split
  · next h => simpa using h
  · next h =>
    have hnot : ¬ (one.2 = [] ∨ other.2 = []) := by simpa using h
    constructor
    · intro happend
      exact Or.inl (List.map_eq_nil_iff.mp (List.append_eq_nil_iff.mp happend).1)
    · intro hor
      exact absurd hor hnot

/-- The issues of the entries of a mapping. -/
def reportOf (checkEntry : Scalar → Value → List Issue) (es : Entries) : Report :=
  es.map fun e => (e.1, checkEntry e.1 e.2)

theorem get?_reportOf (es : Entries) (name : String) :
    (reportOf checkEntry es).get? name = (es.get? name).map (checkEntry (.str name)) := by
  induction es with
  | nil => rfl
  | cons e es ih =>
    rw [Entries.get?_cons]
    by_cases he : e.1 = .str name
    · simp [reportOf, Report.get?, Scalar.sameKey_str, he]
    · rw [if_neg he, ← ih]
      simp [reportOf, Report.get?, Scalar.sameKey_str, he]

/-- A key that ends the check of a record is not declared, and not allowed. -/
theorem brokenKey?_reportOf {key : Scalar} (h : (reportOf checkEntry es).brokenKey? = some key) :
    ∃ e ∈ es, isDeclared fields e.1 = false ∧ checkEntry e.1 e.2 ≠ [] := by
  rcases Option.map_eq_some_iff.mp h with ⟨reported, hfind, -⟩
  have hbroken := List.find?_some hfind
  rcases List.mem_map.mp (List.mem_of_find?_eq_some hfind) with ⟨e, he, rfl⟩
  rw [Bool.and_eq_true, Bool.not_eq_true', Bool.not_eq_true', List.isEmpty_eq_false_iff] at hbroken
  refine ⟨e, he, ?_, hbroken.2⟩
  -- Declared names are texts.
  have hname : ∀ name, e.1 ≠ .str name := by
    rintro name hname
    rw [hname] at hbroken
    cases hbroken.1
  simpa [isDeclared, Scalar.sameKey_str] using fun (f : Field) _ => hname f.name

/-- A record has no issues if its declared fields have none, none that is required is missing, and
the other entries have none. -/
theorem recordIssues_eq_nil {record : Value} :
    recordIssues fields record (reportOf checkEntry es) = [] ↔
      (∀ f ∈ fields, ∀ v, es.get? f.name = some v → checkEntry (.str f.name) v = []) ∧
      (∀ f ∈ fields, f.required = true → es.get? f.name ≠ none) ∧
      ∀ e ∈ es, isDeclared fields e.1 = false → checkEntry e.1 e.2 = [] := by
  have hfields : fields.flatMap (fieldIssues record (reportOf checkEntry es)) = [] ↔
      (∀ f ∈ fields, ∀ v, es.get? f.name = some v → checkEntry (.str f.name) v = []) ∧
      (∀ f ∈ fields, f.required = true → es.get? f.name ≠ none) := by
    have hfield : ∀ f, fieldIssues record (reportOf checkEntry es) f = [] ↔
        (∀ v, es.get? f.name = some v → checkEntry (.str f.name) v = []) ∧
        (f.required = true → es.get? f.name ≠ none) := by
      intro f
      rw [fieldIssues, get?_reportOf]
      cases hget : Entries.get? es f.name with
      | none => cases f.required <;> simp
      | some v => simp
    simp only [List.flatMap_eq_nil_iff, hfield]
    exact ⟨fun h => ⟨fun f hf => (h f hf).1, fun f hf => (h f hf).2⟩,
      fun h f hf => ⟨h.1 f hf, h.2 f hf⟩⟩
  have hothers : (((reportOf checkEntry es).filter fun e => !isDeclared fields e.1).flatMap fun e =>
        e.2.map (Issue.under (.ofKey e.1))) = [] ↔
      ∀ e ∈ es, isDeclared fields e.1 = false → checkEntry e.1 e.2 = [] := by
    simp only [List.flatMap_eq_nil_iff, List.map_eq_nil_iff, reportOf, List.mem_filter,
      List.mem_map, Bool.not_eq_true']
    constructor
    · intro h e he hdeclared
      exact h _ ⟨⟨e, he, rfl⟩, hdeclared⟩
    · rintro h _ ⟨⟨e, he, rfl⟩, hdeclared⟩
      exact h e he hdeclared
  cases hbroken : (reportOf checkEntry es).brokenKey? with
  | none => rw [recordIssues, hbroken, List.append_eq_nil_iff, hfields, hothers, and_assoc]
  | some key =>
    rcases @brokenKey?_reportOf _ fields _ _ hbroken with ⟨e, he, hdeclared, hissues⟩
    rw [recordIssues, hbroken]
    exact iff_of_false (List.cons_ne_nil _ _) fun h => hissues (h.2.2 e he hdeclared)

end Records

/-! ## Elements -/

/-- The issues of one entry of an element. -/
def elementFieldIssues (key : Scalar) (v : Value) : List Issue :=
  if key = .str "content" then
    match v with
    | .list items | .tuple items => contentIssues 0 items
    | .scalar .null => []
    | v => [⟨.list, [], v⟩]
  else if key = .str "elements" then
    match v with
    | .list items | .tuple items => elementsIssues 0 items
    | .scalar .null => []
    | v => [⟨.list, [], v⟩]
  else plainFieldIssues key v

theorem elementFieldIssues_plain {name : String} (hcontent : name ≠ "content")
    (helements : name ≠ "elements") (v : Value) :
    elementFieldIssues (.str name) v = plainFieldIssues (.str name) v := by
  unfold elementFieldIssues
  rw [if_neg (by simpa using hcontent), if_neg (by simpa using helements)]

theorem plainFieldIssues_string {name : String} (h : name ∈ elementStrings) (v : Value) :
    plainFieldIssues (.str name) v = optional (issuesOf string) v := by
  simp only [elementStrings, List.mem_cons, List.not_mem_nil, or_false] at h
  rcases h with rfl | rfl | rfl | rfl | rfl | rfl | rfl <;> rfl

theorem nonEmptyIssues_str {s : String} : nonEmptyIssues (.str s) = [] ↔ s ≠ "" := by
  change (if s.isEmpty then _ else _) = [] ↔ _
  by_cases hs : s = ""
  · simp [hs]
  · simp [hs, String.isEmpty_iff]

theorem elementReport_eq (es : Entries) : elementReport es = reportOf elementFieldIssues es := by
  induction es with
  | nil => rw [elementReport]; rfl
  | cons e es ih =>
    rcases e with ⟨key, v⟩
    have hfirst : elementReport ((key, v) :: es) =
        (key, elementFieldIssues key v) :: elementReport es := by
      cases v with
      | scalar x => cases x <;> rfl
      | _ => rfl
    rw [hfirst, ih]
    rfl

theorem contentIssues_eq_nil {index : Nat} {vs : List Value} :
    contentIssues index vs = [] ↔ ∀ v ∈ vs, issuesOf string v = [] ∨ elementIssues v = [] := by
  induction vs generalizing index with
  | nil => simp [contentIssues]
  | cons v vs ih => simp [contentIssues, ih, eitherIssues_eq_nil]

theorem elementsIssues_eq_nil {index : Nat} {vs : List Value} :
    elementsIssues index vs = [] ↔ ∀ v ∈ vs, elementIssues v = [] := by
  induction vs generalizing index with
  | nil => simp [elementsIssues]
  | cons v vs ih => simp [elementsIssues, ih]

theorem brokenRule?_eq_none {type : String} {es : Entries} :
    brokenRule? type es = none ↔
      (∀ name ∈ neededFields type, isGiven es name = true) ∧
      (needsElements type = true → isGiven es "elements" = true) ∧
      (type = "json" → namesVariable es = true) := by
  have hneeded : ((neededFields type).find? fun name => !isGiven es name) = none ↔
      ∀ name ∈ neededFields type, isGiven es name = true := by
    simp [List.find?_eq_none]
  rw [← hneeded, brokenRule?]
  cases (neededFields type).find? fun name => !isGiven es name with
  | some name => simp
  | none =>
    dsimp only
    split
    · next h => simp_all
    · next h =>
      split
      · next h' => simp_all
      · next h' => simp_all

/-- An entry that is not declared is an issue. -/
theorem elementFieldIssues_undeclared {key : Scalar} (h : isDeclared elementFields key = false)
    (v : Value) : elementFieldIssues key v ≠ [] := by
  cases key with
  | str name =>
    have hne : ∀ f ∈ elementFields, name ≠ f.name := by
      intro f hf heq
      have hfalse := List.any_eq_false.mp h f hf
      simp [Scalar.sameKey_str, heq] at hfalse
    have hstrings : elementStrings.contains name = false := by
      rw [List.contains_eq_mem, decide_eq_false_iff_not]
      intro hmem
      have hfield : ∀ n ∈ elementStrings, ⟨n, false⟩ ∈ elementFields := by decide
      exact hne _ (hfield name hmem) rfl
    rw [elementFieldIssues_plain (hne ⟨"content", false⟩ (by decide))
      (hne ⟨"elements", false⟩ (by decide))]
    unfold plainFieldIssues
    split
    · next heq => exact absurd (Scalar.str.inj heq) (hne ⟨"type", true⟩ (by decide))
    · next heq => exact absurd (Scalar.str.inj heq) (hne ⟨"attributes", false⟩ (by decide))
    · next heq => exact absurd (Scalar.str.inj heq) (hne ⟨"style", false⟩ (by decide))
    · next heq =>
      rw [← Scalar.str.inj heq, hstrings]
      simp [otherIssues]
    · next hstr => exact absurd rfl (hstr name)
  | _ => simp [elementFieldIssues, plainFieldIssues, otherIssues]

theorem elementIssues_eq_nil {label : Option Nat} {es : Entries} :
    elementIssues (.map label es) = [] ↔
      (∀ e ∈ es, isDeclared elementFields e.1 = true) ∧
      (∀ f ∈ elementFields, ∀ v, es.get? f.name = some v →
        elementFieldIssues (.str f.name) v = []) ∧
      es.get? "type" ≠ none ∧ brokenRule? (typeOf es) es = none := by
  have hrecord : recordIssues elementFields (.map label es) (elementReport es) = [] ↔
      (∀ e ∈ es, isDeclared elementFields e.1 = true) ∧
      (∀ f ∈ elementFields, ∀ v, es.get? f.name = some v →
        elementFieldIssues (.str f.name) v = []) ∧
      es.get? "type" ≠ none := by
    rw [elementReport_eq, recordIssues_eq_nil]
    constructor
    · rintro ⟨hfields, hrequired, hothers⟩
      refine ⟨?_, hfields, hrequired ⟨"type", true⟩ List.mem_cons_self rfl⟩
      intro e he
      cases hdeclared : isDeclared elementFields e.1 with
      | true => rfl
      | false => exact absurd (hothers e he hdeclared) (elementFieldIssues_undeclared hdeclared e.2)
    · rintro ⟨hdeclared, hfields, htype⟩
      refine ⟨hfields, ?_, ?_⟩
      · -- Only the type of an element is required.
        intro f hf hrequired
        have hname : f.name = "type" := by
          have hall : ∀ f ∈ elementFields, f.required = true → f.name = "type" := by decide
          exact hall f hf hrequired
        rwa [hname]
      · intro e he hundeclared
        rw [hdeclared e he] at hundeclared
        simp at hundeclared
  have hrule : ruleIssues (.map label es) es = [] ↔ brokenRule? (typeOf es) es = none := by
    rw [ruleIssues]
    cases brokenRule? (typeOf es) es <;> simp
  -- The rules of the type are looked at only if the fields have no issues.
  rw [elementIssues]
  split
  · next h =>
    have hall := hrecord.mp (List.isEmpty_iff.mp h)
    rw [hrule]
    exact ⟨fun hbroken => ⟨hall.1, hall.2.1, hall.2.2, hbroken⟩, fun hevery => hevery.2.2.2⟩
  · next h =>
    have hnot : recordIssues elementFields (.map label es) (elementReport es) ≠ [] := by
      simpa using h
    constructor
    · intro hnil
      exact absurd hnil hnot
    · rintro ⟨hdeclared, hfields, htype, -⟩
      exact absurd (hrecord.mpr ⟨hdeclared, hfields, htype⟩) hnot

/-! ## Documents -/

/-- A document that has nothing but its version and its elements. -/
theorem isValid_plain (version : String) (elements : List Value) :
    isValid (.object [("version", .str version), ("elements", .list elements)]) = true ↔
      ∀ v ∈ elements, elementIssues v = [] := by
  have hreport :
      documentIssues (.object [("version", .str version), ("elements", .list elements)]) =
      recordIssues documentFields _ (reportOf documentFieldIssues
        [(.str "version", .str version), (.str "elements", .list elements)]) := rfl
  have hlist : documentFieldIssues (.str "elements") (.list elements) = [] ↔
      ∀ v ∈ elements, elementIssues v = [] := itemIssues_eq_nil
  rw [isValid, List.isEmpty_iff, hreport, recordIssues_eq_nil, ← hlist]
  constructor
  · rintro ⟨hfields, -, -⟩
    exact hfields ⟨"elements", true⟩ (by decide) _ (by simp [Entries.get?_cons])
  · intro helements
    refine ⟨?_, ?_, ?_⟩
    · intro f _ v hget
      rcases List.mem_cons.mp (Entries.mem_of_get? hget) with hentry | hentry
      · rw [Prod.mk.inj hentry |>.1, Prod.mk.inj hentry |>.2]
        rfl
      · rw [Prod.mk.inj (List.mem_singleton.mp hentry) |>.1,
          Prod.mk.inj (List.mem_singleton.mp hentry) |>.2]
        exact helements
    · -- Both fields that a document needs are there.
      intro f hf hrequired
      have hall : ∀ f ∈ documentFields, f.required = true →
          f.name = "version" ∨ f.name = "elements" := by decide
      rcases hall f hf hrequired with hname | hname
      · simp [hname, Entries.get?_cons]
      · simp [hname, Entries.get?_cons]
    · intro e he hundeclared
      rcases List.mem_cons.mp he with rfl | he
      · exact absurd hundeclared
          (show ¬ isDeclared documentFields (.str "version") = false by decide)
      · rw [List.mem_singleton.mp he] at hundeclared
        exact absurd hundeclared
          (show ¬ isDeclared documentFields (.str "elements") = false by decide)

end Notemark.Schema
