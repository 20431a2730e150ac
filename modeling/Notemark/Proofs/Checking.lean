import Notemark.Proofs.Building
import Notemark.Proofs.Records
import Notemark.Proofs.Writable

/-!
# Checked documents

A document that does not satisfy the schema gives way to one that shows its issues, if the issues
can be written down.

* `Value.Part`, `Schema.showParts_documentIssues`: issues show parts of a document,
* `Schema.showable_documentIssues`: what can be written has issues that can be written,
* `isValid_fallback`: the document that shows issues satisfies the schema,
* `outcome_validated_valid`, `outcome_validated_invalid`: what the check comes to,
* `checked_document_iff`: what compiling with the check comes to, given what it comes to without.
-/

namespace Notemark

/-! ## Parts of a value -/

namespace Value

/-- A part of a value: the value itself, or a part of something in it. Keys and members count. -/
inductive Part : Value → Value → Prop where
  | refl (v : Value) : Part v v
  | item {w x : Value} {xs : List Value} (hx : x ∈ xs) (h : Part w x) : Part w (.list xs)
  | component {w x : Value} {xs : List Value} (hx : x ∈ xs) (h : Part w x) : Part w (.tuple xs)
  | member {m : Scalar} {ms : List Scalar} (hm : m ∈ ms) : Part (.scalar m) (.set ms)
  | key {label : Option Nat} {es : Entries} {e : Scalar × Value} (he : e ∈ es) :
    Part (.scalar e.1) (.map label es)
  | entry {w : Value} {label : Option Nat} {es : Entries} {e : Scalar × Value} (he : e ∈ es)
    (h : Part w e.2) : Part w (.map label es)

variable {u v w : Value}

theorem Part.trans (h : Part u v) (h' : Part v w) : Part u w := by
  induction h' with
  | refl => exact h
  | item hx _ ih => exact .item hx (ih h)
  | component hx _ ih => exact .component hx (ih h)
  | member hm => cases h; exact .member hm
  | key he => cases h; exact .key he
  | entry he _ ih => exact .entry he (ih h)

/-- What can be written has parts that can be written. -/
theorem Part.writable (h : Part w v) (hv : v.writable = true) : w.writable = true := by
  induction h with
  | refl => exact hv
  | item hx _ ih | component hx _ ih =>
    rw [Value.writable, writableItems_iff] at hv
    exact ih (hv _ hx)
  | member hm =>
    simp only [Value.writable, Bool.not_eq_true', List.any_eq_false] at hv ⊢
    simpa using hv _ hm
  | key he =>
    rw [Value.writable, writableEntries_iff] at hv
    rw [Value.writable, Scalar.isLong_of_isWritableKey (hv _ he).1]
    rfl
  | entry he _ ih =>
    rw [Value.writable, writableEntries_iff] at hv
    exact ih (hv _ he).2

/-- A part is not nested more deeply than the whole. -/
theorem Part.depth_le (h : Part w v) : w.depth ≤ v.depth := by
  induction h with
  | refl => exact Nat.le_refl _
  | item hx _ ih | component hx _ ih =>
    exact Nat.le_succ_of_le (Nat.le_trans ih (depthItems_le_iff.mp (Nat.le_refl _) _ hx))
  | member | key => exact Nat.zero_le _
  | entry he _ ih =>
    exact Nat.le_succ_of_le (Nat.le_trans ih (depthEntries_le_iff.mp (Nat.le_refl _) _ he))

end Value

/-! ## What issues show -/

namespace Schema

open Value (Part)

/-- All issues show parts of a value. -/
def ShowParts (d : Value) (issues : List Issue) : Prop := ∀ i ∈ issues, Part i.input d

section ShowParts

variable {d v : Value} {issues more : List Issue} {check : Value → List Issue}

theorem showParts_nil : ShowParts d [] := by simp [ShowParts]

theorem showParts_singleton {i : Issue} (h : Part i.input d) : ShowParts d [i] := by
  simpa [ShowParts] using h

theorem ShowParts.append (h : ShowParts d issues) (hmore : ShowParts d more) :
    ShowParts d (issues ++ more) := by
  intro i hi
  rcases List.mem_append.mp hi with hi | hi
  · exact h i hi
  · exact hmore i hi

/-- Where an issue is seen from does not change what it shows. -/
theorem ShowParts.under (h : ShowParts d issues) (p : Place) :
    ShowParts d (issues.map (Issue.under p)) := by
  intro i hi
  rcases List.mem_map.mp hi with ⟨j, hj, rfl⟩
  exact h j hj

theorem showParts_flatMap {α : Type} {l : List α} {f : α → List Issue}
    (h : ∀ a ∈ l, ShowParts d (f a)) : ShowParts d (l.flatMap f) := by
  intro i hi
  rcases List.mem_flatMap.mp hi with ⟨a, ha, hi⟩
  exact h a ha i hi

theorem showParts_issuesOf {α : Type} (test : Value → Except Breach α) (h : Part v d) :
    ShowParts d (issuesOf test v) := by
  rw [issuesOf]
  split
  · exact showParts_nil
  · exact showParts_singleton h

theorem showParts_nonEmptyIssues (h : Part v d) : ShowParts d (nonEmptyIssues v) := by
  rw [nonEmptyIssues.eq_def]
  split
  · exact showParts_singleton h
  · split
    · exact showParts_singleton h
    · split
      · exact showParts_singleton h
      · exact showParts_nil

theorem showParts_optional (h : ShowParts d (check v)) : ShowParts d (optional check v) := by
  rw [optional.eq_def]
  split
  · exact showParts_nil
  · exact h

theorem showParts_itemIssues {vs : List Value} (h : ∀ v ∈ vs, ShowParts d (check v)) (index : Nat) :
    ShowParts d (itemIssues check index vs) := by
  induction vs generalizing index with
  | nil => exact showParts_nil
  | cons v vs ih =>
    rw [itemIssues]
    exact ((h v List.mem_cons_self).under _).append
      (ih (fun w hw => h w (List.mem_cons_of_mem v hw)) (index + 1))

theorem showParts_otherIssues {key : Scalar} (others : Others) (hkey : Part (.scalar key) d)
    (h : Part v d) : ShowParts d (otherIssues others key v) := by
  rw [otherIssues.eq_def]
  split
  · exact showParts_nil
  · exact showParts_singleton h
  · exact showParts_singleton hkey

theorem parts_of_map {label : Option Nat} {es : Entries} (h : Part (.map label es) d) :
    ∀ e ∈ es, Part (.scalar e.1) d ∧ Part e.2 d := fun e he =>
  ⟨Part.trans (.key he) h, Part.trans (.entry he (.refl e.2)) h⟩

/-- The report of a record shows the record, its keys, and what the reports of its entries show. -/
theorem showParts_recordIssues {fields : List Field} {report : Report} (h : Part v d)
    (hreport : ∀ e ∈ report, Part (.scalar e.1) d ∧ ShowParts d e.2) :
    ShowParts d (recordIssues fields v report) := by
  rw [recordIssues]
  split
  · next key hbroken =>
    rcases Option.map_eq_some_iff.mp hbroken with ⟨e, he, rfl⟩
    exact showParts_singleton (hreport e (List.mem_of_find?_eq_some he)).1
  · refine (showParts_flatMap ?_).append (showParts_flatMap ?_)
    · intro f _
      rw [fieldIssues]
      split
      · next issues hget =>
        rcases Option.map_eq_some_iff.mp hget with ⟨e, he, rfl⟩
        exact (hreport e (List.mem_of_find?_eq_some he)).2.under _
      · split
        · exact showParts_singleton h
        · exact showParts_nil
    · intro e he
      exact (hreport e (List.mem_filter.mp he).1).2.under _

/-- The same for a record that is checked entry by entry. -/
theorem showParts_reportOf {fields : List Field} (checkEntry : Scalar → Value → List Issue)
    {label : Option Nat} {es : Entries} (h : Part (.map label es) d)
    (hentry : ∀ key w, Part (.scalar key) d → Part w d → ShowParts d (checkEntry key w)) :
    ShowParts d (recordIssues fields (.map label es) (reportOf checkEntry es)) := by
  apply showParts_recordIssues h
  intro r hr
  rcases List.mem_map.mp hr with ⟨e, he, rfl⟩
  rcases parts_of_map h e he with ⟨hkey, hvalue⟩
  exact ⟨hkey, hentry e.1 e.2 hkey hvalue⟩

theorem showParts_eitherIssues {one other : String × List Issue} (hone : ShowParts d one.2)
    (hother : ShowParts d other.2) : ShowParts d (eitherIssues one other) := by
  rw [eitherIssues]
  split
  · exact showParts_nil
  · exact (hone.under _).append (hother.under _)

theorem parts_of_sequence? {items : List Value} (h : Part v d)
    (hitems : sequence? v = some items) : ∀ item ∈ items, Part item d := by
  rw [sequence?.eq_def] at hitems
  split at hitems
  · cases hitems
    exact fun item hitem => Part.trans (.item hitem (.refl item)) h
  · cases hitems
    exact fun item hitem => Part.trans (.component hitem (.refl item)) h
  · next members =>
    cases hitems
    intro item hitem
    rcases List.mem_map.mp hitem with ⟨m, hm, rfl⟩
    exact Part.trans (.member hm) h
  · cases hitems

theorem showParts_listIssues (h : Part v d)
    (hcheck : ∀ w : Value, Part w d → ShowParts d (check w)) :
    ShowParts d (listIssues check v) := by
  rw [listIssues]
  split
  · next items hitems =>
    exact showParts_itemIssues (fun w hw => hcheck w (parts_of_sequence? h hitems w hw)) 0
  · exact showParts_singleton h

theorem showParts_mappingIssues (h : Part v d)
    (hcheck : ∀ w : Value, Part w d → ShowParts d (check w)) :
    ShowParts d (mappingIssues check v) := by
  rw [mappingIssues.eq_def]
  split
  · next label es =>
    apply showParts_flatMap
    intro e he
    rcases parts_of_map h e he with ⟨hkey, hvalue⟩
    have hname := showParts_issuesOf string hkey
    refine ShowParts.append ?_ ((hcheck e.2 hvalue).under _)
    intro i hi
    rcases List.mem_map.mp hi with ⟨j, hj, rfl⟩
    exact hname j hj
  · exact showParts_singleton h

end ShowParts

/-! ## Elements and documents -/

section Elements

variable {d : Value}

theorem showParts_plainFieldIssues {key : Scalar} {v : Value} (hkey : Part (.scalar key) d)
    (h : Part v d) : ShowParts d (plainFieldIssues key v) := by
  have hstring : ∀ w : Value, Part w d → ShowParts d (issuesOf string w) :=
    fun w hw => showParts_issuesOf string hw
  rw [plainFieldIssues.eq_def]
  split
  · exact showParts_nonEmptyIssues h
  · exact showParts_optional (showParts_mappingIssues h hstring)
  · exact showParts_optional (showParts_mappingIssues h fun _ _ => showParts_nil)
  · split
    · exact showParts_optional (hstring v h)
    · exact showParts_otherIssues .forbidden hkey h
  · exact showParts_otherIssues .forbidden hkey h

/-- What an element may have elements in. -/
def itemsIn : Value → List Value
  | .list items | .tuple items => items
  | _ => []

/-- A field of an element shows parts, if the elements in it do. -/
theorem showParts_elementFieldIssues {key : Scalar} {v : Value} (hkey : Part (.scalar key) d)
    (h : Part v d) (hcontent : ShowParts d (contentIssues 0 (itemsIn v)))
    (helements : ShowParts d (elementsIssues 0 (itemsIn v))) :
    ShowParts d (elementFieldIssues key v) := by
  rw [elementFieldIssues.eq_def]
  split
  · split
    · exact hcontent
    · exact hcontent
    · exact showParts_nil
    · exact showParts_singleton h
  · split
    · split
      · exact helements
      · exact helements
      · exact showParts_nil
      · exact showParts_singleton h
    · exact showParts_plainFieldIssues hkey h

mutual

theorem showParts_elementIssues : (v : Value) → Part v d → ShowParts d (elementIssues v)
  | .map label es, h => by
    have hreport := showParts_elementReport es (parts_of_map h)
    rw [elementIssues]
    split
    · rw [ruleIssues]
      split
      · exact showParts_singleton h
      · exact showParts_nil
    · exact showParts_recordIssues h hreport
  | .scalar _, h | .list _, h | .tuple _, h | .set _, h | .backRef _, h =>
    show ShowParts d [⟨.record "Element", [], _⟩] from showParts_singleton h

theorem showParts_elementReport : (es : List (Scalar × Value)) →
    (∀ e ∈ es, Part (.scalar e.1) d ∧ Part e.2 d) →
    ∀ e ∈ elementReport es, Part (.scalar e.1) d ∧ ShowParts d e.2
  | [], _ => by simp [elementReport]
  | (key, v) :: es, h => by
    rw [List.forall_mem_cons] at h
    rw [elementReport_eq]
    intro e he
    rcases List.mem_cons.mp he with rfl | he
    · have hinside := showParts_itemsIn v h.1.2
      exact ⟨h.1.1, showParts_elementFieldIssues h.1.1 h.1.2 hinside.1 hinside.2⟩
    · exact showParts_elementReport es h.2 e ((elementReport_eq es).symm ▸ he)

theorem showParts_itemsIn : (v : Value) → Part v d →
    ShowParts d (contentIssues 0 (itemsIn v)) ∧ ShowParts d (elementsIssues 0 (itemsIn v))
  | .list items, h =>
    have hitems : ∀ v ∈ items, Part v d := fun v hv => Part.trans (.item hv (.refl v)) h
    ⟨showParts_contentIssues 0 items hitems, showParts_elementsIssues 0 items hitems⟩
  | .tuple items, h =>
    have hitems : ∀ v ∈ items, Part v d := fun v hv => Part.trans (.component hv (.refl v)) h
    ⟨showParts_contentIssues 0 items hitems, showParts_elementsIssues 0 items hitems⟩
  | .scalar _, _ | .set _, _ | .map .., _ | .backRef _, _ => ⟨showParts_nil, showParts_nil⟩

theorem showParts_elementsIssues (index : Nat) : (vs : List Value) →
    (∀ v ∈ vs, Part v d) → ShowParts d (elementsIssues index vs)
  | [], _ => by rw [elementsIssues]; exact showParts_nil
  | v :: vs, h => by
    rw [List.forall_mem_cons] at h
    rw [elementsIssues]
    exact ((showParts_elementIssues v h.1).under _).append
      (showParts_elementsIssues (index + 1) vs h.2)

theorem showParts_contentIssues (index : Nat) : (vs : List Value) →
    (∀ v ∈ vs, Part v d) → ShowParts d (contentIssues index vs)
  | [], _ => by rw [contentIssues]; exact showParts_nil
  | v :: vs, h => by
    rw [List.forall_mem_cons] at h
    rw [contentIssues]
    exact ((showParts_eitherIssues (showParts_issuesOf string h.1)
      (showParts_elementIssues v h.1)).under _).append (showParts_contentIssues (index + 1) vs h.2)

end

theorem showParts_operationIssues {v : Value} (h : Part v d) :
    ShowParts d (operationIssues v) := by
  rw [operationIssues.eq_def]
  split
  · apply showParts_reportOf
      (fun key w => if key = .str "op" then nonEmptyIssues w else otherIssues .allowed key w) h
    intro key w hkey hw
    split
    · exact showParts_nonEmptyIssues hw
    · exact showParts_otherIssues .allowed hkey hw
  · exact showParts_singleton h

theorem showParts_definitionRecordIssues {v : Value} (h : Part v d) :
    ShowParts d (definitionRecordIssues v) := by
  rw [definitionRecordIssues.eq_def]
  split
  · apply showParts_reportOf
      (fun key w =>
        if key = .str "pipe" then optional (listIssues operationIssues) w
        else otherIssues .allowed key w) h
    intro key w hkey hw
    split
    · exact showParts_optional (showParts_listIssues hw fun u hu => showParts_operationIssues hu)
    · exact showParts_otherIssues .allowed hkey hw
  · exact showParts_singleton h

theorem showParts_definitionIssues {v : Value} (h : Part v d) :
    ShowParts d (definitionIssues v) :=
  showParts_eitherIssues (showParts_definitionRecordIssues h) (showParts_issuesOf string h)

theorem showParts_definitionsIssues (marks : List Char) (complaint : String → String) {v : Value}
    (h : Part v d) : ShowParts d (definitionsIssues marks complaint v) := by
  rw [definitionsIssues]
  split
  · split
    · exact showParts_singleton h
    · exact showParts_nil
  · exact showParts_mappingIssues h fun w hw => showParts_definitionIssues hw

theorem showParts_documentFieldIssues {key : Scalar} {v : Value} (hkey : Part (.scalar key) d)
    (h : Part v d) : ShowParts d (documentFieldIssues key v) := by
  rw [documentFieldIssues.eq_def]
  split
  case h_1 => exact showParts_issuesOf string h
  case h_2 => exact showParts_listIssues h fun w hw => showParts_elementIssues w hw
  case h_3 => exact showParts_optional (showParts_definitionsIssues _ _ h)
  case h_4 => exact showParts_optional (showParts_definitionsIssues _ _ h)
  case h_5 | h_6 => exact showParts_optional (showParts_mappingIssues h fun _ _ => showParts_nil)
  case h_7 => exact showParts_optional (showParts_issuesOf integer h)
  case h_12 => exact showParts_otherIssues .forbidden hkey h
  all_goals exact showParts_optional (showParts_issuesOf string h)

/-- The issues of a document show parts of it. -/
theorem showParts_documentIssues (d : Value) : ShowParts d (documentIssues d) := by
  rw [documentIssues.eq_def]
  split
  · exact showParts_reportOf _ (.refl _) fun key w hkey hw => showParts_documentFieldIssues hkey hw
  · exact showParts_singleton (.refl _)

end Elements

/-! ## Writing issues down -/

/-- All issues can be written down, with room for so many levels of collections. An issue is a
mapping in a list; its place is a list, and it shows a value. -/
def Showable (levels : Nat) (issues : List Issue) : Prop :=
  ∀ i ∈ issues, i.input.writable = true ∧ max 1 i.input.depth + 2 ≤ levels

/-- A document that can be written with two more levels has issues that can be written. -/
theorem showable_documentIssues {levels : Nat} {d : Value} (h : d.writable = true)
    (hlevels : max 1 d.depth + 2 ≤ levels) : Showable levels (documentIssues d) := by
  intro i hi
  have hpart := showParts_documentIssues d i hi
  have hdepth := hpart.depth_le
  exact ⟨hpart.writable h, by omega⟩

theorem natAbs_of_isIndex {i : Int} (h : Place.isIndex i = true) :
    i.natAbs ≤ 9223372036854775808 := by
  have hbound : Place.indexBound = 9223372036854775808 := by decide
  rw [Place.isIndex, Bool.and_eq_true, decide_eq_true_iff, decide_eq_true_iff, hbound] at h
  omega

theorem writable_place (p : Place) : p.toValue.writable = true := by
  cases p with
  | name s => rfl
  | index i =>
    rw [Place.toValue]
    split
    · next h =>
      have hsmall : i.natAbs < 10 ^ Text.mostDigits :=
        calc
          i.natAbs ≤ 9223372036854775808 := natAbs_of_isIndex h
          _ < 10 ^ 20 := by decide
          _ ≤ 10 ^ Text.mostDigits := Nat.pow_le_pow_right (by decide) (by decide)
      have hdigits : (Nat.toDigits 10 i.natAbs).length ≤ Text.mostDigits :=
        (Nat.length_toDigits_le_iff (by decide) (by decide)).mpr hsmall
      simpa [Value.int, Value.writable, Scalar.isLong] using hdigits
    · rfl

theorem writable_object {fields : List (String × Value)} :
    (Value.object fields).writable = true ↔ ∀ f ∈ fields, f.2.writable = true := by
  rw [Value.object, Value.writable, Value.writableEntries_iff]
  constructor
  · intro h f hf
    exact (h _ (List.mem_map_of_mem hf)).2
  · intro h e he
    rcases List.mem_map.mp he with ⟨f, hf, rfl⟩
    exact ⟨rfl, h f hf⟩

/-- An issue can be written exactly if the value that it shows can. -/
theorem writable_toValue (i : Issue) : i.toValue.writable = true ↔ i.input.writable = true := by
  have hplace : (Value.list (i.place.map Place.toValue)).writable = true := by
    rw [Value.writable, Value.writableItems_iff]
    intro v hv
    rcases List.mem_map.mp hv with ⟨p, -, rfl⟩
    exact writable_place p
  have hstr : ∀ s, (Value.str s).writable = true := fun _ => rfl
  rw [Issue.toValue, writable_object]
  constructor
  · intro h
    exact h ("input", i.input) (by simp)
  · intro h f hf
    rcases List.mem_append.mp hf with hf | hf
    · simp only [List.mem_cons, List.not_mem_nil, or_false] at hf
      rcases hf with rfl | rfl | rfl | rfl
      · exact hstr _
      · exact hplace
      · exact hstr _
      · exact h
    · rcases hcontext : i.breach.context? with _ | ⟨name, value⟩
      · simp [hcontext] at hf
      · obtain rfl : f = ("ctx", .object [(name, value)]) := by simpa [hcontext] using hf
        have hvalue : value.writable = true := by
          revert hcontext
          cases i.breach <;> rintro ⟨⟩ <;> rfl
        exact writable_object.mpr (by simpa using hvalue)

theorem depth_object {fields : List (String × Value)} :
    (Value.object fields).depth = Value.depthItems (fields.map (·.2)) + 1 := by
  have hentries : Value.depthEntries (fields.map fun f => (Scalar.str f.1, f.2)) =
      Value.depthItems (fields.map (·.2)) := by
    induction fields with
    | nil => rfl
    | cons f fields ih => rw [List.map_cons, List.map_cons, Value.depthEntries, Value.depthItems, ih]
  rw [Value.object, Value.depth, hentries]

theorem depth_toValue (i : Issue) : i.toValue.depth = max 1 i.input.depth + 1 := by
  have hplace : Value.depthItems (i.place.map Place.toValue) = 0 := by
    rw [← Nat.le_zero, Value.depthItems_le_iff, List.forall_mem_map]
    intro p _
    cases p with
    | name s => exact Nat.le_refl 0
    | index n =>
      rw [Place.toValue]
      split <;> exact Nat.le_refl 0
  have hcontext : ∀ {name value}, i.breach.context? = some (name, value) → value.depth = 0 := by
    intro name value h
    revert h
    cases i.breach <;> rintro ⟨⟩ <;> rfl
  rw [Issue.toValue, depth_object]
  rcases hctx : i.breach.context? with _ | ⟨name, value⟩
  · simp only [List.map_cons, List.map_nil, List.append_nil, Value.depthItems, Value.str,
      Value.depth, hplace]
    omega
  · have hobject : (Value.object [(name, value)]).depth = 1 := by
      rw [depth_object]
      simp [Value.depthItems, hcontext hctx]
    simp only [List.map_cons, List.map_nil, List.cons_append, List.nil_append, Value.depthItems,
      hobject, Value.str, Value.depth, hplace]
    omega

/-- Some issues are nested as deeply as the value that is nested most deeply in them. -/
theorem depth_issues_le_iff {issues : List Issue} (hne : issues ≠ []) {levels : Nat} :
    (Value.list (issues.map Issue.toValue)).depth ≤ levels ↔
      ∀ i ∈ issues, max 1 i.input.depth + 2 ≤ levels := by
  rw [Value.depth]
  cases levels with
  | zero =>
    rcases List.exists_cons_of_ne_nil hne with ⟨first, later, rfl⟩
    refine iff_of_false (Nat.not_succ_le_zero _) fun h => ?_
    exact Nat.not_succ_le_zero _ (h first List.mem_cons_self)
  | succ n =>
    rw [Nat.add_le_add_iff_right, Value.depthItems_le_iff, List.forall_mem_map]
    refine forall₂_congr fun i _ => ?_
    rw [depth_toValue]
    exact Nat.succ_le_succ_iff.symm

/-- Issues can be written down exactly if all of them show a value that can be written. -/
theorem issues_ok_iff (format : JsonFormat) (hplain : format.plainOthers = true)
    {issues : List Issue} (hne : issues ≠ []) :
    (∃ text, (Value.list (issues.map Issue.toValue)).json format = .ok text) ↔
      Showable format.levels issues := by
  rw [Value.json_ok_iff hplain, depth_issues_le_iff hne, Value.writable, Value.writableItems_iff,
    List.forall_mem_map, ← forall₂_and]
  exact forall₂_congr fun i _ => and_congr_left' (writable_toValue i)

end Schema

/-! ## Compiling with the check -/

namespace Document

open Schema (documentIssues isValid Showable)

variable {settings : Settings} {mode : Body.Mode} {note : Text} {d : Value}

/-- A document that shows a text satisfies the schema. -/
theorem isValid_fallback (settings : Settings) (text : String) :
    isValid (fallback settings text) = true := by
  refine (Schema.isValid_plain settings.documentVersion _).mpr ?_
  intro v hv
  obtain rfl := List.mem_singleton.mp hv
  rfl

section Checked

variable [CallStack]

theorem outcome_validated_valid (h : isValid d = true) :
    (validated settings d).outcome = .ok d := by
  rw [validated, List.isEmpty_iff.mp h]
  rfl

/-- A document with issues gives way to one that shows them, if they can be written down. -/
theorem outcome_validated_invalid (h : isValid d = false) :
    (validated settings d).outcome =
      match (Value.list ((documentIssues d).map Schema.Issue.toValue)).json issuesFormat with
      | .ok text => .ok (fallback settings text)
      | .error f => .error (.report f) := by
  rw [validated]
  cases hissues : documentIssues d with
  | nil => simp [isValid, hissues] at h
  | cons i issues =>
    dsimp only
    rw [Run.outcome_bind]
    change (Run.outcome (match Value.json issuesFormat _ with | .ok _ => _ | .error _ => _)) = _
    cases (Value.list ((i :: issues).map Schema.Issue.toValue)).json issuesFormat with
    | ok text => rfl
    | error f => rfl

theorem outcome_compile_checked (h : settings.validateOutput = true) (mode : Body.Mode)
    (note : Text) :
    (compile settings mode note).outcome =
      (build settings mode note).outcome >>= fun d => (validated settings d).outcome := by
  rw [compile, Run.outcome_bind]
  simp only [h, if_true]

/-- A document is a mapping with a version. -/
theorem depth_pos_of_build (h : (build settings mode note).outcome = .ok d) : 1 ≤ d.depth := by
  rw [outcome_build] at h
  rcases bind_eq_ok_iff.mp h with ⟨found, -, h⟩
  rcases bind_eq_ok_iff.mp h with ⟨elements, -, h⟩
  rcases map_eq_ok_iff.mp h with ⟨entries, -, rfl⟩
  exact Nat.succ_le_succ (Nat.zero_le _)

/-- A note with a document has one with the check as well, exactly if the issues of the document
can be written down; so it has if the document can be written down itself, with two more levels.
What comes out satisfies the schema: it is the document if that does, and one that shows its issues
if not. -/
theorem checked_document_iff
    (h : (compile { settings with validateOutput := false } mode note).outcome = .ok d) :
    ((∃ v, (compile { settings with validateOutput := true } mode note).outcome = .ok v) ↔
      Showable CallStack.reports (documentIssues d)) ∧
    (∀ v, (compile { settings with validateOutput := true } mode note).outcome = .ok v →
      isValid v = true ∧ (isValid d = true → v = d) ∧
      (isValid d = false → ∃ text, v = fallback settings text ∧
        (Value.list ((documentIssues d).map Schema.Issue.toValue)).json issuesFormat =
          .ok text)) ∧
    (d.writable = true → d.depth + 2 ≤ CallStack.reports →
      Showable CallStack.reports (documentIssues d)) := by
  rw [outcome_compile_unchecked rfl] at h
  have hchecked : (compile { settings with validateOutput := true } mode note).outcome =
      (validated settings d).outcome := by
    rw [outcome_compile_checked rfl]
    change ((build { settings with validateOutput := false } mode note).outcome >>= _) = _
    rw [h]
    rfl
  rw [hchecked]
  refine ⟨?_, ?_, fun hwritable hdepth => ?_⟩
  · cases hvalid : isValid d with
    | true =>
      have hissues : documentIssues d = [] := List.isEmpty_iff.mp hvalid
      simp [outcome_validated_valid hvalid, hissues, Showable]
    | false =>
      have hne : documentIssues d ≠ [] := List.isEmpty_eq_false_iff.mp hvalid
      rw [outcome_validated_invalid hvalid]
      refine Iff.trans ?_ (Schema.issues_ok_iff issuesFormat rfl hne)
      split
      · next text htext => simp [htext]
      · next f hf => simp [hf]
  · intro v hv
    cases hvalid : isValid d with
    | true =>
      rw [outcome_validated_valid hvalid] at hv
      obtain rfl := Except.ok.inj hv
      exact ⟨hvalid, fun _ => rfl, by simp⟩
    | false =>
      rw [outcome_validated_invalid hvalid] at hv
      split at hv
      · next text htext =>
        obtain rfl := Except.ok.inj hv
        exact ⟨isValid_fallback settings text, by simp, fun _ => ⟨text, rfl, htext⟩⟩
      · cases hv
  · have hpos := depth_pos_of_build h
    exact Schema.showable_documentIssues hwritable (by omega)

end Checked

section Dated

open scoped CallStack.Standard

/-- A date where a number has to stand is an issue that can be shown. -/
theorem checked_document_dated :
    ∃ d, (compile { validateOutput := false } .strict
        "---\nkind: 2024-01-01\n---\nhi".toList).outcome = .ok d ∧ isValid d = false ∧
      ∃ text, (compile { validateOutput := true } .strict
          "---\nkind: 2024-01-01\n---\nhi".toList).outcome = .ok (fallback {} text) ∧
        isValid (fallback {} text) = true := by
  have hdocument : ∃ d ∈ (compile { validateOutput := false } .strict
      "---\nkind: 2024-01-01\n---\nhi".toList).outcome.toOption,
      d.writable = true ∧ d.depth + 2 ≤ 970 ∧ isValid d = false := by decide +kernel
  rcases hdocument with ⟨d, hd, hwritable, hdepth, hvalid⟩
  have hd := toOption_eq_some_iff.mp hd
  have hchecked := @checked_document_iff {} .strict _ d _ hd
  rcases hchecked.1.mpr (hchecked.2.2 hwritable hdepth) with ⟨v, hv⟩
  rcases hchecked.2.1 v hv with ⟨hshown, -, hfallback⟩
  rcases hfallback hvalid with ⟨text, rfl, -⟩
  exact ⟨d, hd, hvalid, text, hv, hshown⟩

/-- A mapping there with a date for a key is an issue that cannot be shown. -/
theorem checked_document_lost :
    (∃ d, (compile { validateOutput := false } .strict
        "---\nkind:\n  2024-01-01: x\n---\nhi".toList).outcome = .ok d) ∧
    ∃ f, (compile { validateOutput := true } .strict
        "---\nkind:\n  2024-01-01: x\n---\nhi".toList).outcome = .error f ∧
      f.message = "keys must be str, int, float, bool or None, not date" := by
  have hdocument : failure? (compile { validateOutput := false } .strict
      "---\nkind:\n  2024-01-01: x\n---\nhi".toList).outcome |>.isNone := by decide +kernel
  have hfailure : ∃ f ∈ failure? (compile { validateOutput := true } .strict
      "---\nkind:\n  2024-01-01: x\n---\nhi".toList).outcome,
      f.message = "keys must be str, int, float, bool or None, not date" := by decide +kernel
  rcases hfailure with ⟨f, hf, hmessage⟩
  exact ⟨exists_ok_of_isNone hdocument, f,
    failure?_eq_some_iff.mp hf, hmessage⟩

end Dated

end Document

end Notemark
