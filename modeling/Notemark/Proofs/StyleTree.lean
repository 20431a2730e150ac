import Notemark.Proofs.Entries
import Notemark.Proofs.Messages
import Notemark.Style.Pass

/-!
# Styled trees

What the style pass does to a tree, as a plain recursion over it:

* `converted`: the entries of an element without its class,
* `fault?`: what is wrong with its class, or with the message about a class that has no style,
* `at?_modifyAt`, `modifyAt_modifyAt`, `at?_modifyAt_ne`: laws of places in a tree,
* `styled`: a tree in which every element is converted, `get?_styled`, `get?_styled_children`: the
  fields of an element in it,
* `visits`: the elements of a tree, in the order in which the pass converts them.
-/

namespace Notemark.Style

/-! ## One element -/

/-- The classes of an element, whatever they are. -/
def classes? (es : Entries) : Option Value :=
  ((es.get? "attributes").bind Value.entries?).bind (·.get? "class")

/-- The text of some classes, if they are a string. -/
def written? : Value → Option Text
  | .scalar (.str s) => some s.toList
  | .scalar (.illFormed codes _) => some (Text.repaired codes)
  | _ => none

/-- The classes of an element, as they are written. -/
def classText? (es : Entries) : Option Text := (classes? es).bind written?

/-- The style of some classes, if there is one. -/
def textStyle? (classes : Text) : Option Properties :=
  match styleOf? classes with
  | .ok style => style
  | .error _ => none

/-- What is wrong with some classes. -/
def textFault? (classes : Text) : Option ClassFault :=
  match styleOf? classes with
  | .ok _ => none
  | .error f => some f

/-- The style that an element gets. -/
def style? (es : Entries) : Option Properties := (classText? es).bind textStyle?

/-- The entries of an element without its class, which becomes its style. -/
def converted (es : Entries) : Entries :=
  match (es.get? "attributes").bind Value.entries? with
  | none => es
  | some attributes =>
    match attributes.get? "class" with
    | none => es
    | some classes =>
      let es :=
        match (written? classes).bind textStyle? with
        | some style => Entries.put "style" style.toValue es
        | none => es
      let attributes := attributes.erase "class"
      if attributes.isEmpty then es.erase "attributes"
      else Entries.put "attributes" (.map none attributes) es

theorem outcome_styleOf (classes : Text) :
    (styleOf classes).outcome = barring (textFault? classes) (textStyle? classes) := by
  unfold styleOf textFault? textStyle?
  rw [Run.outcome_bind, Run.outcome_ofExcept]
  cases styleOf? classes with
  | error f => rfl
  | ok style =>
    cases style with
    | some style => rfl
    | none =>
      change (Run.outcome (if !Text.allBlank classes then _ else _)) = _
      split <;> rfl

theorem styleOf_ok_iff {classes : Text} :
    (∃ style, (styleOf classes).outcome = .ok style) ↔ textFault? classes = none := by
  rw [← failure?_eq_none_iff, outcome_styleOf, failure?_barring]

theorem outcome_styleOfClass (classes : Value) :
    (styleOfClass classes).outcome =
      barring (((written? classes).bind textFault?).map Fault.cls)
        ((written? classes).bind textStyle?) := by
  have htext : ∀ t : Text, Run.outcome (ExceptT.adapt Fault.cls (styleOf t)) =
      barring ((textFault? t).map Fault.cls) (textStyle? t) := by
    intro t
    rw [Run.outcome_adapt, outcome_styleOf, barring_mapError]
  cases classes with
  | scalar s =>
    cases s with
    | str s => exact htext _
    | illFormed codes half => exact htext _
    | _ => rfl
  | _ => rfl

section Elements

variable [CallStack]

/-- A message about an element can show the value. -/
def Shows (v : Value) : Prop := v.all Scalar.isBrief = true ∧ v.depth ≤ CallStack.notes

/-- What is wrong with showing a value. -/
def shownFault? (v : Value) : Option NoteFault := failure? (v.plain? CallStack.notes)

theorem shownFault?_eq_none_iff {v : Value} : shownFault? v = none ↔ Shows v := by
  rw [shownFault?, failure?_eq_none_iff]
  exact v.plain?_ok_iff CallStack.notes

/-- The type of an element, which a message about it shows. -/
def typeOf (es : Entries) : Value := (es.get? "type").getD .null

/-- What is wrong with the message about classes that have no style. Classes that are nothing, such
as an empty string, are not reported. -/
def messageFault? (es : Entries) (classes : Value) : Option NoteFault :=
  if classes.holds then (shownFault? classes).or (shownFault? (typeOf es)) else none

/-- What is wrong with an element: its classes cannot be converted, or they have no style and the
message about that fails. -/
def fault? (es : Entries) : Option Fault :=
  (classes? es).bind fun classes =>
    (((written? classes).bind textFault?).map Fault.cls).or
      (if ((written? classes).bind textStyle?).isSome then none
        else (messageFault? es classes).map Fault.note)

theorem outcome_shownPlain_bind {α : Type} {v : Value} {k : String → Run Fault α}
    {later : Option Fault} {a : α} (hk : ∀ text, (k text).outcome = barring later a) :
    (shownPlain v >>= k).outcome = barring (((shownFault? v).map Fault.note).or later) a := by
  rw [Run.outcome_bind, shownPlain, Run.outcome_ofExcept, shownFault?]
  cases v.plain? CallStack.notes with
  | error f => rfl
  | ok text => exact hk text

theorem outcome_convertEntries (es : Entries) :
    (convertEntries es).outcome = barring (fault? es) (converted es) := by
  unfold convertEntries fault? classes? converted
  cases (es.get? "attributes").bind Value.entries? with
  | none => rfl
  | some attributes =>
    dsimp only [Option.bind_some]
    cases attributes.get? "class" with
    | none => rfl
    | some classes =>
      dsimp only [Option.bind_some]
      rw [Run.outcome_bind, outcome_styleOfClass]
      refine barring_bind ?_
      cases (written? classes).bind textStyle? with
      | some style => rfl
      | none =>
        -- What has no style is noted, and only the note can fail.
        rw [messageFault?]
        by_cases hholds : classes.holds = true
        · simp only [hholds, if_true]
          rw [if_neg (by simp), Option.map_or]
          refine outcome_shownPlain_bind fun shown => ?_
          rw [← Option.or_none (o := (shownFault? (typeOf es)).map Fault.note)]
          exact outcome_shownPlain_bind fun type => rfl
        · simp only [hholds]
          rfl

end Elements

/-! ## The elements in a list -/

/-- A converted element; what is no mapping stays as it is. -/
def convertedValue : Value → Value
  | .map _ es => .map none (converted es)
  | v => v

section Lists

variable [CallStack]

theorem outcome_convert (v : Value) :
    (convert v).outcome = barring (v.entries?.bind fault?) (convertedValue v) := by
  cases v with
  | map label es =>
    unfold convert
    rw [Run.outcome_bind, outcome_convertEntries]
    exact barring_bind_ok rfl
  | _ => rfl

/-- The first fault of some elements, in their order. -/
def firstFault? (elements : List Entries) : Option Fault := elements.findSome? fault?

theorem firstFault?_cons (es : Entries) (later : List Entries) :
    firstFault? (es :: later) = (fault? es).or (firstFault? later) := by
  unfold firstFault?
  rw [List.findSome?_cons]
  cases fault? es <;> rfl

theorem firstFault?_append (xs ys : List Entries) :
    firstFault? (xs ++ ys) = (firstFault? xs).or (firstFault? ys) := List.findSome?_append

theorem outcome_convertItems (vs : List Value) :
    (convertItems vs).outcome =
      barring (firstFault? (vs.filterMap Value.entries?)) (vs.map convertedValue) := by
  induction vs with
  | nil => rfl
  | cons v vs ih =>
    unfold convertItems
    rw [Run.outcome_bind, outcome_convert]
    have hfirst : firstFault? ((v :: vs).filterMap Value.entries?) =
        (v.entries?.bind fault?).or (firstFault? (vs.filterMap Value.entries?)) := by
      cases v with
      | map label es => exact firstFault?_cons es _
      | _ => rfl
    rw [hfirst]
    refine barring_bind ?_
    rw [Run.outcome_bind, ih]
    exact barring_bind_ok rfl

end Lists

/-! ## Places -/

section Places

variable {v w : Value} {f g : Value → Value} {p : List Step} {s t : Step} {label : Option Nat}
  {es : Entries} {items : List Value}

theorem at?_append (p q : List Step) (v : Value) : at? (p ++ q) v = (at? p v).bind (at? q) := by
  induction p generalizing v with
  | nil => rfl
  | cons step p ih =>
    rw [List.cons_append, at?, at?]
    cases (v.get? step.field).bind Value.items? with
    | none => rfl
    | some items =>
      dsimp only
      cases items[step.index]? with
      | none => rfl
      | some w => exact ih w

theorem get?_bind_items? {field : String} (h : es.get? field = some (.list items))
    (label : Option Nat) :
    ((Value.map label es).get? field).bind Value.items? = some items := by
  change (es.get? field).bind Value.items? = _
  rw [h]
  rfl

/-- A field either holds a list, or there are no children in it. -/
theorem list_or_none (v : Value) (field : String) :
    (∃ (label : Option Nat) (es : Entries) (items : List Value),
      v = .map label es ∧ es.get? field = some (.list items)) ∨
    (v.get? field).bind Value.items? = none := by
  cases v with
  | map label es =>
    change _ ∨ (Entries.get? es field).bind Value.items? = none
    cases hget : Entries.get? es field with
    | none => exact Or.inr rfl
    | some found =>
      cases found with
      | list items => exact Or.inl ⟨label, es, items, rfl, hget⟩
      | _ => exact Or.inr rfl
  | _ => exact Or.inr rfl

theorem at?_cons (h : es.get? s.field = some (.list items)) :
    at? (s :: p) (.map label es) = items[s.index]?.bind (at? p) := by
  rw [at?, get?_bind_items? h]

theorem modifyAt_cons (h : es.get? s.field = some (.list items)) :
    modifyAt f (s :: p) (.map label es) =
      .map label (Entries.put s.field (.list (items.modify s.index (modifyAt f p))) es) := by
  simp only [modifyAt, get?_bind_items? h]

/-- A place below an element lies in one of its lists. -/
theorem exists_of_at?_cons (h : at? (s :: p) v = some w) :
    ∃ (label : Option Nat) (es : Entries) (items : List Value) (c : Value),
      v = .map label es ∧ es.get? s.field = some (.list items) ∧
      items[s.index]? = some c ∧ at? p c = some w := by
  rcases list_or_none v s.field with ⟨label, es, items, rfl, hget⟩ | hnone
  · rw [at?_cons hget] at h
    rcases Option.bind_eq_some_iff.mp h with ⟨c, hc, hw⟩
    exact ⟨label, es, items, c, rfl, hget, hc, hw⟩
  · rw [at?, hnone] at h
    simp at h

theorem modifyAt_append (f : Value → Value) (p q : List Step) (v : Value) :
    modifyAt f (p ++ q) v = modifyAt (modifyAt f q) p v := by
  induction p generalizing v with
  | nil => rfl
  | cons step p ih =>
    have hih : modifyAt f (p ++ q) = modifyAt (modifyAt f q) p := funext ih
    simp only [List.cons_append, modifyAt, hih]

theorem modify_congr {i : Nat} {c : Value} (hc : items[i]? = some c) (h : f c = g c) :
    items.modify i f = items.modify i g := by
  apply List.ext_getElem?
  intro j
  rw [List.getElem?_modify, List.getElem?_modify]
  by_cases hj : i = j
  · subst hj
    rw [hc]
    simp [h]
  · simp [hj]

/-- Only the value at the place counts for what a change makes of it. -/
theorem modifyAt_congr (hw : at? p v = some w) (h : f w = g w) :
    modifyAt f p v = modifyAt g p v := by
  induction p generalizing v with
  | nil => rwa [← Option.some.inj hw] at h
  | cons step p ih =>
    rcases exists_of_at?_cons hw with ⟨label, es, items, c, rfl, hget, hc, hcw⟩
    rw [modifyAt_cons hget, modifyAt_cons hget, modify_congr hc (ih hcw)]

theorem at?_modifyAt (hw : at? p v = some w) : at? p (modifyAt f p v) = some (f w) := by
  induction p generalizing v with
  | nil => rw [← Option.some.inj hw]; rfl
  | cons step p ih =>
    rcases exists_of_at?_cons hw with ⟨label, es, items, c, rfl, hget, hc, hcw⟩
    rw [modifyAt_cons hget, at?_cons (Entries.get?_put_self _ _ _), List.getElem?_modify, hc]
    simp [ih hcw]

theorem modifyAt_modifyAt (g f : Value → Value) (hw : at? p v = some w) :
    modifyAt g p (modifyAt f p v) = modifyAt (g ∘ f) p v := by
  induction p generalizing v with
  | nil => rfl
  | cons step p ih =>
    rcases exists_of_at?_cons hw with ⟨label, es, items, c, rfl, hget, hc, hcw⟩
    rw [modifyAt_cons hget, modifyAt_cons (Entries.get?_put_self _ _ _), modifyAt_cons hget,
      Entries.put_put, List.modify_modify_eq, modify_congr hc (ih hcw)]

theorem modifyAt_self (hw : at? p v = some w) : modifyAt (fun _ => w) p v = v := by
  induction p generalizing v with
  | nil => exact (Option.some.inj hw).symm
  | cons step p ih =>
    rcases exists_of_at?_cons hw with ⟨label, es, items, c, rfl, hget, hc, hcw⟩
    rw [modifyAt_cons hget, modify_congr (g := id) hc (ih hcw), List.modify_id,
      Entries.put_get? hget]

/-- A change in one child leaves the others as they are. -/
theorem at?_modifyAt_ne (hw : at? [s] v = some w) (h : t ≠ s) :
    at? [t] (modifyAt f [s] v) = at? [t] v := by
  rcases exists_of_at?_cons hw with ⟨label, es, items, c, rfl, hget, hc, -⟩
  rw [modifyAt_cons hget]
  by_cases hfield : t.field = s.field
  · -- In one list, the indexes differ.
    have hindex : s.index ≠ t.index := by
      intro heq
      apply h
      cases t
      cases s
      simp_all
    have hget' : es.get? t.field = some (.list items) := by rw [hfield, hget]
    have hput : ∀ items', Entries.get? (Entries.put s.field (.list items') es) t.field =
        some (.list items') := by
      intro items'
      rw [hfield, Entries.get?_put_self]
    rw [at?_cons hget', at?_cons (hput _), List.getElem?_modify]
    simp [hindex]
  · have hget' : ∀ items', (Value.map label (Entries.put s.field (.list items') es)).get? t.field =
        (Value.map label es).get? t.field := by
      intro items'
      exact Entries.get?_put_ne hfield _ es
    rw [at?, at?, hget']

end Places

/-! ## The recursion -/

/-- The children of an element in one of its fields. -/
def childItems (v : Value) (field : String) : List Value :=
  ((v.get? field).bind Value.items?).getD []

/-- The children that are elements themselves. -/
def childEntries (v : Value) (field : String) : List Entries :=
  (childItems v field).filterMap Value.entries?

/-- Other children in place of those in a field. -/
def replaceItems (field : String) (new : List Value) (v : Value) : Value :=
  match v, (v.get? field).bind Value.items? with
  | .map label es, some _ => .map label (Entries.put field (.list new) es)
  | v, _ => v

/-- Changes the children in a field, each in the same way. -/
def mapItems (field : String) (f : Value → Value) (v : Value) : Value :=
  replaceItems field ((childItems v field).map f) v

section Items

variable {v : Value} {f g : Value → Value} {field other : String} {label : Option Nat}
  {es : Entries} {items new : List Value}

theorem childItems_map (h : es.get? field = some (.list items)) (label : Option Nat) :
    childItems (.map label es) field = items := by
  rw [childItems, get?_bind_items? h]
  rfl

theorem childItems_of_none (h : (v.get? field).bind Value.items? = none) :
    childItems v field = [] := by
  rw [childItems, h]
  rfl

theorem replaceItems_map (h : es.get? field = some (.list items)) (label : Option Nat)
    (new : List Value) :
    replaceItems field new (.map label es) = .map label (Entries.put field (.list new) es) := by
  simp only [replaceItems, get?_bind_items? h]

theorem replaceItems_of_none (h : (v.get? field).bind Value.items? = none) (new : List Value) :
    replaceItems field new v = v := by
  cases v <;> simp only [replaceItems, h]

theorem get?_replaceItems_ne (h : other ≠ field) (new : List Value) (v : Value) :
    (replaceItems field new v).get? other = v.get? other := by
  rcases list_or_none v field with ⟨label, es, items, rfl, hget⟩ | hnone
  · rw [replaceItems_map hget]
    exact Entries.get?_put_ne h _ es
  · rw [replaceItems_of_none hnone]

theorem childItems_replaceItems_ne (h : other ≠ field) (new : List Value) (v : Value) :
    childItems (replaceItems field new v) other = childItems v other := by
  rw [childItems, get?_replaceItems_ne h, childItems]

theorem childItems_mapItems_ne (h : other ≠ field) (f : Value → Value) (v : Value) :
    childItems (mapItems field f v) other = childItems v other :=
  childItems_replaceItems_ne h _ v

theorem childItems_mapItems (field : String) (f : Value → Value) (v : Value) :
    childItems (mapItems field f v) field = (childItems v field).map f := by
  rcases list_or_none v field with ⟨label, es, items, rfl, hget⟩ | hnone
  · rw [mapItems, replaceItems_map hget, childItems_map (Entries.get?_put_self _ _ _)]
  · rw [mapItems, replaceItems_of_none hnone, childItems_of_none hnone]
    rfl

theorem mapItems_mapItems (field : String) (f g : Value → Value) (v : Value) :
    mapItems field f (mapItems field g v) = mapItems field (f ∘ g) v := by
  rw [mapItems, childItems_mapItems, List.map_map]
  rcases list_or_none v field with ⟨label, es, items, rfl, hget⟩ | hnone
  · rw [mapItems, replaceItems_map hget, replaceItems_map (Entries.get?_put_self _ _ _),
      Entries.put_put, mapItems, replaceItems_map hget]
  · rw [mapItems, replaceItems_of_none hnone, mapItems]

theorem mapItems_comm (h : other ≠ field) (f g : Value → Value) (v : Value) :
    mapItems other f (mapItems field g v) = mapItems field g (mapItems other f v) := by
  rw [mapItems, childItems_mapItems_ne h, mapItems, mapItems, childItems_mapItems_ne h.symm,
    mapItems]
  rcases list_or_none v field with ⟨label, es, items, rfl, hget⟩ | hnone
  · rcases list_or_none (.map label es) other with ⟨_, _, items', heq, hget'⟩ | hnone'
    · injection heq with hlabel hes
      subst hlabel hes
      rw [replaceItems_map hget, replaceItems_map hget',
        replaceItems_map ((Entries.get?_put_ne h _ es).trans hget'),
        replaceItems_map ((Entries.get?_put_ne h.symm _ es).trans hget),
        Entries.put_comm h (by rw [hget]; rfl)]
    · rw [replaceItems_of_none hnone',
        replaceItems_of_none (by rw [get?_replaceItems_ne h, hnone'])]
  · rw [replaceItems_of_none hnone, eq_comm]
    apply replaceItems_of_none
    rw [get?_replaceItems_ne h.symm, hnone]

theorem sizeOf_lt_of_mem_childItems {c : Value} (h : c ∈ childItems v field) :
    SizeOf.sizeOf c < SizeOf.sizeOf v := by
  rcases list_or_none v field with ⟨label, es, items, rfl, hget⟩ | hnone
  · rw [childItems_map hget] at h
    have hitem := List.sizeOf_lt_of_mem h
    have hentry := List.sizeOf_lt_of_mem (Entries.mem_of_get? hget)
    simp only [Prod.mk.sizeOf_spec, Value.list.sizeOf_spec] at hentry
    simp only [Value.map.sizeOf_spec]
    omega
  · rw [childItems_of_none hnone] at h
    simp at h

end Items

/-- The elements inside another, in the order in which their classes are converted: the children of
an element come together, then those of its last child. -/
def below (v : Value) : List Entries :=
  childEntries v "elements" ++ childEntries v "content" ++
    ((childItems v "content").reverse.attach.flatMap fun c => below c.1) ++
    ((childItems v "elements").reverse.attach.flatMap fun c => below c.1)
termination_by SizeOf.sizeOf v
decreasing_by
  all_goals exact sizeOf_lt_of_mem_childItems (List.mem_reverse.mp c.2)

theorem below_eq (v : Value) :
    below v = childEntries v "elements" ++ childEntries v "content" ++
      (childItems v "content").reverse.flatMap below ++
      (childItems v "elements").reverse.flatMap below := by
  rw [below]
  simp only [List.flatMap_subtype, List.unattach_attach]

/-- An element with every class in it converted, its own too. -/
def styled (v : Value) : Value :=
  replaceItems "content" ((childItems v "content").attach.map fun c => styled c.1)
    (replaceItems "elements" ((childItems v "elements").attach.map fun c => styled c.1)
      (convertedValue v))
termination_by SizeOf.sizeOf v
decreasing_by
  all_goals exact sizeOf_lt_of_mem_childItems c.2

/-- An element whose children are styled. -/
def settled (v : Value) : Value := mapItems "content" styled (mapItems "elements" styled v)

/-- Only the style and the attributes of an element are converted. -/
theorem get?_converted {field : String} (hstyle : field ≠ "style")
    (hattributes : field ≠ "attributes") (es : Entries) :
    (converted es).get? field = es.get? field := by
  unfold converted
  cases (es.get? "attributes").bind Value.entries? with
  | none => rfl
  | some attributes =>
    dsimp only
    cases attributes.get? "class" with
    | none => rfl
    | some classes =>
      dsimp only
      have hput : Entries.get? (match (written? classes).bind textStyle? with
          | some style => Entries.put "style" style.toValue es
          | none => es) field = es.get? field := by
        cases (written? classes).bind textStyle? with
        | none => rfl
        | some style => exact Entries.get?_put_ne hstyle _ es
      split
      · rw [Entries.get?_erase_ne hattributes, hput]
      · rw [Entries.get?_put_ne hattributes, hput]

theorem get?_convertedValue {field : String} (hstyle : field ≠ "style")
    (hattributes : field ≠ "attributes") (v : Value) :
    (convertedValue v).get? field = v.get? field := by
  cases v with
  | map label es => exact get?_converted hstyle hattributes es
  | _ => rfl

theorem childItems_convertedValue {field : String} (h : field ∈ childFields) (v : Value) :
    childItems (convertedValue v) field = childItems v field := by
  have hstyle : field ≠ "style" := by rintro rfl; simp [childFields] at h
  have hattributes : field ≠ "attributes" := by rintro rfl; simp [childFields] at h
  rw [childItems, get?_convertedValue hstyle hattributes, childItems]

theorem below_convertedValue (v : Value) : below (convertedValue v) = below v := by
  rw [below_eq, below_eq v, childEntries, childEntries, childEntries, childEntries,
    childItems_convertedValue (by simp [childFields]),
    childItems_convertedValue (by simp [childFields])]

theorem styled_eq (v : Value) : styled v = settled (convertedValue v) := by
  rw [styled, settled, mapItems, mapItems, childItems_replaceItems_ne (by decide),
    childItems_convertedValue (by simp [childFields]),
    childItems_convertedValue (by simp [childFields])]
  simp

theorem below_of_no_entries {c : Value} (h : c.entries?.isSome = false) : below c = [] := by
  have hnone : ∀ field, childItems c field = [] := by
    intro field
    cases c with
    | map label es => simp [Value.entries?] at h
    | _ => rfl
  rw [below_eq, childEntries, childEntries, hnone, hnone]
  rfl

/-- What holds no elements has nothing to settle. -/
theorem settled_of_no_entries {c : Value} (h : c.entries?.isSome = false) : settled c = c := by
  have hnone : ∀ field f, mapItems field f c = c := by
    intro field f
    cases c with
    | map label es => simp [Value.entries?] at h
    | _ => rfl
  rw [settled, hnone, hnone]

theorem styled_of_no_entries {c : Value} (h : c.entries?.isSome = false) : styled c = c := by
  have hsame : convertedValue c = c := by
    cases c with
    | map label es => simp [Value.entries?] at h
    | _ => rfl
  rw [styled_eq, hsame, settled_of_no_entries h]

/-- The elements of a tree, in the order in which their classes are converted. -/
def visits (v : Value) : List Entries := v.entries?.toList ++ below v

/-! ## Styled elements -/

section Styled

variable {es : Entries} {field name : String} {f : Value → Value}

/-- A list with every item changed; any other value stays. -/
def mapList (f : Value → Value) : Value → Value
  | .list items => .list (items.map f)
  | v => v

theorem get?_mapItems (field : String) (f : Value → Value) (v : Value) :
    (mapItems field f v).get? field = (v.get? field).map (mapList f) := by
  rcases list_or_none v field with ⟨label, es, items, rfl, hget⟩ | hnone
  · have hfield : (Value.map label es).get? field = some (.list items) := hget
    rw [mapItems, replaceItems_map hget, childItems_map hget, hfield]
    exact Entries.get?_put_self _ _ _
  · rw [mapItems, replaceItems_of_none hnone]
    cases hfield : v.get? field with
    | none => rfl
    | some found =>
      cases found with
      | list items => simp [hfield, Value.items?] at hnone
      | _ => rfl

theorem get?_styled_children {field : String} (h : field ∈ childFields) (v : Value) :
    (styled v).get? field = (v.get? field).map (mapList styled) := by
  rw [styled_eq, settled]
  rcases List.mem_cons.mp h with rfl | hcontent
  · rw [mapItems, get?_replaceItems_ne (by decide), get?_mapItems,
      get?_convertedValue (by decide) (by decide)]
  · rw [List.mem_singleton.mp hcontent, get?_mapItems, mapItems, get?_replaceItems_ne (by decide),
      get?_convertedValue (by decide) (by decide)]

/-- Apart from its children, a styled element is a converted one. -/
theorem get?_styled {field : String} (h : field ∉ childFields) (v : Value) :
    (styled v).get? field = (convertedValue v).get? field := by
  have helements : field ≠ "elements" := by rintro rfl; simp [childFields] at h
  have hcontent : field ≠ "content" := by rintro rfl; simp [childFields] at h
  rw [styled_eq, settled, mapItems, get?_replaceItems_ne hcontent, mapItems,
    get?_replaceItems_ne helements]

/-- What conversion does to an element: nothing, or its class goes, and a style may come. -/
theorem converted_cases (es : Entries) :
    converted es = es ∨
      ∃ (label : Option Nat) (attributes dressed : Entries),
        es.get? "attributes" = some (.map label attributes) ∧
        (dressed = es ∨ ∃ style : Properties, dressed = Entries.put "style" style.toValue es) ∧
        converted es =
          if (attributes.erase "class").isEmpty then dressed.erase "attributes"
          else Entries.put "attributes" (.map none (attributes.erase "class")) dressed := by
  unfold converted
  cases hget : es.get? "attributes" with
  | none => exact Or.inl rfl
  | some found =>
    cases found with
    | map label attributes =>
      dsimp only [Option.bind_some, Value.entries?]
      cases Entries.get? attributes "class" with
      | none => exact Or.inl rfl
      | some classes =>
        refine Or.inr ⟨label, attributes, _, rfl, ?_, rfl⟩
        cases (written? classes).bind textStyle? with
        | none => exact Or.inl rfl
        | some style => exact Or.inr ⟨style, rfl⟩
    | _ => exact Or.inl rfl

/-- No key appears but those of the style and of the lists that are changed. -/
theorem exists_styled_map (P : Scalar → Prop) (hown : ∀ e ∈ es, P e.1)
    (hchanged : ∀ name ∈ ["style", "attributes", "elements", "content"], P (.str name))
    (label : Option Nat) :
    ∃ es', styled (.map label es) = .map none es' ∧ ∀ e ∈ es', P e.1 := by
  have hput : ∀ {es : Entries} {name : String} (value : Value), P (.str name) →
      (∀ e ∈ es, P e.1) → ∀ e ∈ Entries.put name value es, P e.1 := by
    intro es name value hname h e he
    rcases Entries.mem_put he with rfl | hmem
    · exact hname
    · exact h e hmem
  have hconverted : ∀ e ∈ converted es, P e.1 := by
    rcases converted_cases es with heq | ⟨_, attributes, dressed, -, hdressed, heq⟩
    · rwa [heq]
    · have hall : ∀ e ∈ dressed, P e.1 := by
        rcases hdressed with rfl | ⟨style, rfl⟩
        · exact hown
        · exact hput _ (hchanged _ (by simp)) hown
      rw [heq]
      split
      · intro e he
        exact hall e (List.mem_filter.mp he).1
      · exact hput _ (hchanged _ (by simp)) hall
  -- The children are put back under the field that they come from.
  have hmap : ∀ {es : Entries} {field : String}, P (.str field) → (∀ e ∈ es, P e.1) →
      ∃ es', mapItems field styled (.map none es) = .map none es' ∧ ∀ e ∈ es', P e.1 := by
    intro es field hfield h
    rcases list_or_none (.map none es) field with ⟨_, _, items, heq, hget⟩ | hnone
    · injection heq with hlabel hes
      subst hlabel hes
      exact ⟨_, replaceItems_map hget none _, hput _ hfield h⟩
    · exact ⟨es, replaceItems_of_none hnone _, h⟩
  rcases hmap (hchanged "elements" (by simp)) hconverted with ⟨es₁, helements, hall₁⟩
  rcases hmap (hchanged "content" (by simp)) hall₁ with ⟨es₂, hcontent, hall₂⟩
  refine ⟨es₂, ?_, hall₂⟩
  rw [styled_eq, settled, convertedValue, helements, hcontent]

/-- The attributes of a converted element are among those it had. -/
theorem mem_of_get?_converted {v : Value} (h : (converted es).get? "attributes" = some v) :
    ∃ old, es.get? "attributes" = some old ∧
      (v = old ∨ ∃ (label : Option Nat) (attributes : Entries), old = .map label attributes ∧
        v = .map none (attributes.erase "class")) := by
  rcases converted_cases es with heq | ⟨label, attributes, dressed, hget, -, heq⟩
  · rw [heq] at h
    exact ⟨v, h, Or.inl rfl⟩
  · refine ⟨_, hget, Or.inr ⟨label, attributes, rfl, ?_⟩⟩
    rw [heq] at h
    split at h
    · simp at h
    · rw [Entries.get?_put_self] at h
      exact (Option.some.inj h).symm

/-- A style is one that the element had, or comes from classes. -/
theorem style_of_get?_converted {v : Value} (h : (converted es).get? "style" = some v) :
    es.get? "style" = some v ∨ ∃ style : Properties, v = style.toValue := by
  rcases converted_cases es with heq | ⟨label, attributes, dressed, -, hdressed, heq⟩
  · rw [heq] at h
    exact Or.inl h
  · have hstyle : Entries.get? dressed "style" = some v := by
      rw [heq] at h
      split at h
      · rwa [Entries.get?_erase_ne (by decide)] at h
      · rwa [Entries.get?_put_ne (by decide)] at h
    rcases hdressed with rfl | ⟨style, rfl⟩
    · exact Or.inl hstyle
    · rw [Entries.get?_put_self] at hstyle
      exact Or.inr ⟨style, (Option.some.inj hstyle).symm⟩

/-- Of the attributes, only the class is converted. -/
theorem get?_attribute_converted (h : name ≠ "class") :
    ((converted es).get? "attributes").bind (·.get? name) =
      (es.get? "attributes").bind (·.get? name) := by
  rcases converted_cases es with heq | ⟨label, attributes, dressed, hget, hdressed, heq⟩
  · rw [heq]
  · have hkept : Entries.get? (attributes.erase "class") name = Entries.get? attributes name :=
      Entries.get?_erase_ne h attributes
    rw [heq, hget]
    split
    · next hempty =>
      rw [Entries.get?_erase_self]
      rw [List.isEmpty_iff.mp hempty] at hkept
      exact hkept
    · rw [Entries.get?_put_self]
      exact hkept

end Styled

end Notemark.Style
