import Notemark.Proofs.Decoration
import Notemark.Proofs.Records
import Notemark.Proofs.StyleRecursion

/-!
# Issues of elements

An element of a body, written down and styled, is held against the schema of elements.

* `Holds`: what the fields of an element hold,
* `Element.Meets`: the rules of the type of an element, which styling does not touch,
* `elementIssues_styled`: an element has no issues if it meets these rules and the elements in it
  have no issues,
* `elementIssues_all_iff`: the same for all elements of a body,
* `Named`, `named_of_mem_visits`: types and classes are strings in all that is written down for an
  element, so that messages can show them.
-/

namespace Notemark

/-! ## Elements of a body -/

namespace Body

open Schema (elementIssues brokenRule? isGiven namesVariable)

/-- What a field of an element holds. -/
inductive Holds (e : Element) (name : String) (v : Value) : Prop where
  | type (hname : name = "type") (hv : v = .str e.block.typeName)
  | text (hname : name ∈ Schema.elementStrings) (t : Text) (hv : v = textValue t)
  | attributes (hname : name = "attributes") (as : Attributes) (hv : v = attributesValue as)
  | content (hname : name = "content") (items : List Inline)
    (hv : v = .list (items.map Inline.toValue))
  | elements (hname : name = "elements") (hcontainer : e.block.isContainer = true)
    (hv : v = .list (e.block.literalParagraph ++ Element.toValues e.children))

/-- The fields of an element, as it is written down. -/
def Element.fields (e : Element) : List (String × Value) :=
  elementFields e.block e.mark ++
    if e.block.isContainer then
      [("elements", .list (e.block.literalParagraph ++ toValues e.children))]
    else []

theorem toValue_eq (e : Element) : e.toValue = .object e.fields := by
  rcases e with ⟨block, mark, children⟩
  rw [Element.toValue]
  rfl

theorem holds_ownFields {e : Element} {field : String × Value} (h : field ∈ e.block.ownFields) :
    Holds e field.1 field.2 := by
  rcases e with ⟨block, mark, children⟩
  change field ∈ block.ownFields at h
  cases block with
  | heading level title =>
    obtain rfl := List.mem_singleton.mp h
    exact .content rfl [.text title] rfl
  | paragraph items =>
    obtain rfl := List.mem_singleton.mp h
    exact .content rfl items rfl
  | image as => simp [Block.ownFields] at h
  | component name argument =>
    rcases List.mem_cons.mp h with rfl | h
    · exact .text (by simp [Schema.elementStrings]) name rfl
    · obtain rfl := List.mem_singleton.mp h
      exact .text (by simp [Schema.elementStrings]) argument rfl
  | leaf name literal as =>
    cases literal with
    | none => simp [Block.ownFields] at h
    | some t =>
      obtain rfl := List.mem_singleton.mp h
      exact .content rfl [.text t] rfl
  | container head literal =>
    cases head with
    | box name as => simp [Block.ownFields] at h
    | form event as =>
      obtain rfl := List.mem_singleton.mp h
      exact .text (by simp [Schema.elementStrings]) event rfl
    | loop source loopVariable =>
      rcases List.mem_cons.mp h with rfl | h
      · exact .text (by simp [Schema.elementStrings]) source rfl
      · obtain rfl := List.mem_singleton.mp h
        exact .text (by simp [Schema.elementStrings]) loopVariable rfl
    | cond condition =>
      obtain rfl := List.mem_singleton.mp h
      exact .text (by simp [Schema.elementStrings]) condition rfl

theorem holds_of_mem {e : Element} {field : String × Value} (h : field ∈ e.fields) :
    Holds e field.1 field.2 := by
  have hattributes : ∀ as, field = ("attributes", attributesValue as) → Holds e field.1 field.2 := by
    rintro as rfl
    exact .attributes rfl as rfl
  have hid : ∀ id, field = ("elementId", textValue id) → Holds e field.1 field.2 := by
    rintro id rfl
    exact .text (by simp [Schema.elementStrings]) id rfl
  rcases List.mem_append.mp h with h | h
  · rcases List.mem_cons.mp h with rfl | h
    · exact .type rfl rfl
    · rcases List.mem_append.mp h with h | h
      · exact holds_ownFields h
      · -- The attributes and the id, in one order or the other.
        revert h
        cases markedAttributes? e.block e.mark with
        | none =>
          cases e.mark.id with
          | none => simp
          | some id => simpa using hid id
        | some as =>
          cases e.mark.id with
          | none => simpa using hattributes as
          | some id =>
            intro h
            split at h
            · simp only [List.cons_append, List.nil_append, List.mem_cons, List.not_mem_nil,
                or_false] at h
              exact h.elim (hattributes as) (hid id)
            · simp only [List.cons_append, List.nil_append, List.mem_cons, List.not_mem_nil,
                or_false] at h
              exact h.elim (hid id) (hattributes as)
  · split at h
    · next hcontainer =>
      obtain rfl := List.mem_singleton.mp h
      exact .elements rfl hcontainer rfl
    · simp at h

theorem holds_of_get? {e : Element} {name : String} {v : Value}
    (h : e.toValue.get? name = some v) : Holds e name v := by
  rw [toValue_eq] at h
  rcases List.mem_map.mp (Entries.mem_of_get? h) with ⟨field, hfield, heq⟩
  have hholds := holds_of_mem hfield
  rw [Prod.mk.injEq, Scalar.str.injEq] at heq
  rwa [heq.1, heq.2] at hholds

/-- The fields of an element as the entries of a mapping. -/
def Element.fieldEntries (e : Element) : Entries := e.fields.map fun f => (.str f.1, f.2)

theorem get?_fieldEntries (e : Element) (name : String) :
    Entries.get? e.fieldEntries name = e.toValue.get? name := by
  rw [toValue_eq]
  rfl

theorem get?_type (e : Element) : e.toValue.get? "type" = some (.str e.block.typeName) := by
  rw [toValue_eq]
  rfl

theorem get?_elements (e : Element) :
    e.toValue.get? "elements" =
      if e.block.isContainer then
        some (.list (e.block.literalParagraph ++ Element.toValues e.children))
      else none := by
  cases hget : e.toValue.get? "elements" with
  | none =>
    split
    · next hcontainer =>
      -- The field is there.
      rw [toValue_eq, get?_object, Option.map_eq_none_iff, List.find?_eq_none] at hget
      have hmem : ("elements", .list (e.block.literalParagraph ++ Element.toValues e.children)) ∈
          e.fields := by simp [Element.fields, hcontainer]
      exact absurd rfl (hget _ hmem)
    · rfl
  | some v =>
    cases holds_of_get? hget with
    | elements _ hcontainer hv => rw [if_pos hcontainer, hv]
    | _ hname => simp [Schema.elementStrings] at hname

/-- An element meets the rules of its type. -/
def Element.Meets (e : Element) : Prop :=
  e.block.typeName ≠ "" ∧ brokenRule? e.block.typeName e.fieldEntries = none

theorem isGiven_congr {es es' : Entries} {name : String}
    (h : Entries.get? es name = Entries.get? es' name) : isGiven es name = isGiven es' name := by
  rw [isGiven, h, isGiven]

/-- Styling does not touch what the rules of types look at. -/
theorem brokenRule?_styled {e : Element} {es : Entries} (h : Style.styled e.toValue = .map none es)
    (type : String) :
    brokenRule? type es = none ↔ brokenRule? type e.fieldEntries = none := by
  have hget : ∀ name, Entries.get? es name = (Style.styled e.toValue).get? name := by
    intro name
    rw [h]
    rfl
  have hneeded : ∀ name ∈ Schema.neededFields type,
      isGiven es name = isGiven e.fieldEntries name := by
    intro name hname
    have hnames : name ∈ ["event", "source", "variable", "condition", "alias"] := by
      revert hname
      unfold Schema.neededFields
      split <;> simp +contextual [or_imp]
    have hplain : ∀ n ∈ ["event", "source", "variable", "condition", "alias"],
        n ∉ Style.childFields ∧ n ≠ "style" ∧ n ≠ "attributes" := by decide
    rcases hplain name hnames with ⟨hchild, hstyle, hattributes⟩
    apply isGiven_congr
    rw [hget, Style.get?_styled hchild, Style.get?_convertedValue hstyle hattributes,
      get?_fieldEntries]
  have helements : isGiven es "elements" = isGiven e.fieldEntries "elements" := by
    rw [isGiven, hget, Style.get?_styled_children (by simp [Style.childFields]), isGiven,
      get?_fieldEntries, get?_elements]
    cases e.block.isContainer <;> rfl
  -- The variable of data is an attribute, and only the class is taken from these.
  have hvariable : namesVariable es = namesVariable e.fieldEntries := by
    have hattributes : Entries.get? es "attributes" =
        Entries.get? (Style.converted e.fieldEntries) "attributes" := by
      rw [hget, Style.get?_styled (by decide), toValue_eq]
      rfl
    have hname : ((Entries.get? es "attributes").bind fun as => as.get? "variable") =
        (Entries.get? e.fieldEntries "attributes").bind fun as => as.get? "variable" := by
      rw [hattributes]
      exact Style.get?_attribute_converted (by decide)
    rw [namesVariable, hname, namesVariable]
  rw [Schema.brokenRule?_eq_none, Schema.brokenRule?_eq_none, helements, hvariable]
  constructor
  · rintro ⟨hall, hrest⟩
    exact ⟨fun name hname => hneeded name hname ▸ hall name hname, hrest⟩
  · rintro ⟨hall, hrest⟩
    exact ⟨fun name hname => (hneeded name hname).symm ▸ hall name hname, hrest⟩

/-- Content is text or an element without issues. -/
def Shown (v : Value) : Prop :=
  Schema.issuesOf Schema.string v = [] ∨ elementIssues v = []

/-- What stands in the content of an element has no issues. -/
def Element.ContentShown (e : Element) : Prop :=
  ∀ items : List Inline, e.toValue.get? "content" = some (.list (items.map Inline.toValue)) →
    ∀ item ∈ items, Shown (Style.styled item.toValue)

theorem issuesOf_textValue (t : Text) : Schema.issuesOf Schema.string (textValue t) = [] := rfl

theorem styled_textValue (t : Text) : Style.styled (textValue t) = textValue t :=
  Style.styled_of_no_entries rfl

/-- Attributes are strings, also without the class. -/
theorem attributeIssues_eq_nil {e : Element} {v : Value}
    (h : (Style.styled e.toValue).get? "attributes" = some v) :
    Schema.plainFieldIssues (.str "attributes") v = [] := by
  have hstrings : ∀ (as : Attributes) (entries : Entries) (label : Option Nat),
      (∀ e ∈ entries, e ∈ (as.map fun a => (Scalar.str (String.ofList a.1), textValue a.2))) →
      Schema.plainFieldIssues (.str "attributes") (.map label entries) = [] := by
    intro as entries label hmem
    have hkeys : ∀ e ∈ entries, ∃ name, e.1 = .str name := by
      intro e he
      rcases List.mem_map.mp (hmem e he) with ⟨a, -, rfl⟩
      exact ⟨_, rfl⟩
    apply (Schema.mappingIssues_eq_nil hkeys label).mpr
    intro e he
    rcases List.mem_map.mp (hmem e he) with ⟨a, -, rfl⟩
    rfl
  rw [Style.get?_styled (by decide), toValue_eq] at h
  rcases Style.mem_of_get?_converted h with ⟨old, hold, hcases⟩
  have hholds : Holds e "attributes" old := by
    apply holds_of_get?
    rw [toValue_eq]
    exact hold
  cases hholds with
  | attributes _ as hv =>
    have hmap : old =
        .map none (as.map fun a => (Scalar.str (String.ofList a.1), textValue a.2)) := by
      rw [hv, attributesValue, Value.object, List.map_map]
      rfl
    rcases hcases with rfl | ⟨label, attributes, hlabel, rfl⟩
    · rw [hmap]
      exact hstrings as _ none fun e he => he
    · rw [hmap] at hlabel
      injection hlabel with _ hentries
      apply hstrings as
      intro e he
      rw [hentries]
      exact (List.mem_filter.mp he).1
  | _ hname => simp [Schema.elementStrings] at hname

theorem styleIssues_eq_nil {e : Element} {v : Value}
    (h : (Style.styled e.toValue).get? "style" = some v) :
    Schema.plainFieldIssues (.str "style") v = [] := by
  rw [Style.get?_styled (by decide), toValue_eq] at h
  rcases Style.style_of_get?_converted h with hold | ⟨style, rfl⟩
  · -- The elements of a body have no style of their own.
    have hholds : Holds e "style" v := by
      apply holds_of_get?
      rw [toValue_eq]
      exact hold
    cases hholds with
    | _ hname => simp [Schema.elementStrings] at hname
  · apply (Schema.mappingIssues_eq_nil ?_ none).mpr
    · intro d _
      rfl
    · intro d hd
      rcases List.mem_map.mp hd with ⟨f, -, rfl⟩
      exact ⟨_, rfl⟩

theorem get?_styled_own {name : String} (h : name ∈ "type" :: Schema.elementStrings) (e : Element) :
    (Style.styled e.toValue).get? name = e.toValue.get? name := by
  have hall : ∀ n ∈ "type" :: Schema.elementStrings,
      n ∉ Style.childFields ∧ n ≠ "style" ∧ n ≠ "attributes" := by decide
  rcases hall name h with ⟨hchild, hstyle, hattributes⟩
  rw [Style.get?_styled hchild, Style.get?_convertedValue hstyle hattributes]

theorem stringIssues_eq_nil {e : Element} {name : String} {v : Value}
    (hname : name ∈ Schema.elementStrings) (h : (Style.styled e.toValue).get? name = some v) :
    Schema.plainFieldIssues (.str name) v = [] := by
  rw [get?_styled_own (List.mem_cons_of_mem _ hname)] at h
  rw [Schema.plainFieldIssues_string hname]
  cases holds_of_get? h with
  | text _ t hv =>
    rw [hv]
    rfl
  | _ heq =>
    rw [heq] at hname
    simp [Schema.elementStrings] at hname

theorem contentIssues_eq_nil {e : Element} {v : Value}
    (hshown : e.ContentShown) (h : (Style.styled e.toValue).get? "content" = some v) :
    Schema.elementFieldIssues (.str "content") v = [] := by
  rw [Style.get?_styled_children (by simp [Style.childFields])] at h
  rcases Option.map_eq_some_iff.mp h with ⟨old, hold, rfl⟩
  cases holds_of_get? hold with
  | content _ items hv =>
    subst hv
    apply Schema.contentIssues_eq_nil.mpr
    intro w hw
    rcases List.mem_map.mp hw with ⟨u, hu, rfl⟩
    rcases List.mem_map.mp hu with ⟨item, hitem, rfl⟩
    exact hshown items hold item hitem
  | _ hname => simp [Schema.elementStrings] at hname

/-- The elements in an element without issues have none. -/
theorem elementsIssues_eq_nil {e : Element} :
    (∀ v, (Style.styled e.toValue).get? "elements" = some v →
        Schema.elementFieldIssues (.str "elements") v = []) ↔
      (e.block.isContainer = true →
        ∀ w ∈ e.block.literalParagraph ++ Element.toValues e.children,
          elementIssues (Style.styled w) = []) := by
  rw [Style.get?_styled_children (by simp [Style.childFields]), get?_elements]
  cases e.block.isContainer with
  | false => simp
  | true =>
    simp only [if_true, Option.map_some, Option.some.injEq, forall_eq']
    constructor
    · intro h _ w hw
      exact Schema.elementsIssues_eq_nil.mp h _ (List.mem_map_of_mem hw)
    · intro h
      apply Schema.elementsIssues_eq_nil.mpr
      intro w hw
      rcases List.mem_map.mp hw with ⟨u, hu, rfl⟩
      exact h trivial u hu

/-- Given that its content has no issues, an element has none if it meets the rules of its type and
the elements in it have none. -/
theorem elementIssues_styled_of_shown {e : Element} (hshown : e.ContentShown) :
    elementIssues (Style.styled e.toValue) = [] ↔
      e.Meets ∧ (e.block.isContainer = true →
        ∀ w ∈ e.block.literalParagraph ++ Element.toValues e.children,
          elementIssues (Style.styled w) = []) := by
  have hown : ∀ d ∈ e.fieldEntries, Schema.isDeclared Schema.elementFields d.1 = true := by
    intro d hd
    rcases List.mem_map.mp hd with ⟨field, hfield, rfl⟩
    have hnames : ∀ n ∈ ["type", "attributes", "content", "elements"] ++ Schema.elementStrings,
        Schema.isDeclared Schema.elementFields (.str n) = true := by decide
    apply hnames
    cases holds_of_mem hfield with
    | text hname => exact List.mem_append_right _ hname
    | _ hname => simp [hname]
  have hchanged : ∀ name ∈ ["style", "attributes", "elements", "content"],
      Schema.isDeclared Schema.elementFields (.str name) = true := by decide
  rcases Style.exists_styled_map (Schema.isDeclared Schema.elementFields · = true) hown hchanged
    none with ⟨es, hes, hdeclared⟩
  have hstyled : Style.styled e.toValue = .map none es := by
    rw [toValue_eq]
    exact hes
  have hget : ∀ name, Entries.get? es name = (Style.styled e.toValue).get? name := by
    intro name
    rw [hstyled]
    rfl
  have htype : Entries.get? es "type" = some (.str e.block.typeName) := by
    rw [hget, get?_styled_own List.mem_cons_self, get?_type]
  have htypeOf : Schema.typeOf es = e.block.typeName := by
    rw [Schema.typeOf, htype]
    rfl
  rw [hstyled, Schema.elementIssues_eq_nil, htypeOf, brokenRule?_styled hstyled,
    ← elementsIssues_eq_nil, Element.Meets]
  constructor
  · rintro ⟨-, hfields, -, hrule⟩
    refine ⟨⟨?_, hrule⟩, ?_⟩
    · exact Schema.nonEmptyIssues_str.mp (hfields ⟨"type", true⟩ (by decide) _ htype)
    · intro v hv
      rw [← hget] at hv
      exact hfields ⟨"elements", false⟩ (by decide) v hv
  · rintro ⟨⟨hname, hrule⟩, helements⟩
    refine ⟨hdeclared, ?_, by rw [htype]; simp, hrule⟩
    intro f hf v hv
    rw [hget] at hv
    have hnames : ∀ f ∈ Schema.elementFields,
        f.name ∈ ["content", "elements", "type", "attributes", "style"] ∨
        f.name ∈ Schema.elementStrings := by decide
    rcases hnames f hf with hnamed | hstring
    · simp only [List.mem_cons, List.not_mem_nil, or_false] at hnamed
      rcases hnamed with heq | heq | heq | heq | heq <;> rw [heq] at hv ⊢
      · exact contentIssues_eq_nil hshown hv
      · exact helements v hv
      · rw [get?_styled_own List.mem_cons_self, get?_type] at hv
        rw [← Option.some.inj hv]
        exact Schema.nonEmptyIssues_str.mpr hname
      · exact attributeIssues_eq_nil hv
      · exact styleIssues_eq_nil hv
    · have hplain : ∀ n ∈ Schema.elementStrings, n ≠ "content" ∧ n ≠ "elements" := by decide
      rw [Schema.elementFieldIssues_plain (hplain _ hstring).1 (hplain _ hstring).2]
      exact stringIssues_eq_nil hstring hv

/-- An inline element is written like a leaf with a literal. -/
theorem shown_inline (item : Inline) : Shown (Style.styled item.toValue) := by
  have hleaf : ∀ (name t : Text), (Element.mk (.leaf name (some t) []) {} []).Meets →
      elementIssues (Style.styled (Element.mk (.leaf name (some t) []) {} []).toValue) = [] := by
    intro name t hmeets
    have hleaf : ¬ (Block.leaf name (some t) []).isContainer = true := by simp [Block.isContainer]
    apply (elementIssues_styled_of_shown ?_).mpr ⟨hmeets, fun hcontainer => absurd hcontainer hleaf⟩
    intro items hitems item hitem
    have hmap : items.map Inline.toValue = [textValue t] := by
      have hcontent : some (Value.list (items.map Inline.toValue)) = some (.list [textValue t]) :=
        hitems.symm
      simpa using hcontent
    have hvalue : item.toValue = textValue t := by
      have hmem := List.mem_map_of_mem hitem (f := Inline.toValue)
      rw [hmap] at hmem
      exact List.mem_singleton.mp hmem
    rw [hvalue, styled_textValue]
    exact Or.inl (issuesOf_textValue t)
  cases item with
  | text t =>
    rw [Inline.toValue, styled_textValue]
    exact Or.inl (issuesOf_textValue t)
  | strong t =>
    have htype : String.ofList ['s', 't', 'r', 'o', 'n', 'g'] ≠ "" := by decide
    exact Or.inr (hleaf _ t ⟨htype, rfl⟩)
  | em t =>
    have htype : String.ofList ['e', 'm'] ≠ "" := by decide
    exact Or.inr (hleaf _ t ⟨htype, rfl⟩)

/-- The literal of a container becomes a paragraph. -/
theorem exists_of_mem_literalParagraph {block : Block} {w : Value}
    (h : w ∈ block.literalParagraph) :
    ∃ t, w = (Element.mk (.paragraph [.text t]) {} []).toValue := by
  cases block with
  | container head literal =>
    cases literal with
    | none => simp [Block.literalParagraph] at h
    | some t =>
      simp only [Block.literalParagraph] at h
      split at h
      · simp at h
      · exact ⟨t, List.mem_singleton.mp h⟩
  | _ => simp [Block.literalParagraph] at h

theorem elementIssues_literal {block : Block} {w : Value} (h : w ∈ block.literalParagraph) :
    elementIssues (Style.styled w) = [] := by
  rcases exists_of_mem_literalParagraph h with ⟨t, rfl⟩
  apply (elementIssues_styled_of_shown fun _ _ item _ => shown_inline item).mpr
  refine ⟨⟨?_, rfl⟩, by simp [Element.block, Block.isContainer]⟩
  simp [Element.block, Block.typeName]

theorem mem_toValues {es : List Element} {w : Value} :
    w ∈ Element.toValues es ↔ ∃ e ∈ es, e.toValue = w := by
  induction es with
  | nil => simp [Element.toValues]
  | cons e es ih => simp [Element.toValues, ih, eq_comm]

/-- An element has no issues if it meets the rules of its type and the elements in it have none. -/
theorem elementIssues_styled (e : Element) :
    elementIssues (Style.styled e.toValue) = [] ↔
      e.Meets ∧ (e.block.isContainer = true →
        ∀ c ∈ e.children, elementIssues (Style.styled c.toValue) = []) := by
  rw [elementIssues_styled_of_shown fun _ _ item _ => shown_inline item]
  apply and_congr_right
  intro _
  apply imp_congr_right
  intro _
  constructor
  · intro h c hc
    exact h _ (List.mem_append_right _ (mem_toValues.mpr ⟨c, hc, rfl⟩))
  · intro h w hw
    rcases List.mem_append.mp hw with hliteral | hchild
    · exact elementIssues_literal hliteral
    · rcases mem_toValues.mp hchild with ⟨c, hc, rfl⟩
      exact h c hc

mutual

theorem elementIssues_eq_nil_iff : (e : Element) →
    (elementIssues (Style.styled e.toValue) = [] ↔ ∀ d ∈ e.preorder, d.Meets)
  | .mk block mark children => by
    have hchildren := elementIssues_all_iff children
    rw [elementIssues_styled, Element.preorder]
    change _ ∧ (block.isContainer = true → ∀ c ∈ children, _) ↔ _
    cases block.isContainer with
    | false => simp
    | true => simp [hchildren]

theorem elementIssues_all_iff : (es : List Element) →
    ((∀ e ∈ es, elementIssues (Style.styled e.toValue) = []) ↔
      ∀ d ∈ Element.preorderAll es, d.Meets)
  | [] => by simp [Element.preorderAll]
  | e :: es => by
    have hfirst := elementIssues_eq_nil_iff e
    have hlater := elementIssues_all_iff es
    simp only [Element.preorderAll, List.mem_cons, List.mem_append, forall_eq_or_imp, hfirst,
      hlater]
    constructor
    · rintro ⟨h, h'⟩ d (hd | hd)
      · exact h d hd
      · exact h' d hd
    · intro h
      exact ⟨fun d hd => h d (Or.inl hd), fun d hd => h d (Or.inr hd)⟩

end

/-! ## Types and classes -/

/-- A mapping whose type and class are strings. -/
structure Named (es : Entries) : Prop where
  type : ∃ s, Style.typeOf es = .str s
  classes : ∀ v, Style.classes? es = some v → ∃ s, v = .str s

/-- What is written down for an element and for the elements and items in it. -/
inductive Written : Value → Prop where
  | element (e : Element) : Written e.toValue
  | item (i : Inline) : Written i.toValue

theorem childItems_marked (type : String) (t : Text) {field : String}
    (h : field ∈ Style.childFields) {c : Value}
    (hc : c ∈ Style.childItems
      (.object [("type", .str type), ("content", .list [textValue t])]) field) :
    c = textValue t := by
  rcases List.mem_cons.mp h with rfl | h
  · simp [Style.childItems, get?_object] at hc
  · obtain rfl := List.mem_singleton.mp h
    simpa [Style.childItems, get?_object, Value.items?] using hc

theorem Written.child {v c : Value} (h : Written v) {field : String}
    (hfield : field ∈ Style.childFields) (hc : c ∈ Style.childItems v field) : Written c := by
  cases h with
  | element e =>
    rcases Style.list_or_none e.toValue field with ⟨label, es, items, heq, hget⟩ | hnone
    · rw [heq, Style.childItems_map hget] at hc
      have hholds : Holds e field (.list items) := by
        apply holds_of_get?
        rw [heq]
        exact hget
      cases hholds with
      | type hname hv => cases hv
      | text hname t hv => cases hv
      | attributes hname as hv => cases hv
      | content hname contents hv =>
        obtain rfl := Value.list.inj hv
        rcases List.mem_map.mp hc with ⟨item, -, rfl⟩
        exact .item item
      | elements hname hcontainer hv =>
        obtain rfl := Value.list.inj hv
        rcases List.mem_append.mp hc with hliteral | hchild
        · rcases exists_of_mem_literalParagraph hliteral with ⟨t, rfl⟩
          exact .element _
        · rcases mem_toValues.mp hchild with ⟨d, -, rfl⟩
          exact .element d
    · rw [Style.childItems_of_none hnone] at hc
      cases hc
  | item i =>
    cases i with
    | text t => cases hc
    | strong t => exact childItems_marked "strong" t hfield hc ▸ .item (.text t)
    | em t => exact childItems_marked "em" t hfield hc ▸ .item (.text t)

theorem Written.named {v : Value} (h : Written v) {es : Entries} (hes : v.entries? = some es) :
    Named es := by
  cases h with
  | element e =>
    rw [toValue_eq] at hes
    obtain rfl : e.fieldEntries = es := Option.some.inj hes
    constructor
    · exact ⟨_, by rw [Style.typeOf, get?_fieldEntries, get?_type, Option.getD_some]⟩
    · intro v hv
      have hclass : elementClass? e.toValue = some v := by
        rw [toValue_eq, ← hv, Style.classes?_eq_class? none]
        rfl
      rw [elementClass?_toValue, Option.map_eq_some_iff] at hclass
      rcases hclass with ⟨t, -, rfl⟩
      exact ⟨String.ofList t, rfl⟩
  | item i =>
    cases i with
    | text t => cases hes
    | strong t =>
      obtain rfl := Option.some.inj hes
      exact ⟨⟨"strong", rfl⟩, fun v hv => nomatch hv⟩
    | em t =>
      obtain rfl := Option.some.inj hes
      exact ⟨⟨"em", rfl⟩, fun v hv => nomatch hv⟩

theorem Written.reached {v w : Value} (hreach : Style.Reaches v w) (h : Written v) :
    Written w := by
  induction hreach with
  | refl v => exact h
  | child hfield hc _ ih => exact ih (h.child hfield hc)

/-- Whatever a pass over an element visits has a type and classes that are strings. -/
theorem named_of_mem_visits {e : Element} {es : Entries} (h : es ∈ Style.visits e.toValue) :
    Named es := by
  rcases Style.mem_visits_iff.mp h with ⟨w, hreach, hes⟩
  exact (Written.reached hreach (.element e)).named hes

end Body

end Notemark
