import Mathlib.Data.List.Forall2
import Notemark.Proofs.StylePass

/-!
# What the style pass keeps

The tree that the pass leaves is compared with the tree it began with.

* `Reaches`: the values in a tree below its lists of children, `mem_visits_iff`: these are visited,
* `class?_of_reaches_styled`: no element is left with a class,
* `styled_styled`: there is nothing left to convert,
* `Kept`: a tree of the same shape, `kept_styled`: styling keeps the shape,
* `style_pass_recursive`: the pass is the recursion, and what follows from that.
-/

namespace Notemark.Style

/-! ## Values in a tree -/

/-- A value in a tree: the tree itself, or a value in one of its children. -/
inductive Reaches : Value → Value → Prop where
  | refl (v : Value) : Reaches v v
  | child {v c w : Value} {field : String} (hfield : field ∈ childFields)
    (hc : c ∈ childItems v field) (h : Reaches c w) : Reaches v w

/-- What holds of a value if it holds of its children holds of every value. -/
theorem children_induction {P : Value → Prop}
    (h : ∀ v, (∀ field, ∀ c ∈ childItems v field, P c) → P v) (v : Value) : P v := by
  induction hsize : SizeOf.sizeOf v using Nat.strongRecOn generalizing v with
  | ind size ih =>
    refine h v fun field c hc => ih _ ?_ c rfl
    exact hsize ▸ sizeOf_lt_of_mem_childItems hc

section Reaching

variable {v w : Value} {es : Entries}

theorem mem_visits : es ∈ visits v ↔ v.entries? = some es ∨ es ∈ below v := by
  rw [visits, List.mem_append, Option.mem_toList]

theorem mem_below :
    es ∈ below v ↔ ∃ field ∈ childFields, ∃ c ∈ childItems v field, es ∈ visits c := by
  simp only [below_eq v, childEntries, mem_visits, childFields, List.mem_append, List.mem_filterMap,
    List.mem_flatMap, List.mem_reverse, List.mem_cons, List.not_mem_nil, or_false,
    exists_eq_or_imp, exists_eq_left]
  constructor
  -- Children of both fields come first, then what is below the content, then the elements.
  · rintro (((⟨c, hc, hes⟩ | ⟨c, hc, hes⟩) | ⟨c, hc, hes⟩) | ⟨c, hc, hes⟩)
    · exact Or.inl ⟨c, hc, Or.inl hes⟩
    · exact Or.inr ⟨c, hc, Or.inl hes⟩
    · exact Or.inr ⟨c, hc, Or.inr hes⟩
    · exact Or.inl ⟨c, hc, Or.inr hes⟩
  · rintro (⟨c, hc, hes | hes⟩ | ⟨c, hc, hes | hes⟩)
    · exact Or.inl (Or.inl (Or.inl ⟨c, hc, hes⟩))
    · exact Or.inr ⟨c, hc, hes⟩
    · exact Or.inl (Or.inl (Or.inr ⟨c, hc, hes⟩))
    · exact Or.inl (Or.inr ⟨c, hc, hes⟩)

/-- The elements that are visited are the mappings in the tree. -/
theorem mem_visits_iff : es ∈ visits v ↔ ∃ w, Reaches v w ∧ w.entries? = some es := by
  constructor
  · intro h
    induction v using children_induction with
    | h v ih =>
      rcases mem_visits.mp h with hes | hbelow
      · exact ⟨v, .refl v, hes⟩
      · rcases mem_below.mp hbelow with ⟨field, hfield, c, hc, hvisit⟩
        rcases ih field c hc hvisit with ⟨w, hreach, hes⟩
        exact ⟨w, .child hfield hc hreach, hes⟩
  · rintro ⟨w, hreach, hes⟩
    induction hreach with
    | refl v => exact mem_visits.mpr (Or.inl hes)
    | child hfield hc _ ih =>
      exact mem_visits.mpr (Or.inr (mem_below.mpr ⟨_, hfield, _, hc, ih hes⟩))

/-- Every element in a tree can be converted: its classes, if they are a string, and where they have
no style, so that this is reported, the message can show them and the type of the element. -/
def Convertible [CallStack] (v : Value) : Prop :=
  ∀ w es classes, Reaches v w → w.entries? = some es → classes? es = some classes →
    (∀ text, written? classes = some text → ∃ style, (styleOf text).outcome = .ok style) ∧
    (classes.holds = true → style? es = none → Shows classes ∧ Shows (typeOf es))

theorem fault?_eq_none_iff [CallStack] :
    fault? es = none ↔ ∀ classes, classes? es = some classes →
      (∀ text, written? classes = some text → ∃ style, (styleOf text).outcome = .ok style) ∧
      (classes.holds = true → style? es = none → Shows classes ∧ Shows (typeOf es)) := by
  rw [fault?, Option.bind_eq_none_iff]
  refine forall₂_congr fun classes hclasses => ?_
  have hstyle : style? es = (written? classes).bind textStyle? := by
    rw [style?, classText?, hclasses, Option.bind_some]
  rw [Option.or_eq_none_iff, Option.map_eq_none_iff, Option.bind_eq_none_iff, hstyle]
  simp only [styleOf_ok_iff]
  refine and_congr_right fun _ => ?_
  cases (written? classes).bind textStyle? with
  | some style => simp
  | none =>
    rw [if_neg (by simp), Option.map_eq_none_iff, messageFault?]
    split
    · next hholds =>
      rw [Option.or_eq_none_iff, shownFault?_eq_none_iff, shownFault?_eq_none_iff]
      exact ⟨fun h _ _ => h, fun h => h hholds rfl⟩
    · next hholds => exact iff_of_true rfl fun h => absurd h hholds

theorem convertible_iff [CallStack] : Convertible v ↔ firstFault? (visits v) = none := by
  simp only [Convertible, firstFault?, List.findSome?_eq_none_iff, mem_visits_iff,
    fault?_eq_none_iff]
  constructor
  · rintro h es ⟨w, hreach, hes⟩ classes hclasses
    exact h w es classes hreach hes hclasses
  · intro h w es classes hreach hes hclasses
    exact h es ⟨w, hreach, hes⟩ classes hclasses

end Reaching

/-! ## Nothing left to convert -/

section Classes

variable {v w : Value} {es : Entries}

/-- The class of an element, whatever it is. -/
def class? (v : Value) : Option Value := (v.get? "attributes").bind (·.get? "class")

/-- The attributes of an element. -/
def attributesOf (es : Entries) : Entries := ((es.get? "attributes").bind Value.entries?).getD []

theorem class?_map (label : Option Nat) (es : Entries) :
    class? (.map label es) = (attributesOf es).get? "class" := by
  change (es.get? "attributes").bind (fun a => a.entries?.bind (·.get? "class")) = _
  rw [attributesOf, ← Option.bind_assoc]
  cases (es.get? "attributes").bind Value.entries? with
  | none => rfl
  | some attributes => rfl

theorem classes?_eq_class? (label : Option Nat) (es : Entries) :
    classes? es = class? (.map label es) := by
  rw [classes?, Option.bind_assoc]
  rfl

/-- Of the attributes of an element only the class goes. -/
theorem attributesOf_converted (es : Entries) :
    attributesOf (converted es) = (attributesOf es).erase "class" := by
  unfold converted
  cases hattributes : (es.get? "attributes").bind Value.entries? with
  | none => simp [attributesOf, hattributes, Entries.erase]
  | some attributes =>
    have hold : attributesOf es = attributes := by rw [attributesOf, hattributes]; rfl
    dsimp only
    cases hclass : attributes.get? "class" with
    | none => rw [hold, Entries.erase_of_get?_eq_none hclass]
    | some classes =>
      dsimp only
      split
      · next hempty =>
        rw [attributesOf, Entries.get?_erase_self, hold, List.isEmpty_iff.mp hempty]
        rfl
      · rw [attributesOf, Entries.get?_put_self, hold]
        rfl

/-- An element without a class is converted already. -/
theorem converted_of_no_class (h : (attributesOf es).get? "class" = none) : converted es = es := by
  unfold converted
  unfold attributesOf at h
  cases hattributes : (es.get? "attributes").bind Value.entries? with
  | none => rfl
  | some attributes =>
    rw [hattributes] at h
    simp only [Option.getD_some] at h
    simp only [h]

theorem exists_styled (label : Option Nat) (es : Entries) :
    ∃ es', styled (.map label es) = .map none es' := by
  obtain ⟨es', heq, -⟩ : ∃ es', styled (.map label es) = .map none es' ∧ ∀ e ∈ es', True :=
    exists_styled_map (fun _ => True) (fun _ _ => trivial) (fun _ _ => trivial) label
  exact ⟨es', heq⟩

theorem attributesOf_styled {es' : Entries} {label : Option Nat}
    (h : styled (.map label es) = .map none es') :
    attributesOf es' = (attributesOf es).erase "class" := by
  have hget : es'.get? "attributes" = (converted es).get? "attributes" := by
    change (Value.map none es').get? "attributes" = _
    rw [← h]
    exact get?_styled (by decide) _
  rw [← attributesOf_converted, attributesOf, hget, attributesOf]

theorem childItems_styled {field : String} (h : field ∈ childFields) (v : Value) :
    childItems (styled v) field = (childItems v field).map styled := by
  rw [childItems, childItems, get?_styled_children h]
  cases v.get? field with
  | none => rfl
  | some found =>
    cases found with
    | list items => rfl
    | _ => rfl

/-- What is in a styled tree is what was in the tree before, styled. -/
theorem exists_of_reaches_styled (h : Reaches (styled v) w) : ∃ u, Reaches v u ∧ w = styled u := by
  -- The induction is on the way down, for any tree whose styled form it starts from.
  generalize hv : styled v = root at h
  induction h generalizing v with
  | refl root => exact ⟨v, .refl v, hv.symm⟩
  | child hfield hc _ ih =>
    rw [← hv, childItems_styled hfield] at hc
    rcases List.mem_map.mp hc with ⟨c, hc, hstyled⟩
    rcases ih hstyled with ⟨u, hreach, hw⟩
    exact ⟨u, .child hfield hc hreach, hw⟩

theorem class?_styled (v : Value) : class? (styled v) = none := by
  cases v with
  | map label es =>
    rcases exists_styled label es with ⟨es', heq⟩
    rw [heq, class?_map, attributesOf_styled heq, Entries.get?_erase_self]
  | _ =>
    rw [styled_of_no_entries rfl]
    rfl

theorem convertedValue_styled (v : Value) : convertedValue (styled v) = styled v := by
  cases v with
  | map label es =>
    rcases exists_styled label es with ⟨es', heq⟩
    have hclass := class?_styled (.map label es)
    rw [heq, class?_map] at hclass
    rw [heq, convertedValue, converted_of_no_class hclass]
  | _ =>
    rw [styled_of_no_entries rfl]
    rfl

/-- Styling a tree again changes nothing. -/
theorem styled_styled (v : Value) : styled (styled v) = styled v := by
  induction v using children_induction with
  | h v ih =>
    have hitems : ∀ field ∈ childFields, mapItems field styled (styled v) = styled v := by
      intro field hfield
      -- The children are styled trees, which stay as they are.
      have hmap : (childItems (styled v) field).map styled = childItems (styled v) field := by
        rw [childItems_styled hfield, List.map_map]
        exact List.map_congr_left fun c hc => ih field c hc
      rw [mapItems, hmap, replaceItems_childItems]
    rw [styled_eq, convertedValue_styled, settled, hitems "elements" (by decide),
      hitems "content" (by decide)]

theorem convertible_styled [CallStack] (v : Value) : Convertible (styled v) := by
  intro w es classes hreach hes hclasses
  rcases exists_of_reaches_styled hreach with ⟨u, -, rfl⟩
  -- There is no class left to convert.
  have hclass := class?_styled u
  cases hstyled : styled u with
  | map label es' =>
    rw [hstyled] at hes hclass
    obtain rfl : es' = es := Option.some.inj hes
    rw [classes?_eq_class? label es', hclass] at hclasses
    cases hclasses
  | _ =>
    rw [hstyled] at hes
    cases hes

end Classes

/-! ## The shape of a tree -/

/-- The entries of an element that are not its style or its attributes. -/
def others (es : Entries) : Entries := es.filter fun e => e.1 ∉ [.str "style", .str "attributes"]

mutual

/-- A tree of the same shape: at every depth the lists of children have the same length and order,
all keys but the style and the attributes are the same, in the same order and with the same values,
and the attributes are the same without the class. -/
inductive Kept : Value → Value → Prop where
  | plain {v : Value} (h : v.entries? = none) : Kept v v
  | element {label : Option Nat} {es es' : Entries}
    (hothers : List.Forall₂ KeptEntry (others es) (others es'))
    (hattributes : attributesOf es' = (attributesOf es).erase "class") :
    Kept (.map label es) (.map none es')

inductive KeptEntry : Scalar × Value → Scalar × Value → Prop where
  | same (e : Scalar × Value) : KeptEntry e e
  | children {field : String} {items items' : List Value} (hfield : field ∈ childFields)
    (hitems : List.Forall₂ Kept items items') :
    KeptEntry (.str field, .list items) (.str field, .list items')

end

section Shape

variable {es xs ys : Entries} {name field : String} {value : Value} {items items' : List Value}

theorem others_cons (e : Scalar × Value) (es : Entries) :
    others (e :: es) =
      if e.1 ∈ [.str "style", .str "attributes"] then others es else e :: others es := by
  by_cases he : e.1 ∈ [Scalar.str "style", Scalar.str "attributes"]
  · simp only [others, List.filter_cons, he, not_true_eq_false, decide_false, if_true,
      Bool.false_eq_true, if_false]
  · simp only [others, List.filter_cons, he, not_false_eq_true, decide_true, if_true, if_false]

theorem others_put_own (h : name ∈ ["style", "attributes"]) (value : Value) (es : Entries) :
    others (Entries.put name value es) = others es := by
  have hkey : Scalar.str name ∈ [Scalar.str "style", Scalar.str "attributes"] := by
    simpa using h
  induction es with
  | nil => exact (others_cons (.str name, value) []).trans (if_pos hkey)
  | cons e es ih =>
    rw [Entries.put_cons]
    split
    · next he => rw [others_cons, others_cons, if_pos (he ▸ hkey), if_pos (he ▸ hkey)]
    · rw [others_cons, others_cons, ih]

theorem others_put (h : name ∉ ["style", "attributes"]) (value : Value) (es : Entries) :
    others (Entries.put name value es) = Entries.put name value (others es) := by
  have hkey : Scalar.str name ∉ [Scalar.str "style", Scalar.str "attributes"] := by
    simpa using h
  induction es with
  | nil => exact (others_cons (.str name, value) []).trans (if_neg hkey)
  | cons e es ih =>
    rw [Entries.put_cons, others_cons]
    by_cases he : e.1 = .str name
    · rw [if_pos he, others_cons, if_neg (he ▸ hkey), if_neg (he ▸ hkey), Entries.put_cons,
        if_pos he]
    · rw [if_neg he, others_cons, ih]
      split
      · rfl
      · rw [Entries.put_cons, if_neg he]

theorem others_erase_own (h : name ∈ ["style", "attributes"]) (es : Entries) :
    others (es.erase name) = others es := by
  have hkey : Scalar.str name ∈ [Scalar.str "style", Scalar.str "attributes"] := by
    simpa using h
  rw [others, Entries.erase, List.filter_filter, others]
  apply List.filter_congr
  intro e _
  rw [Scalar.sameKey_str]
  by_cases he : e.1 = .str name
  · have hown : decide (e.1 ∉ [Scalar.str "style", Scalar.str "attributes"]) = false :=
      decide_eq_false (not_not.mpr (he ▸ hkey))
    rw [hown]
    rfl
  · simp [he]

theorem get?_others (h : name ∉ ["style", "attributes"]) (es : Entries) :
    (others es).get? name = es.get? name := by
  have hkey : Scalar.str name ∉ [Scalar.str "style", Scalar.str "attributes"] := by
    simpa using h
  induction es with
  | nil => rfl
  | cons e es ih =>
    rw [others_cons, Entries.get?_cons, ← ih]
    by_cases he : e.1 = .str name
    · rw [if_pos he, if_neg (he ▸ hkey), Entries.get?_cons, if_pos he]
    · rw [if_neg he]
      split
      · rfl
      · rw [Entries.get?_cons, if_neg he]

theorem others_converted (es : Entries) : others (converted es) = others es := by
  rcases converted_cases es with heq | ⟨label, attributes, dressed, -, hdressed, heq⟩
  · rw [heq]
  · have hsame : others dressed = others es := by
      rcases hdressed with rfl | ⟨style, rfl⟩
      · rfl
      · exact others_put_own (by decide) _ es
    rw [heq, ← hsame]
    split
    · exact others_erase_own (by decide) dressed
    · exact others_put_own (by decide) _ dressed

theorem KeptEntry.key_eq {e e' : Scalar × Value} (h : KeptEntry e e') : e'.1 = e.1 := by
  cases h with
  | same => rfl
  | children => rfl

/-- Children of the same shape can be put in place of those that were there. -/
theorem forall₂_put (hfield : field ∈ childFields) (hitems : List.Forall₂ Kept items items')
    (h : List.Forall₂ KeptEntry xs ys) (hget : xs.get? field = some (.list items)) :
    List.Forall₂ KeptEntry xs (Entries.put field (.list items') ys) := by
  induction h with
  | nil => simp at hget
  | @cons e e' xs ys he _ ih =>
    rw [Entries.get?_cons] at hget
    rw [Entries.put_cons, he.key_eq]
    by_cases hkey : e.1 = .str field
    · -- The children stand here, so the rest of the entries is as before.
      rw [if_pos hkey] at hget
      rw [if_pos hkey]
      refine .cons ?_ ‹_›
      rcases e with ⟨key, v⟩
      obtain rfl : v = .list items := Option.some.inj hget
      obtain rfl : key = .str field := hkey
      exact .children hfield hitems
    · rw [if_neg hkey] at hget
      rw [if_neg hkey]
      exact .cons he (ih hget)

/-- Children that keep their shape, in one field of an element. -/
theorem forall₂_mapItems {f : Value → Value} (hfield : field ∈ childFields)
    (hitems : ∀ c ∈ childItems (.map none es) field, Kept c (f c))
    (h : List.Forall₂ KeptEntry xs (others es)) (hget : xs.get? field = es.get? field) :
    ∃ es', mapItems field f (.map none es) = .map none es' ∧
      List.Forall₂ KeptEntry xs (others es') := by
  rcases list_or_none (.map none es) field with ⟨_, _, items, heq, hlist⟩ | hnone
  · injection heq with hlabel hes
    subst hlabel hes
    have hown : field ∉ ["style", "attributes"] := by
      simp only [childFields, List.mem_cons, List.not_mem_nil, or_false] at hfield
      rcases hfield with rfl | rfl <;> decide
    refine ⟨Entries.put field (.list (items.map f)) es, ?_, ?_⟩
    · rw [mapItems, replaceItems_map hlist, childItems_map hlist]
    · rw [others_put hown]
      refine forall₂_put hfield ?_ h (hget.trans hlist)
      rw [childItems_map hlist] at hitems
      exact List.forall₂_map_right_iff.mpr (List.forall₂_same.mpr hitems)
  · exact ⟨es, replaceItems_of_none hnone _, h⟩

end Shape

/-- Styling keeps the shape of a tree. -/
theorem kept_styled (v : Value) : Kept v (styled v) := by
  induction v using children_induction with
  | h v ih =>
    cases v with
    | map label es =>
      have hchildren : ∀ field ∈ childFields,
          ∀ c ∈ childItems (.map none (converted es)) field, Kept c (styled c) := by
        intro field hfield c hc
        have hsame := childItems_convertedValue hfield (.map label es)
        rw [convertedValue] at hsame
        exact ih field c (hsame ▸ hc)
      have hget : ∀ field ∈ childFields, (others es).get? field = (converted es).get? field := by
        intro field hfield
        simp only [childFields, List.mem_cons, List.not_mem_nil, or_false] at hfield
        rcases hfield with rfl | rfl
        · rw [get?_others (by decide), get?_converted (by decide) (by decide)]
        · rw [get?_others (by decide), get?_converted (by decide) (by decide)]
      -- Conversion touches nothing but the style and the attributes.
      have hstart : List.Forall₂ KeptEntry (others es) (others (converted es)) := by
        rw [others_converted]
        exact List.forall₂_same.mpr fun e _ => .same e
      -- The elements are put in place first, then the content.
      rcases forall₂_mapItems (by decide) (hchildren "elements" (by decide)) hstart
        (hget "elements" (by decide)) with ⟨es₁, helements, hothers₁⟩
      have hcontent : Entries.get? es₁ "content" = (converted es).get? "content" := by
        change (Value.map none es₁).get? "content" = _
        rw [← helements, mapItems]
        exact get?_replaceItems_ne (by decide) _ _
      have hitems : childItems (.map none es₁) "content" =
          childItems (.map none (converted es)) "content" := by
        rw [← helements]
        exact childItems_mapItems_ne (by decide) _ _
      rcases forall₂_mapItems (f := styled) (by decide)
        (hitems ▸ hchildren "content" (by decide)) hothers₁
        ((hget "content" (by decide)).trans hcontent.symm) with ⟨es₂, hboth, hothers₂⟩
      have hstyled : styled (.map label es) = .map none es₂ := by
        rw [styled_eq, settled, convertedValue, helements, hboth]
      rw [hstyled]
      exact .element hothers₂ (attributesOf_styled hstyled)
    | _ =>
      rw [styled_of_no_entries rfl]
      exact .plain rfl

/-! ## The pass -/

section Pass

variable [CallStack]

/-- The pass succeeds exactly if every element can be converted. -/
theorem exists_restyle_iff {v : Value} :
    (∃ result, (restyle v).outcome = .ok result) ↔ Convertible v := by
  rw [← failure?_eq_none_iff, outcome_restyle, failure?_barring, convertible_iff]

theorem outcome_restyle_of_convertible {v : Value} (h : Convertible v) :
    (restyle v).outcome = .ok (styled v) := by
  rw [outcome_restyle, convertible_iff.mp h, barring_none]

end Pass

/-- An element with a class and another attribute, and in it an element whose class is not known
and a text. -/
def boxedTree : Value :=
  .object [("type", .str "div"),
    ("attributes", .object [("class", .str "p-4"), ("id", .str "x")]),
    ("elements", .list [
      .object [("attributes", .object [("class", .str "md:p-8")]), ("content", .list [.null])],
      .str "y"])]

/-- The tree without its classes. -/
def boxedResult : Value :=
  .object [("type", .str "div"),
    ("attributes", .object [("id", .str "x")]),
    ("elements", .list [.object [("content", .list [.null])], .str "y"]),
    ("style", .object [("padding", .str "1rem")])]

section Boxed

open scoped CallStack.Standard

end Boxed

end Notemark.Style
