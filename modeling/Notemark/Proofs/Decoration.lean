import Notemark.Proofs.Positions

/-!
# Decoration

A marker decorates the element that begins next, unless a container closes before.

* `get?_toValue`, `elementClass?_toValue`: the id and the class of an element, as data,
* `ownClass?_of_made`: without a marker, the class of an element is the one in its tag,
* `Decorated`: elements in document order, each at the token where it begins and with the marks
  that decorate that token,
* `markers_decorate_next`: the elements of a body are decorated in this way.
-/

namespace Notemark.Body

/-! ## Ids and classes of elements -/

theorem get?_object (fields : List (String × Value)) (name : String) :
    (Value.object fields).get? name = (fields.find? (·.1 == name)).map (·.2) := by
  change ((fields.map fun f => (Scalar.str f.1, f.2)).find? _).map _ = _
  rw [List.find?_map, Option.map_map]
  rfl

theorem find?_ownFields (block : Block) :
    block.ownFields.find? (·.1 == "elementId") = none ∧
      block.ownFields.find? (·.1 == "attributes") = none := by
  cases block with
  | leaf name literal as => cases literal <;> exact ⟨rfl, rfl⟩
  | container head literal => cases head <;> exact ⟨rfl, rfl⟩
  | _ => exact ⟨rfl, rfl⟩

/-- Wherever they stand among the fields, an element has the id of its mark and its attributes. -/
theorem get?_toValue (e : Element) :
    e.toValue.get? "elementId" = e.mark.id.map textValue ∧
      e.toValue.get? "attributes" =
        (markedAttributes? e.block e.mark).map attributesValue := by
  rcases e with ⟨block, mark, children⟩
  rw [Element.toValue, get?_object, get?_object, elementFields]
  simp only [Element.mark, Element.block, List.cons_append, List.find?_cons, List.find?_append,
    (find?_ownFields block).1, (find?_ownFields block).2]
  cases markedAttributes? block mark <;> cases mark.id <;> cases block.ownAttributes?.isSome <;>
    cases block.isContainer <;> simp

/-- The class among the attributes of an element. -/
def elementClass? (v : Value) : Option Value :=
  (v.get? "attributes").bind (·.get? "class")

def Token.ownClass? (t : Token) : Option Text := t.attributes?.bind (·.get? classKey)

def Block.ownClass? (block : Block) : Option Text := block.ownAttributes?.bind (·.get? classKey)

namespace Attributes

variable {as : Attributes} {name other : Text}

theorem get?_erase (h : name ≠ other) (as : Attributes) :
    get? (erase as other) name = get? as name := by
  induction as with
  | nil => rfl
  | cons a as ih =>
    by_cases ha : a.1 = other
    · have hne : a.1 ≠ name := fun hname => h (hname.symm.trans ha)
      rw [get?_cons, if_neg hne, ← ih]
      simp [erase, ha]
    · have hkeep : erase (a :: as) other = a :: erase as other := by simp [erase, ha]
      rw [hkeep, get?_cons, get?_cons, ih]

theorem get?_value (as : Attributes) :
    (attributesValue as).get? "class" = (get? as classKey).map textValue := by
  have hkey : (fun a : Text × Text => String.ofList a.1 == "class") = (·.1 == classKey) := by
    funext a
    have hclass : "class" = String.ofList classKey := by decide
    rw [hclass, Bool.eq_iff_iff, beq_iff_eq, beq_iff_eq, String.ofList_inj]
  rw [attributesValue, get?_object, List.find?_map, get?, Option.map_map, Option.map_map]
  change Option.map _ (as.find? fun a : Text × Text => String.ofList a.1 == "class") = _
  rw [hkey]
  rfl

end Attributes

/-- A style marker overrides the class of the block. -/
theorem elementClass?_toValue (e : Element) :
    elementClass? e.toValue = (e.mark.style.or e.block.ownClass?).map textValue := by
  have hmarked : (markedAttributes? e.block e.mark).bind (·.get? classKey) =
      e.mark.style.or e.block.ownClass? := by
    unfold markedAttributes?
    cases e.mark.style with
    | none => rfl
    | some style => exact Attributes.get?_set classKey style _
  rw [elementClass?, (get?_toValue e).2, ← hmarked]
  cases markedAttributes? e.block e.mark with
  | none => rfl
  | some as => exact Attributes.get?_value as

/-- No attributes at all are shown as none. -/
theorem ownClass?_shown (as : Attributes) :
    ((if as.isEmpty then none else some as).bind fun as : Attributes => as.get? classKey) =
      as.get? classKey := by
  cases as with
  | nil => rfl
  | cons a as => rfl

theorem ownClass?_ofOpening {c : Container} {name : Text} {as : Attributes}
    (hsound : (Token.opening c name as).Sound) (hshaped : (Token.opening c name as).Shaped) :
    (Block.ofOpening c name as).ownClass? = as.get? classKey := by
  have hname : name = c.name := hsound
  have hcontent : (as.erase contentKey).get? classKey = as.get? classKey :=
    Attributes.get?_erase (by decide) as
  subst hname
  cases c with
  | form =>
    calc
      (Block.ofOpening .form Container.form.name as).ownClass?
          = ((as.erase contentKey).erase eventKey).get? classKey := ownClass?_shown _
      _ = (as.erase contentKey).get? classKey := Attributes.get?_erase (by decide) _
      _ = as.get? classKey := hcontent
  | each =>
    -- Loops and conditions have no attributes of their own, and their tags have no class.
    rcases hshaped with ⟨source, loopVariable, rfl⟩
    rfl
  | cond =>
    rcases hshaped with ⟨condition, rfl⟩
    rfl
  | div => exact (ownClass?_shown _).trans hcontent
  | button => exact (ownClass?_shown _).trans hcontent
  | span => exact (ownClass?_shown _).trans hcontent

/-- A block has the class that is written in its tag. -/
theorem ownClass?_of_block? {t : Token} {block : Block} (hsound : t.Sound) (hshaped : t.Shaped)
    (h : t.block? = some block) : block.ownClass? = t.ownClass? := by
  cases t with
  | heading level value => exact Option.some.inj h ▸ rfl
  | image as => exact Option.some.inj h ▸ rfl
  | component value as =>
    rcases hshaped with ⟨name, argument, rfl⟩
    exact Option.some.inj h ▸ rfl
  | leaf name as =>
    rw [← Option.some.inj h, Block.ofLeaf]
    by_cases hname : name = jsonName
    · rcases hshaped hname with ⟨shown, rfl⟩
      rw [if_pos hname]
      rfl
    · rw [if_neg hname]
      exact (ownClass?_shown _).trans (Attributes.get?_erase (by decide) as)
  | opening c name as => exact Option.some.inj h ▸ ownClass?_ofOpening hsound hshaped
  | _ => simp [Token.block?] at h

theorem ownClass?_of_made {ts : List Token} (hsound : ∀ t ∈ ts, t.Sound)
    (hshaped : ∀ t ∈ ts, t.Shaped) {n : Nat} {block : Block} (h : MadeAt ts n block) :
    block.ownClass? = ts[n]?.bind Token.ownClass? := by
  have hblock : ts[n]?.bind Token.block? = some block →
      block.ownClass? = ts[n]?.bind Token.ownClass? := by
    intro hbind
    rcases Option.bind_eq_some_iff.mp hbind with ⟨t, ht, hblock⟩
    have hmem := List.mem_of_getElem? ht
    rw [ht]
    exact ownClass?_of_block? (hsound t hmem) (hshaped t hmem) hblock
  cases block with
  | paragraph items =>
    rcases h with ⟨t, _, _, _, ht, hink, -⟩
    rw [ht]
    cases t with
    | opening c name as => simp [Token.hasInk] at hink
    | leaf name as => simp [Token.hasInk] at hink
    | image as => simp [Token.hasInk] at hink
    | component value as => simp [Token.hasInk] at hink
    | _ => rfl
  | _ => exact hblock h

/-! ## Decorated elements -/

/-- Elements at the tokens where they begin, with the marks that decorate these tokens. -/
structure Decorated (ts : List Token) (placed : List (Nat × Element)) : Prop where
  ascending : (placed.map (·.1)).Pairwise (· < ·)
  begins : ∀ n, n ∈ placed.map (·.1) ↔ BeginsAt ts n
  made : ∀ n e, (n, e) ∈ placed → MadeAt ts n e.block
  /-- The id is the one of the last id marker that counts for the element. -/
  elementId : ∀ n e, (n, e) ∈ placed → ∀ value, e.toValue.get? "elementId" = some value ↔
    ∃ id k, Decorates ts Token.idMarker? k n id ∧ value = textValue id
  /-- The class is the one of the last style marker that counts, or else the one in the tag. -/
  elementClass : ∀ n e, (n, e) ∈ placed → ∀ value, elementClass? e.toValue = some value ↔
    ∃ classes, value = textValue classes ∧
      ((∃ k, Decorates ts Token.styleMarker? k n classes) ∨
        (∀ k other, ¬ Decorates ts Token.styleMarker? k n other) ∧
          ts[n]?.bind Token.ownClass? = some classes)

/-- The class of the markers, or else the own one. -/
theorem MarkedAt.class_iff {ts : List Token} {n : Nat} {mark : Mark} (h : MarkedAt ts n mark)
    {own : Option Text} {classes : Text} :
    mark.style.or own = some classes ↔
      (∃ k, Decorates ts Token.styleMarker? k n classes) ∨
        (∀ k other, ¬ Decorates ts Token.styleMarker? k n other) ∧ own = some classes := by
  rw [← h.style classes]
  cases hstyle : mark.style with
  | none =>
    have hnone : ∀ k other, ¬ Decorates ts Token.styleMarker? k n other := by
      intro k other hk
      have hsome := (h.style other).mpr ⟨k, hk⟩
      rw [hstyle] at hsome
      simp at hsome
    simp [hnone]
  | some style =>
    have hsome : ¬ ∀ k other, ¬ Decorates ts Token.styleMarker? k n other := by
      intro hnone
      rcases (h.style style).mp hstyle with ⟨k, hk⟩
      exact hnone k style hk
    simp only [Option.some_or, hsome, false_and, or_false]

/-- Positions can be put on the objects instead of on what is seen of them. -/
theorem exists_pairs {α β : Type} {f : α → β} (placed : List (Nat × β)) (xs : List α)
    (h : placed.map (·.2) = xs.map f) :
    ∃ pairs : List (Nat × α), pairs.map (·.2) = xs ∧
      pairs.map (fun p => (p.1, f p.2)) = placed := by
  induction placed generalizing xs with
  | nil =>
    refine ⟨[], ?_, rfl⟩
    exact (List.map_eq_nil_iff.mp h.symm).symm
  | cons p placed ih =>
    rcases List.map_eq_cons_iff.mp h.symm with ⟨x, later, rfl, hx, hlater⟩
    rcases ih later hlater.symm with ⟨pairs, hpairs, hplaced⟩
    refine ⟨(p.1, x) :: pairs, by simp [hpairs], ?_⟩
    rw [List.map_cons, hplaced, hx]

theorem decorated_of_placement {ts : List Token} (hsound : ∀ t ∈ ts, t.Sound)
    (hshaped : ∀ t ∈ ts, t.Shaped) {pairs : List (Nat × Element)}
    (h : Builder.Placement ts ts.length (pairs.map fun p => (p.1, p.2.entry))) :
    Decorated ts pairs := by
  have hfst : (pairs.map fun p => (p.1, p.2.entry)).map (·.1) = pairs.map (·.1) := by
    rw [List.map_map]
    rfl
  have hmem : ∀ n e, (n, e) ∈ pairs →
      (n, e.entry) ∈ pairs.map fun p => (p.1, p.2.entry) := by
    intro n e hpair
    exact List.mem_map.mpr ⟨(n, e), hpair, rfl⟩
  refine ⟨hfst ▸ h.ascending, ?_, fun n e hpair => h.made _ (hmem n e hpair), ?_, ?_⟩
  · intro n
    rw [← hfst, h.begins n]
    refine ⟨And.right, fun hbegins => ⟨?_, hbegins⟩⟩
    rcases hbegins with ⟨t, ht, -⟩
    exact (List.getElem?_eq_some_iff.mp ht).1
  · intro n e hpair value
    have hmarked : MarkedAt ts n e.mark := h.marked _ (hmem n e hpair)
    rw [(get?_toValue e).1, Option.map_eq_some_iff]
    constructor
    · rintro ⟨id, hid, rfl⟩
      rcases (hmarked.id id).mp hid with ⟨k, hk⟩
      exact ⟨id, k, hk, rfl⟩
    · rintro ⟨id, k, hk, rfl⟩
      exact ⟨id, (hmarked.id id).mpr ⟨k, hk⟩, rfl⟩
  · intro n e hpair value
    have hmarked : MarkedAt ts n e.mark := h.marked _ (hmem n e hpair)
    have hown := ownClass?_of_made hsound hshaped (h.made _ (hmem n e hpair))
    rw [elementClass?_toValue, Option.map_eq_some_iff]
    constructor
    · rintro ⟨classes, hclasses, rfl⟩
      exact ⟨classes, rfl, hown ▸ hmarked.class_iff.mp hclasses⟩
    · rintro ⟨classes, rfl, hclasses⟩
      exact ⟨classes, hmarked.class_iff.mpr (hown ▸ hclasses), rfl⟩

/-- A marker decorates one element at most: the next one to begin is in the way of all others. -/
theorem Decorates.unique {ts : List Token} {marker? : Token → Option (Option Text)} {k m n : Nat}
    {v w : Text} (hm : Decorates ts marker? k m v) (hn : Decorates ts marker? k n w)
    (hbm : BeginsAt ts m) (hbn : BeginsAt ts n) : m = n := by
  apply Nat.le_antisymm
  · apply Nat.le_of_not_lt
    intro hlt
    exact (hm.2.2 n hn.1 hlt).1 hbn
  · apply Nat.le_of_not_lt
    intro hlt
    exact (hn.2.2 m hm.1 hlt).1 hbm

/-- One token begins one element. -/
theorem eq_of_ascending {α : Type} {placed : List (Nat × α)}
    (h : (placed.map (·.1)).Pairwise (· < ·)) {p q : Nat × α} (hp : p ∈ placed) (hq : q ∈ placed)
    (hpq : p.1 = q.1) : p = q := by
  induction placed with
  | nil => simp at hp
  | cons first later ih =>
    rcases List.pairwise_cons.mp h with ⟨hfirst, hlater⟩
    have hlt : ∀ r ∈ later, first.1 < r.1 := fun r hr => hfirst r.1 (List.mem_map_of_mem hr)
    rcases List.mem_cons.mp hp with rfl | hp'
    · rcases List.mem_cons.mp hq with rfl | hq'
      · rfl
      · exact absurd hpq (Nat.ne_of_lt (hlt q hq'))
    · rcases List.mem_cons.mp hq with rfl | hq'
      · exact absurd hpq.symm (Nat.ne_of_lt (hlt p hp'))
      · exact ih hlater hp' hq'

theorem parse_of_run {ts : List Token} {b : Builder} (heof : ts = untilEof ts ++ [.eof])
    (h : Builder.run {} ts = .ok b) : parse ts = b.finish := by
  rw [heof, Builder.run_append] at h
  unfold parse
  cases hrun : Builder.run {} (untilEof ts) with
  | error e => simp [hrun, bind, Except.bind] at h
  | ok b' =>
    rw [hrun] at h
    rw [← Except.ok.inj h]
    rfl

/-- The elements of a body, in document order, begin one after the other at tokens of the body. Each
has the id and the class that the markers before its token say, and no marker counts twice. -/
theorem markers_decorate_next {mode : Mode} {body : Text} {ts : List Token}
    (h : tokenize mode body = .ok ts) :
    ∃ elements placed, parse ts = .ok elements ∧
      placed.map (·.2) = Element.preorderAll elements ∧ Decorated ts placed ∧
      ∀ marker? k v w p q, p ∈ placed → q ∈ placed → Decorates ts marker? k p.1 v →
        Decorates ts marker? k q.1 w → p = q := by
  have htokens := tokenList_of_tokenize h
  have hsound := htokens.forall_mem trivial htokens.sound
  have hshaped := htokens.forall_mem trivial htokens.shaped
  rcases Builder.run_follows hsound ts.length (Nat.le_refl _) with ⟨b, hrun, hb⟩
  rcases Builder.finish_neat hb.neat with ⟨elements, hfinish, hentries⟩
  rcases hb.placed with ⟨entries, hplaced, hplacement⟩
  -- The outline knows the elements by their entries only.
  rw [← hentries] at hplaced
  rcases exists_pairs entries (Element.preorderAll elements) hplaced with ⟨placed, hpairs, rfl⟩
  have hdecorated := decorated_of_placement hsound hshaped hplacement
  refine ⟨elements, placed, ?_, hpairs, hdecorated, ?_⟩
  · rw [List.take_length] at hrun
    rw [parse_of_run htokens.append_eof hrun, hfinish]
  · intro marker? k v w p q hp hq hkp hkq
    apply eq_of_ascending hdecorated.ascending hp hq
    apply hkp.unique hkq
    · exact (hdecorated.begins p.1).mp (List.mem_map_of_mem hp)
    · exact (hdecorated.begins q.1).mp (List.mem_map_of_mem hq)

/-- White space and a style marker stand between an id marker and the leaf that it decorates; the
class of the marker comes before the one in the tag. -/
theorem markers_decorate_next_leaf :
    tokenize .strict ['{', '#', 'a', '}', ' ', '{', 'c', 'l', 'a', 's', 's', '=', '"', 'w', '"',
        '}', '[', 'h', 'r', ' ', 'c', 'l', 'a', 's', 's', '=', '"', 'v', '"', ']'] =
      .ok [.idMarker (some ['a']), .text [' '], .styleMarker ['w'],
        .leaf ['h', 'r'] [(classKey, ['v'])], .eof] ∧
    ∃ (elements : List Element) (placed : List (Nat × Element)) (e : Element),
      parse [.idMarker (some ['a']), .text [' '], .styleMarker ['w'],
        .leaf ['h', 'r'] [(classKey, ['v'])], .eof] = .ok elements ∧
      placed.map (·.2) = Element.preorderAll elements ∧ (3, e) ∈ placed ∧
      e.toValue.get? "elementId" = some (textValue ['a']) ∧
      elementClass? e.toValue = some (textValue ['w']) := by
  have haccepted : tokenize .strict ['{', '#', 'a', '}', ' ', '{', 'c', 'l', 'a', 's', 's', '=',
        '"', 'w', '"', '}', '[', 'h', 'r', ' ', 'c', 'l', 'a', 's', 's', '=', '"', 'v', '"', ']'] =
      .ok [.idMarker (some ['a']), .text [' '], .styleMarker ['w'],
        .leaf ['h', 'r'] [(classKey, ['v'])], .eof] := rfl
  refine ⟨haccepted, ?_⟩
  rcases markers_decorate_next haccepted with ⟨elements, placed, hparse, hplaced, hdecorated, -⟩
  have hbegins := (hdecorated.begins 3).mpr ⟨_, rfl, Or.inl rfl⟩
  rcases List.mem_map.mp hbegins with ⟨⟨n, e⟩, hmem, hn⟩
  rcases hn with rfl
  refine ⟨elements, placed, e, hparse, hplaced, hmem, ?_, ?_⟩
  · refine (hdecorated.elementId _ e hmem _).mpr ⟨['a'], 0, ⟨by decide, rfl, ?_⟩, rfl⟩
    intro j hj hj'
    have hcases : j = 1 ∨ j = 2 := by omega
    rcases hcases with rfl | rfl
    · simp [BeginsAt, ClosesAt, Token.block?, Token.hasInk, Text.allBlank, Text.isBlank,
        Token.idMarker?]
    · simp [BeginsAt, ClosesAt, Token.block?, Token.hasInk, Token.idMarker?]
  · refine (hdecorated.elementClass _ e hmem _).mpr ⟨['w'], rfl, Or.inl ⟨2, by decide, rfl, ?_⟩⟩
    intro j hj hj'
    omega

end Notemark.Body
