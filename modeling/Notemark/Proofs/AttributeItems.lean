import Notemark.Proofs.TagForms
import Notemark.Proofs.Text

/-!
# The places of attributes

An attribute list is read one character at a time. Here the same lists are described by their
grammar, which says where each item stands:

* `Attribute.NameText`, `Attribute.Written`: the name of an item, and what follows it,
* `Attribute.Between`: the texts that end between two items,
* `Attribute.Ends`: the texts that end with an item, which begins where its offset says,
* `Attribute.Phase.Reached`: what has been read when the reader is in a phase,
* `Attribute.standsIn_of_mem_readAll`: every item stands in the text that was read,
* `Tag.standsIn_of_mem_items`: the same for the items of a tag, behind its name.
-/

namespace Notemark.Body

namespace Attribute

/-! ## The grammar of items -/

/-- The name of an item: no blank, no equals sign, and no quote at its beginning. -/
structure NameText (n : Text) : Prop where
  not_blank : ∀ c ∈ n, Text.isBlank c = false
  no_equals : '=' ∉ n
  no_quote : n.head? ≠ some '"'

/-- What follows the name of an item with the given value, up to the character that ends it. -/
inductive Written : Option Text → Bool → Text → Prop where
  | bare : Written none false []
  | unquoted {v : Text} : (∀ c ∈ v, Text.isBlank c = false) → v.head? ≠ some '"' →
      Written (some v) false ('=' :: v)
  | quoted {v : Text} : '"' ∉ v → Written (some v) true ('=' :: '"' :: v)

/-- The characters that end an item: a quote if its value is quoted, else a blank. -/
def ends (quoted : Bool) (c : Char) : Bool := if quoted then c == '"' else Text.isBlank c

/-- The texts that end between two items. -/
inductive Between : Text → Prop where
  | start : Between []
  | blank {t : Text} {c : Char} : Between t → Text.isBlank c = true → Between (t ++ [c])
  | literal {t v : Text} : Between t → '"' ∉ v → Between (t ++ '"' :: (v ++ ['"']))
  | pair {t name w : Text} {value : Option Text} {quoted : Bool} {c : Char} : Between t →
      NameText name → Written value quoted w → name ++ w ≠ [] → ends quoted c = true →
        Between (t ++ (name ++ (w ++ [c])))

/-- The text, which begins at `base`, ends with the item: there are whole items before it, and its
offset is that of its first character. -/
inductive Ends (base : Nat) : Text → Attribute → Prop where
  | pair {before name w : Text} {value : Option Text} {quoted : Bool} : Between before →
      NameText name → Written value quoted w → name ++ w ≠ [] →
        Ends base (before ++ (name ++ w)) (.pair name value quoted (base + before.length))

/-- The item stands in the text, which begins at `base`, and goes on as far as it can. -/
def StandsIn (base : Nat) (t : Text) : Attribute → Prop
  | literal _ => True
  | pair name value quoted offset =>
    ∃ upTo rest, t = upTo ++ rest ∧ Ends base upTo (.pair name value quoted offset) ∧
      ∀ c, rest.head? = some c → ends quoted c = true

section Ends

variable {base start : Nat} {t n v : Text} {value : Option Text} {quoted : Bool} {c : Char}

theorem Ends.between (h : Ends base t (.pair n value quoted start)) (hc : ends quoted c = true) :
    Between (t ++ [c]) := by
  cases h with
  | pair hbefore hname hwritten hne =>
    rw [List.append_assoc, List.append_assoc]
    exact .pair hbefore hname hwritten hne hc

/-- The first character of a name. -/
theorem ends_single (h : Between t) (hblank : Text.isBlank c = false) (hquote : c ≠ '"')
    (hequals : c ≠ '=') : Ends base (t ++ [c]) (.pair [c] none false (base + t.length)) := by
  have hname : NameText [c] :=
    { not_blank := by simpa using hblank
      no_equals := by simpa using Ne.symm hequals
      no_quote := by simpa using hquote }
  exact .pair h hname .bare (by simp)

/-- One character more of a name. -/
theorem Ends.name_snoc (h : Ends base t (.pair n none false start)) (hne : n ≠ [])
    (hblank : Text.isBlank c = false) (hequals : c ≠ '=') :
    Ends base (t ++ [c]) (.pair (n ++ [c]) none false start) := by
  cases h with
  | pair hbefore hname hwritten _ =>
    cases hwritten with
    | bare =>
      have hlonger : NameText (n ++ [c]) := by
        refine ⟨?_, ?_, ?_⟩
        · intro d hd
          rcases List.mem_append.mp hd with hd | hd
          · exact hname.not_blank d hd
          · exact List.mem_singleton.mp hd ▸ hblank
        · simpa [hname.no_equals] using Ne.symm hequals
        · cases n with
          | nil => exact absurd rfl hne
          | cons d ds => simpa using hname.no_quote
      have hends : Ends base _ _ := .pair hbefore hlonger .bare (by simp)
      simpa using hends

/-- An equals sign after a name, or after none. -/
theorem Ends.equals (h : Between t) (hname : NameText n) :
    Ends base (t ++ (n ++ ['='])) (.pair n (some []) false (base + t.length)) :=
  .pair h hname (.unquoted (by simp) (by simp)) (by simp)

/-- A quote right behind the equals sign. -/
theorem Ends.quote (h : Ends base t (.pair n (some []) false start)) :
    Ends base (t ++ ['"']) (.pair n (some []) true start) := by
  cases h with
  | pair hbefore hname hwritten _ =>
    cases hwritten with
    | unquoted _ _ =>
      have hends : Ends base _ _ := .pair hbefore hname (.quoted List.not_mem_nil) (by simp)
      simpa using hends

/-- One character more of a value. An unquoted value does not begin with a quote. -/
theorem Ends.value_snoc (h : Ends base t (.pair n (some v) quoted start))
    (hc : ends quoted c = false) (hfirst : quoted = false → v = [] → c ≠ '"') :
    Ends base (t ++ [c]) (.pair n (some (v ++ [c])) quoted start) := by
  cases h with
  | pair hbefore hname hwritten _ =>
    cases hwritten with
    | unquoted hblank hhead =>
      have hlonger : Written (some (v ++ [c])) false ('=' :: (v ++ [c])) := by
        refine .unquoted ?_ ?_
        · intro d hd
          rcases List.mem_append.mp hd with hd | hd
          · exact hblank d hd
          · exact List.mem_singleton.mp hd ▸ hc
        · cases v with
          | nil => simpa using hfirst rfl rfl
          | cons d ds => simpa using hhead
      have hends : Ends base _ _ := .pair hbefore hname hlonger (by simp)
      simpa using hends
    | quoted hquote =>
      have hother : c ≠ '"' := by simpa [ends] using hc
      have hlonger : Written (some (v ++ [c])) true ('=' :: '"' :: (v ++ [c])) :=
        .quoted (by simpa [hquote] using hother.symm)
      have hends : Ends base _ _ := .pair hbefore hname hlonger (by simp)
      simpa using hends

/-- An item that the next character ends stands in every longer text. -/
theorem Ends.standsIn (h : Ends base t (.pair n value quoted start)) (hc : ends quoted c = true)
    (rest : Text) : StandsIn base (t ++ c :: rest) (.pair n value quoted start) := by
  refine ⟨t, c :: rest, rfl, h, ?_⟩
  intro d hd
  exact Option.some.inj hd ▸ hc

theorem Ends.standsIn_self (h : Ends base t (.pair n value quoted start)) :
    StandsIn base t (.pair n value quoted start) :=
  ⟨t, [], (List.append_nil t).symm, h, by simp⟩

/-- All offsets may be counted from an earlier place. -/
theorem StandsIn.shift (offset : Nat) (h : StandsIn base t (.pair n value quoted start)) :
    StandsIn (offset + base) t (.pair n value quoted (offset + start)) := by
  rcases h with ⟨upTo, rest, ht, hends, hrest⟩
  refine ⟨upTo, rest, ht, ?_, hrest⟩
  cases hends with
  | pair hbefore hname hwritten hne =>
    rw [← Nat.add_assoc]
    exact .pair hbefore hname hwritten hne

theorem StandsIn.nameText (h : StandsIn base t (.pair n value quoted start)) : NameText n := by
  rcases h with ⟨upTo, rest, -, hends, -⟩
  cases hends with
  | pair _ hname _ _ => exact hname

end Ends

/-! ## The reader -/

/-- The text that has been read when the reader is in a phase. -/
def Phase.Reached (base : Nat) (t : Text) : Phase → Prop
  | between => Between t
  | literal soFar => ∃ before, Between before ∧ '"' ∉ soFar ∧ t = before ++ '"' :: soFar.reverse
  | name start soFar => soFar ≠ [] ∧ Ends base t (.pair soFar.reverse none false start)
  | equals start n => Ends base t (.pair n (some []) false start)
  | quoted start n soFar => Ends base t (.pair n (some soFar.reverse) true start)
  | bare start n soFar => soFar ≠ [] ∧ Ends base t (.pair n (some soFar.reverse) false start)

/-- What one character more comes to, as the next phase and the item that it ends: the phase is
reached, and the item stands in every text that goes on from there. -/
def Phase.Advances (base : Nat) (t : Text) (c : Char) (r : Phase × Option Attribute) : Prop :=
  r.1.Reached base (t ++ [c]) ∧
    ∀ item, r.2 = some item → ∀ rest, item.StandsIn base (t ++ c :: rest)

section Reader

variable {base start : Nat} {t n : Text} {value : Option Text} {quoted : Bool} {c : Char}
  {phase : Phase}

theorem Phase.Advances.ite {p : Prop} [Decidable p] {r r' : Phase × Option Attribute}
    (hr : p → Advances base t c r) (hr' : ¬ p → Advances base t c r') :
    Advances base t c (if p then r else r') := by
  split
  · next hp => exact hr hp
  · next hp => exact hr' hp

theorem Phase.Advances.quiet (h : phase.Reached base (t ++ [c])) :
    Advances base t c (phase, none) :=
  ⟨h, fun _ hnone => by simp at hnone⟩

/-- The character ends a pair. -/
theorem Phase.Advances.ended (h : Ends base t (.pair n value quoted start))
    (hc : ends quoted c = true) :
    Advances base t c (between, some (.pair n value quoted start)) := by
  refine ⟨h.between hc, ?_⟩
  intro item hitem rest
  exact Option.some.inj hitem ▸ h.standsIn hc rest

/-- One step of the reader, by what is being read. -/
theorem Phase.Reached.step (h : phase.Reached base t) :
    Advances base t c (phase.step (base + t.length) c) := by
  cases phase with
  | between =>
    -- Between two items an equals sign begins a pair without a name.
    refine .ite (fun hblank => .quiet (.blank h hblank)) fun hblank => ?_
    refine .ite (fun hquote => .quiet ?_) fun hquote => ?_
    · exact ⟨t, h, List.not_mem_nil, by rw [hquote]; rfl⟩
    refine .ite (fun hequals => .quiet ?_) fun hequals => .quiet ?_
    · have hempty : NameText [] := ⟨by simp, by simp, by simp⟩
      rw [hequals]
      exact .equals h hempty
    · exact ⟨by simp, ends_single h (Bool.eq_false_iff.mpr hblank) hquote hequals⟩
  | literal soFar =>
    rcases h with ⟨before, hbefore, hfree, rfl⟩
    refine .ite (fun hquote => ⟨?_, ?_⟩) fun hquote => .quiet ?_
    · have hwhole : Between (before ++ '"' :: (soFar.reverse ++ ['"'])) :=
        .literal hbefore (by simpa using hfree)
      simpa [Phase.Reached, hquote] using hwhole
    · intro item hitem rest
      exact Option.some.inj hitem ▸ trivial
    · exact ⟨before, hbefore, by simpa [hfree] using Ne.symm hquote, by simp⟩
  | name start soFar =>
    rcases h with ⟨hne, hends⟩
    refine .ite (fun hblank => .ended hends hblank) fun hblank => ?_
    refine .ite (fun hequals => .quiet ?_) fun hequals => .quiet ?_
    · rw [hequals]
      cases hends with
      | pair hbefore hname hwritten _ =>
        cases hwritten with
        | bare =>
          have hequal : Ends base _ _ := .equals hbefore hname
          simpa [Phase.Reached] using hequal
    · have hlonger :=
        hends.name_snoc (by simpa using hne) (Bool.eq_false_iff.mpr hblank) hequals
      exact ⟨by simp, by simpa using hlonger⟩
  | equals start n =>
    -- A quote begins a quoted value here only; further on it is a part of the value.
    refine .ite (fun hquote => .quiet ?_) fun hquote => ?_
    · rw [hquote]
      exact Ends.quote h
    refine .ite (fun hblank => .ended h hblank) fun hblank => .quiet ?_
    exact ⟨by simp, Ends.value_snoc h (Bool.eq_false_iff.mpr hblank) fun _ _ => hquote⟩
  | quoted start n soFar =>
    refine .ite (fun hquote => .ended h (by simpa [ends] using hquote)) fun hquote => .quiet ?_
    have hlonger := Ends.value_snoc h (c := c) (by simpa [ends] using hquote) (by simp)
    simpa [Phase.Reached] using hlonger
  | bare start n soFar =>
    rcases h with ⟨hne, hends⟩
    refine .ite (fun hblank => .ended hends hblank) fun hblank => .quiet ?_
    have hlonger := hends.value_snoc (Bool.eq_false_iff.mpr hblank) fun _ hnil =>
      absurd hnil (by simpa using hne)
    exact ⟨by simp, by simpa using hlonger⟩

/-- At the end of the text the item that is being read stands there as it is. -/
theorem Phase.Reached.finish (h : phase.Reached base t) {item : Attribute}
    (hitem : item ∈ phase.finish) : item.StandsIn base t := by
  cases phase with
  | between => simp [Phase.finish] at hitem
  | literal soFar => exact List.mem_singleton.mp hitem ▸ trivial
  | name start soFar => exact List.mem_singleton.mp hitem ▸ h.2.standsIn_self
  | equals start n => exact List.mem_singleton.mp hitem ▸ Ends.standsIn_self h
  | quoted start n soFar => exact List.mem_singleton.mp hitem ▸ Ends.standsIn_self h
  | bare start n soFar => exact List.mem_singleton.mp hitem ▸ h.2.standsIn_self

theorem Phase.Reached.standsIn (h : phase.Reached base t) {rest : Text} {item : Attribute}
    (hitem : item ∈ readFrom phase (base + t.length) rest) : item.StandsIn base (t ++ rest) := by
  induction rest generalizing phase t with
  | nil =>
    rw [List.append_nil]
    exact h.finish hitem
  | cons c cs ih =>
    rcases h.step (c := c) with ⟨hnext, hended⟩
    -- What is read later has one character more before it.
    have hlater : item ∈ readFrom (phase.step (base + t.length) c).1 (base + t.length + 1) cs →
        item.StandsIn base (t ++ c :: cs) := by
      intro hmem
      have hstands := ih hnext (by simpa [Nat.add_assoc] using hmem)
      simpa using hstands
    unfold readFrom at hitem
    split at hitem
    · next next hstep => exact hlater (by simpa [hstep] using hitem)
    · next next ended hstep =>
      rcases List.mem_cons.mp hitem with rfl | hmem
      · exact hended item (by rw [hstep]) cs
      · exact hlater (by simpa [hstep] using hmem)

/-- Every item stands in the text that was read, at its offset. -/
theorem standsIn_of_mem_readAll {item : Attribute} (h : item ∈ readAll base t) :
    item.StandsIn base t := by
  have hstart : Phase.between.Reached base [] := Between.start
  exact hstart.standsIn h

end Reader

end Attribute

/-! ## Attributes of tags -/

namespace Clause

/-- The items of the attribute list, if there is one. -/
def items : Clause → List Attribute
  | plain items | form _ items => items
  | _ => []

/-- What stands between the name of a tag and its attribute list: the event of a form, after
blanks. -/
def Lead (lead : Text) : Clause → Prop
  | form event _ => ∃ blanks, Text.allBlank blanks = true ∧ lead = blanks ++ event
  | _ => lead = []

/-- A text begins with blanks, which stripping takes away, and a word. -/
theorem exists_blanks_word (rest : Text) :
    ∃ blanks list, Text.allBlank blanks = true ∧
      rest.length - (Text.stripStart rest).length = blanks.length ∧
      rest = blanks ++ ((Text.stripStart rest).takeWhile fun c => !Text.isBlank c) ++ list := by
  have hrest : rest.takeWhile Text.isBlank ++ Text.stripStart rest = rest :=
    List.takeWhile_append_dropWhile
  refine ⟨rest.takeWhile Text.isBlank,
    (Text.stripStart rest).dropWhile fun c => !Text.isBlank c, List.all_takeWhile, ?_, ?_⟩
  · have hlength := congrArg List.length hrest
    rw [List.length_append] at hlength
    omega
  · rw [List.append_assoc, List.takeWhile_append_dropWhile, hrest]

theorem standsIn_ofForm {base : Nat} {rest : Text} {item : Attribute}
    (h : item ∈ (ofForm base rest).items) :
    ∃ lead list, rest = lead ++ list ∧ (ofForm base rest).Lead lead ∧
      item.StandsIn (base + lead.length) list := by
  unfold ofForm at h ⊢
  dsimp only at h ⊢
  split at h
  · next hevent =>
    rw [if_pos hevent]
    -- The list is what follows the blanks and the event, so its offset is their length.
    rcases exists_blanks_word rest with ⟨blanks, list, hblanks, hused, hsplit⟩
    generalize (Text.stripStart rest).takeWhile (fun c => !Text.isBlank c) = event at h hsplit ⊢
    rw [hused, ← List.length_append] at h
    refine ⟨blanks ++ event, list, hsplit, ⟨blanks, hblanks, rfl⟩, ?_⟩
    rw [hsplit, List.drop_left] at h
    exact Attribute.standsIn_of_mem_readAll h
  · next hevent =>
    rw [if_neg hevent]
    exact ⟨[], rest, rfl, ⟨[], rfl, rfl⟩, Attribute.standsIn_of_mem_readAll h⟩

/-- The attributes of a clause stand in its text, behind the event if there is one. -/
theorem standsIn_of_mem_items {kind : TagKind} {base : Nat} {rest : Text} {item : Attribute}
    (h : item ∈ (ofText kind base rest).items) :
    ∃ lead list, rest = lead ++ list ∧ (ofText kind base rest).Lead lead ∧
      item.StandsIn (base + lead.length) list := by
  have hplain : ∀ {clause : Clause}, clause = .plain (Attribute.readAll base rest) →
      item ∈ clause.items →
        ∃ lead list, rest = lead ++ list ∧ clause.Lead lead ∧
          item.StandsIn (base + lead.length) list := by
    rintro clause rfl hmem
    exact ⟨[], rest, rfl, rfl, Attribute.standsIn_of_mem_readAll hmem⟩
  cases kind with
  | container c =>
    cases c with
    | form => exact standsIn_ofForm h
    | each =>
      simp only [ofText, ofEach] at h
      split at h <;> simp [items] at h
    | cond => simp [ofText, items] at h
    | _ => exact hplain rfl h
  | json => simp [ofText, items] at h
  | leaf => exact hplain rfl h

end Clause

/-- The name of an opening tag is read first, and its kind decides how the rest is read. -/
theorem Tag.ofInner_eq_opening {inner name : Text} {clause : Clause}
    (h : Tag.ofInner inner = .opening name clause) :
    ∃ rest, inner = name ++ rest ∧
      clause = Clause.ofText (TagKind.ofName name) name.length rest := by
  unfold Tag.ofInner at h
  split at h
  · simp at h
  · simp at h
  · rcases Tag.opening.inj h with ⟨hname, hclause⟩
    refine ⟨inner.drop name.length, ?_, by rw [← hclause, hname]⟩
    rw [← hname, Text.drop_length_takeWhile, List.takeWhile_append_dropWhile]

/-- The attributes of a tag stand behind its name, at their offsets. -/
theorem Tag.standsIn_of_mem_items {inner name : Text} {clause : Clause} {item : Attribute}
    (h : Tag.ofInner inner = .opening name clause) (hitem : item ∈ clause.items) :
    ∃ lead list, inner = name ++ (lead ++ list) ∧ clause.Lead lead ∧
      item.StandsIn (name.length + lead.length) list := by
  rcases Tag.ofInner_eq_opening h with ⟨rest, hinner, rfl⟩
  rcases Clause.standsIn_of_mem_items hitem with ⟨lead, list, rfl, hlead, hstands⟩
  exact ⟨lead, list, hinner, hlead, hstands⟩

end Notemark.Body
