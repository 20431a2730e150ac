import Notemark.Proofs.Names
import Notemark.Proofs.Coverage

/-!
# The text of a tag

What is needed to read back a tag that was written in good order:

* `Transparent`: text that a tag cannot end in,
* `Silent`: text that leaves no quote open,
* `attributeText`: attributes in writing; `readAll_attributeText` reads them back,
* `Tag.ofInner_opening`: the name of a tag and what follows it.
-/

namespace Notemark.Body

/-! ## Where a tag ends -/

/-- No closing bracket outside quotes, and no quote left open: the end of a tag is found behind
the text. -/
def Transparent (a : Text) : Prop :=
  ∀ t, bracketEnd false (a ++ t) = (bracketEnd false t).map (a.length + ·)

section Transparent

variable {a b v t : Text}

theorem transparent_plain (h : ∀ c ∈ a, c ≠ '"' ∧ c ≠ ']') : Transparent a :=
  fun _ => bracketEnd_append h

theorem Transparent.append (ha : Transparent a) (hb : Transparent b) : Transparent (a ++ b) := by
  intro t
  rw [List.append_assoc, ha, hb, Option.map_map, List.length_append]
  congr 1
  funext i
  simp only [Function.comp_apply]
  omega

theorem transparent_quoted (h : '"' ∉ v) : Transparent ('"' :: (v ++ ['"'])) := by
  intro t
  have hopen : bracketEnd false ('"' :: (v ++ ['"']) ++ t) =
      (bracketEnd true (v ++ '"' :: t)).map (· + 1) := by
    simp [bracketEnd]
  rw [hopen, bracketEnd_quoted h, Option.map_map]
  congr 1
  funext i
  simp only [Function.comp_apply, List.length_cons, List.length_append, List.length_nil]
  omega

theorem tagEnd_of_transparent (start : Nat) (h : Transparent a) :
    Id.run (tagEnd start (a ++ ']' :: t)) = some a.length := by
  refine tagEnd_of_bracketEnd start ?_
  rw [h]
  simp [bracketEnd]

/-- A tag with such an inner text is read whole, whatever stands before and behind it. -/
theorem readAt_tag (k : Cursor) (h : Transparent a) :
    readAt k ((Reading.tag a).span ++ t) = .tag a := by
  have htext : (Reading.tag a).span ++ t = '[' :: (a ++ ']' :: t) := by simp [Reading.span]
  rw [htext]
  change readTag k ('[' :: (a ++ ']' :: t)) = .tag a
  rw [readTag, List.drop_one, List.tail_cons, tagEnd_of_transparent k.offset h]
  simp

end Transparent

/-! ## Quotes -/

/-- Behind the text no quote is open, if none was open before it. -/
def Silent (a : Text) : Prop :=
  ∀ index before t, before ≠ some '\\' → ∃ before', before' ≠ some '\\' ∧
    openQuoteFrom index before none (a ++ t) = openQuoteFrom (index + a.length) before' none t

section Silent

variable {a b v : Text}

theorem openQuoteFrom_cons {index : Nat} {before : Option Char} {opened : Option Nat} {c : Char}
    (hc : c ≠ '"') (t : Text) :
    openQuoteFrom index before opened (c :: t) = openQuoteFrom (index + 1) (some c) opened t := by
  simp [openQuoteFrom, hc]

/-- Text without quotes is passed over; the character before the rest is one of its own, if it has
any. -/
theorem openQuoteFrom_append (index : Nat) (before : Option Char) (opened : Option Nat)
    (h : '"' ∉ a) (t : Text) :
    ∃ before', (before' = before ∨ ∃ c ∈ a, before' = some c) ∧
      openQuoteFrom index before opened (a ++ t) =
        openQuoteFrom (index + a.length) before' opened t := by
  induction a generalizing index before with
  | nil => exact ⟨before, Or.inl rfl, rfl⟩
  | cons c cs ih =>
    have hc : c ≠ '"' := fun hc => h (by simp [hc])
    have hcs : '"' ∉ cs := fun hmem => h (by simp [hmem])
    rcases ih (index + 1) (some c) hcs with ⟨before', hbefore, hread⟩
    refine ⟨before', Or.inr ?_, ?_⟩
    · rcases hbefore with rfl | ⟨d, hd, rfl⟩
      · exact ⟨c, by simp, rfl⟩
      · exact ⟨d, by simp [hd], rfl⟩
    · rw [List.cons_append, openQuoteFrom_cons hc, hread, List.length_cons, Nat.add_right_comm,
        Nat.add_assoc]

/-- A text without quotes leaves none open. -/
theorem openQuote?_of_notMem (h : '"' ∉ a) : openQuote? a = none := by
  rcases openQuoteFrom_append 0 none none h [] with ⟨before', -, hread⟩
  rw [List.append_nil] at hread
  exact hread

theorem silent_plain (h : ∀ c ∈ a, c ≠ '"' ∧ c ≠ '\\') : Silent a := by
  intro index before t hbefore
  have hquote : '"' ∉ a := fun hmem => (h _ hmem).1 rfl
  rcases openQuoteFrom_append index before none hquote t with ⟨before', hown, hread⟩
  refine ⟨before', ?_, hread⟩
  rcases hown with rfl | ⟨c, hc, rfl⟩
  · exact hbefore
  · simpa using (h c hc).2

theorem silent_quoted (h : ∀ c ∈ v, c ≠ '"' ∧ c ≠ '\\') : Silent ('"' :: (v ++ ['"'])) := by
  intro index before t hbefore
  have hquote : '"' ∉ v := fun hmem => (h _ hmem).1 rfl
  have hopen : openQuoteFrom index before none ('"' :: (v ++ ['"']) ++ t) =
      openQuoteFrom (index + 1) (some '"') (some index) (v ++ '"' :: t) := by
    simp [openQuoteFrom, hbefore]
  -- The second quote closes the first one, because no backslash stands before it.
  rcases openQuoteFrom_append (index + 1) (some '"') (some index) hquote ('"' :: t) with
    ⟨before', hown, hread⟩
  have hlast : before' ≠ some '\\' := by
    rcases hown with rfl | ⟨c, hc, rfl⟩
    · simp
    · simpa using (h c hc).2
  refine ⟨some '"', by simp, ?_⟩
  rw [hopen, hread]
  simp only [openQuoteFrom, beq_self_eq_true, bne_iff_ne.mpr hlast, Bool.and_self, if_true]
  congr 1
  simp only [List.length_cons, List.length_append, List.length_nil]
  omega

theorem Silent.append (ha : Silent a) (hb : Silent b) : Silent (a ++ b) := by
  intro index before t hbefore
  rcases ha index before (b ++ t) hbefore with ⟨middle, hmiddle, hfirst⟩
  rcases hb (index + a.length) middle t hmiddle with ⟨last, hlast, hsecond⟩
  refine ⟨last, hlast, ?_⟩
  rw [List.append_assoc, hfirst, hsecond, List.length_append, Nat.add_assoc]

theorem openQuote?_of_silent (h : Silent a) : openQuote? a = none := by
  rcases h 0 none [] (by simp) with ⟨before', -, hread⟩
  rw [List.append_nil] at hread
  exact hread

end Silent

/-! ## Attributes -/

/-- Attributes in writing: a space before each, values in double quotes. -/
def attributeText (as : Attributes) : Text :=
  as.flatMap fun a => ' ' :: (a.1 ++ '=' :: '"' :: (a.2 ++ ['"']))

/-- Attributes that can be written and read back: distinct names that are no keys of their own,
and values that fit between double quotes. -/
structure Writable (as : Attributes) : Prop where
  distinct : (as.map (·.1)).Nodup
  names : ∀ a ∈ as, isName Char.isAlpha isElementChar a.1 = true
  reserved : ∀ a ∈ as, a.1 ≠ contentKey ∧ a.1 ≠ eventKey
  values : ∀ a ∈ as, ∀ c ∈ a.2, c ≠ '"' ∧ c ≠ '\\' ∧ c ≠ '\r'

section Attributes

variable {a : Text × Text} {as : Attributes}

theorem Writable.tail (h : Writable (a :: as)) : Writable as where
  distinct := by
    have hdistinct := h.distinct
    rw [List.map_cons] at hdistinct
    exact (List.nodup_cons.mp hdistinct).2
  names := fun b hb => h.names b (by simp [hb])
  reserved := fun b hb => h.reserved b (by simp [hb])
  values := fun b hb => h.values b (by simp [hb])

theorem Writable.name_chars (h : Writable as) (ha : a ∈ as) :
    ∀ c ∈ a.1, isElementChar c = true :=
  elementChars_of_isName (h.names a ha)

theorem attributeText_cons (a : Text × Text) (as : Attributes) :
    attributeText (a :: as) =
      (' ' :: (a.1 ++ ['='])) ++ ('"' :: (a.2 ++ ['"'])) ++ attributeText as := by
  simp [attributeText]

theorem transparent_attributeText (h : Writable as) : Transparent (attributeText as) := by
  induction as with
  | nil => exact fun t => by simp [attributeText]
  | cons a as ih =>
    have hname : ∀ c ∈ ' ' :: (a.1 ++ ['=']), c ≠ '"' ∧ c ≠ ']' := by
      intro c hc
      simp only [List.mem_cons, List.mem_append, List.not_mem_nil, or_false] at hc
      rcases hc with rfl | hc | rfl
      · decide
      · have hchar := ne_of_isElementChar (h.name_chars (by simp) c hc)
        exact ⟨hchar.1, hchar.2.1⟩
      · decide
    have hvalue : '"' ∉ a.2 := fun hmem => (h.values a (by simp) _ hmem).1 rfl
    rw [attributeText_cons]
    exact ((transparent_plain hname).append (transparent_quoted hvalue)).append (ih h.tail)

theorem silent_attributeText (h : Writable as) : Silent (attributeText as) := by
  induction as with
  | nil => exact silent_plain (by simp [attributeText])
  | cons a as ih =>
    have hname : ∀ c ∈ ' ' :: (a.1 ++ ['=']), c ≠ '"' ∧ c ≠ '\\' := by
      intro c hc
      simp only [List.mem_cons, List.mem_append, List.not_mem_nil, or_false] at hc
      rcases hc with rfl | hc | rfl
      · decide
      · have hchar := ne_of_isElementChar (h.name_chars (by simp) c hc)
        exact ⟨hchar.1, hchar.2.2.1⟩
      · decide
    have hvalue : ∀ c ∈ a.2, c ≠ '"' ∧ c ≠ '\\' := by
      intro c hc
      have hchar := h.values a (by simp) c hc
      exact ⟨hchar.1, hchar.2.1⟩
    rw [attributeText_cons]
    exact ((silent_plain hname).append (silent_quoted hvalue)).append (ih h.tail)

theorem cr_notMem_attributeText (h : Writable as) : '\r' ∉ attributeText as := by
  intro hmem
  simp only [attributeText, List.mem_flatMap, List.mem_cons, List.mem_append, List.not_mem_nil,
    or_false] at hmem
  rcases hmem with ⟨a, ha, hblank | hname | hequals | hquote | hvalue | hquote⟩
  · exact absurd hblank (by decide)
  · exact (ne_of_isElementChar (h.name_chars ha _ hname)).2.2.2.2.1 rfl
  · exact absurd hequals (by decide)
  · exact absurd hquote (by decide)
  · exact (h.values a ha _ hvalue).2.2 rfl
  · exact absurd hquote (by decide)

/-! ## Reading attributes back -/

/-- The items of written attributes, from some offset on. -/
def writtenItems (offset : Nat) : Attributes → List Attribute
  | [] => []
  | a :: as =>
    .pair a.1 (some a.2) true (offset + 1) ::
      writtenItems (offset + 1 + a.1.length + 2 + a.2.length + 1) as

theorem readFrom_name (start offset : Nat) (soFar : Text) {n : Text}
    (h : ∀ c ∈ n, Text.isBlank c = false ∧ c ≠ '=') (t : Text) :
    Attribute.readFrom (.name start soFar) offset (n ++ t) =
      Attribute.readFrom (.name start (n.reverse ++ soFar)) (offset + n.length) t := by
  induction n generalizing offset soFar with
  | nil => rfl
  | cons c cs ih =>
    obtain ⟨hblank, hequals⟩ := h c (by simp)
    have hcs : ∀ d ∈ cs, Text.isBlank d = false ∧ d ≠ '=' := fun d hd => h d (by simp [hd])
    have hstep : Attribute.Phase.step offset c (.name start soFar) =
        (.name start (c :: soFar), none) := by
      simp [Attribute.Phase.step, hblank, hequals]
    rw [List.cons_append, Attribute.readFrom, hstep]
    dsimp only
    rw [ih (offset + 1) (c :: soFar) hcs, List.reverse_cons, List.append_assoc,
      List.length_cons, Nat.add_right_comm, Nat.add_assoc]
    rfl

theorem readFrom_quoted (start offset : Nat) (n soFar : Text) {v : Text} (h : '"' ∉ v)
    (t : Text) :
    Attribute.readFrom (.quoted start n soFar) offset (v ++ '"' :: t) =
      .pair n (some (soFar.reverse ++ v)) true start ::
        Attribute.readFrom .between (offset + v.length + 1) t := by
  induction v generalizing offset soFar with
  | nil => simp [Attribute.readFrom, Attribute.Phase.step]
  | cons c cs ih =>
    have hc : c ≠ '"' := fun hc => h (by simp [hc])
    have hcs : '"' ∉ cs := fun hmem => h (by simp [hmem])
    have hstep : Attribute.Phase.step offset c (.quoted start n soFar) =
        (.quoted start n (c :: soFar), none) := by
      simp [Attribute.Phase.step, hc]
    rw [List.cons_append, Attribute.readFrom, hstep]
    dsimp only
    have hoffset : offset + 1 + cs.length + 1 = offset + (c :: cs).length + 1 := by
      rw [List.length_cons]
      omega
    rw [ih (offset + 1) (c :: soFar) hcs, List.reverse_cons, List.append_assoc, hoffset]
    rfl

/-- One attribute in writing, with a space before it, is one item. -/
theorem readFrom_attribute (offset : Nat) (hname : isName Char.isAlpha isElementChar a.1 = true)
    (hvalue : '"' ∉ a.2) (t : Text) :
    Attribute.readFrom .between offset (' ' :: (a.1 ++ '=' :: '"' :: (a.2 ++ '"' :: t))) =
      .pair a.1 (some a.2) true (offset + 1) ::
        Attribute.readFrom .between (offset + 1 + a.1.length + 2 + a.2.length + 1) t := by
  rcases a with ⟨name, value⟩
  have hchars : ∀ c ∈ name, isElementChar c = true :=
    elementChars_of_isName hname
  have hplain : ∀ c ∈ name, Text.isBlank c = false ∧ c ≠ '=' := by
    intro c hc
    exact ⟨not_blank_of_isElementChar (hchars c hc), (ne_of_isElementChar (hchars c hc)).2.2.2.1⟩
  cases name with
  | nil => simp [isName] at hname
  | cons c cs =>
    obtain ⟨hblank, hequals⟩ := hplain c (by simp)
    have hquote : c ≠ '"' := (ne_of_isElementChar (hchars c (by simp))).1
    have hspace : Attribute.Phase.step offset ' ' .between = (.between, none) := rfl
    have hfirst : Attribute.Phase.step (offset + 1) c .between =
        (.name (offset + 1) [c], none) := by
      simp [Attribute.Phase.step, hblank, hequals, hquote]
    rw [Attribute.readFrom, hspace]
    dsimp only [List.cons_append]
    rw [Attribute.readFrom, hfirst]
    dsimp only
    rw [readFrom_name _ _ _ (fun d hd => hplain d (by simp [hd]))]
    -- The equals sign and the quote, and then the value.
    simp only [Attribute.readFrom, Attribute.Phase.step]
    simp only [show Text.isBlank '=' = false from rfl, Bool.false_eq_true, if_false, if_true]
    rw [readFrom_quoted _ _ _ _ hvalue]
    simp only [List.reverse_append, List.reverse_cons, List.reverse_nil, List.nil_append,
      List.reverse_reverse, List.cons_append, List.length_cons]
    congr 2
    omega

theorem readAll_attributeText (offset : Nat) (h : Writable as) :
    Attribute.readAll offset (attributeText as) = writtenItems offset as := by
  induction as generalizing offset with
  | nil => rfl
  | cons a as ih =>
    have hvalue : '"' ∉ a.2 := fun hmem => (h.values a (by simp) _ hmem).1 rfl
    have hcons : attributeText (a :: as) =
        ' ' :: (a.1 ++ '=' :: '"' :: (a.2 ++ '"' :: attributeText as)) := by
      simp [attributeText]
    rw [hcons, Attribute.readAll, readFrom_attribute offset (h.names a (by simp)) hvalue,
      ← Attribute.readAll, ih _ h.tail, writtenItems]

theorem set_of_notMem {name : Text} (value : Text) (h : name ∉ as.map (·.1)) :
    Attributes.set name value as = as ++ [(name, value)] := by
  induction as with
  | nil => rfl
  | cons a as ih =>
    rw [List.map_cons, List.mem_cons, not_or] at h
    rw [Attributes.set, if_neg (Ne.symm h.1), ih h.2, List.cons_append]

theorem foldl_store_writtenItems (offset : Nat) (before : Attributes) (h : Writable as)
    (hnew : ∀ a ∈ as, a.1 ∉ before.map (·.1)) :
    (writtenItems offset as).foldl Attribute.store before = before ++ as := by
  induction as generalizing offset before with
  | nil => simp [writtenItems]
  | cons a as ih =>
    have hname : a.1 ≠ [] := by
      intro hnil
      have hisName := h.names a (by simp)
      simp [hnil, isName] at hisName
    have hdistinct := h.distinct
    rw [List.map_cons, List.nodup_cons] at hdistinct
    -- A new name goes to the end.
    have hstore : Attribute.store before (.pair a.1 (some a.2) true (offset + 1)) =
        before ++ [a] := by
      simp [Attribute.store, hname, set_of_notMem a.2 (hnew a (by simp))]
    rw [writtenItems, List.foldl_cons, hstore, ih _ _ h.tail]
    · simp
    · intro b hb
      rw [List.map_append, List.mem_append, not_or]
      refine ⟨hnew b (by simp [hb]), ?_⟩
      intro hsame
      have hab : b.1 = a.1 := by simpa using hsame
      exact hdistinct.1 (hab ▸ List.mem_map_of_mem hb)

/-- Written attributes are read back, each name once and in order. -/
theorem toAttributes_writtenItems (offset : Nat) (h : Writable as) :
    Attribute.toAttributes (writtenItems offset as) = as := by
  have hfold := foldl_store_writtenItems offset [] h (by simp)
  rwa [List.nil_append] at hfold

theorem checkAttributes_writtenItems (map : SourceMap) (inner offset : Nat) (h : Writable as) :
    checkAttributes map inner (writtenItems offset as) = .ok () := by
  induction as generalizing offset with
  | nil => rfl
  | cons a as ih =>
    have hitem : Check.attributeItem a.1 (some a.2) true = .ok () := by
      simp [Check.attributeItem, matchesName, h.names a (by simp)]
    rw [writtenItems, checkAttributes, hitem]
    exact ih _ h.tail

theorem erase_of_notMem {name : Text} (h : ∀ a ∈ as, a.1 ≠ name) :
    Attributes.erase as name = as := by
  refine List.filter_eq_self.mpr ?_
  intro a ha
  simpa using h a ha

theorem get?_of_notMem {name : Text} (h : ∀ a ∈ as, a.1 ≠ name) :
    Attributes.get? as name = none := by
  have hfind : as.find? (fun a => a.1 == name) = none := by
    refine List.find?_eq_none.mpr ?_
    intro a ha
    simpa using h a ha
  rw [Attributes.get?, hfind]
  rfl

end Attributes

/-! ## Tags -/

section Tags

variable {name rest : Text}

/-- The name of a tag ends where the text behind it begins, or at the first space. It is the name of
an opening tag unless it begins like another tag. -/
theorem Tag.ofInner_named (hends : ∀ c ∈ name, endsName c = false)
    (hslash : name.head? ≠ some '/') (hsign : name.head? ≠ some '#')
    (hrest : rest = [] ∨ rest.head? = some ' ') :
    Tag.ofInner (name ++ rest) =
      .opening name (Clause.ofText (TagKind.ofName name) name.length rest) := by
  have hstop : rest.takeWhile (fun c => !endsName c) = [] := by
    rcases hrest with rfl | hspace
    · rfl
    · cases rest with
      | nil => rfl
      | cons c cs =>
        obtain rfl : c = ' ' := Option.some.inj hspace
        rfl
  have htake : (name ++ rest).takeWhile (fun c => !endsName c) = name := by
    rw [List.takeWhile_append_of_pos (by simpa using hends), hstop, List.append_nil]
  -- Without a name the text begins with a space.
  have hhead : ∀ c, c ≠ ' ' → name.head? ≠ some c → (name ++ rest).head? ≠ some c := by
    intro c hc hname
    cases name with
    | cons d ds => exact hname
    | nil =>
      rcases hrest with rfl | hspace
      · simp
      · rw [List.nil_append, hspace]
        simpa using Ne.symm hc
  unfold Tag.ofInner
  split
  · next heq => exact absurd (congrArg List.head? heq) (hhead '/' (by decide) hslash)
  · next heq => exact absurd (congrArg List.head? heq) (hhead '#' (by decide) hsign)
  · dsimp only
    rw [htake, List.drop_left]

theorem Tag.ofInner_opening (hname : isName Char.isAlpha isElementChar name = true)
    (hrest : rest = [] ∨ rest.head? = some ' ') :
    Tag.ofInner (name ++ rest) =
      .opening name (Clause.ofText (TagKind.ofName name) name.length rest) := by
  have hchars := elementChars_of_isName hname
  have hhead : ∀ c, isElementChar c = false → name.head? ≠ some c := by
    intro c hc hhead
    exact absurd (hchars c (List.mem_of_head? hhead)) (by simp [hc])
  refine Tag.ofInner_named (fun c hc => ?_) (hhead '/' (by decide)) (hhead '#' (by decide)) hrest
  exact (ne_of_isElementChar (hchars c hc)).2.2.2.2.2

theorem Tag.ofInner_closing (hname : isName Char.isAlpha isElementChar name = true) :
    Tag.ofInner ('/' :: name) = .closing name := by
  simp only [Tag.ofInner, strip_of_isName hname]

/-- What is written between a name and the end of the tag: nothing, or a text after a space. -/
def spaced (t : Text) : Text := if t.isEmpty then [] else ' ' :: t

theorem Tag.ofInner_component {argument : Text}
    (hname : isName Char.isAlpha isElementChar name = true)
    (hargument : Text.strip argument = argument) :
    Tag.ofInner ('#' :: (name ++ spaced argument)) = .component name argument := by
  have hchars := elementChars_of_isName hname
  have hword : ∀ c ∈ name, (!Text.isBlank c) = true := by
    intro c hc
    simp [not_blank_of_isElementChar (hchars c hc)]
  have hstrip : Text.strip (name ++ spaced argument) = name ++ spaced argument := by
    unfold spaced
    cases argument with
    | nil => simpa using strip_of_isName hname
    | cons c cs =>
      exact Text.strip_append (ne_nil_of_isName hname) (by simp) (strip_of_isName hname) hargument
        [' ']
  have hspace : Text.isBlank ' ' = true := by decide
  have htake : (name ++ spaced argument).takeWhile (fun c => !Text.isBlank c) = name := by
    rw [List.takeWhile_append_of_pos hword]
    unfold spaced
    cases argument <;> simp [hspace]
  have hdrop : (name ++ spaced argument).dropWhile (fun c => !Text.isBlank c) =
      spaced argument := by
    rw [List.dropWhile_append_of_pos hword]
    unfold spaced
    cases argument <;> simp [hspace]
  have hrest : Text.strip (spaced argument) = argument := by
    unfold spaced
    cases argument with
    | nil => rfl
    | cons c cs =>
      simp only [List.isEmpty_cons, Bool.false_eq_true, if_false]
      rw [Text.strip_cons_blank hspace, hargument]
  simp only [Tag.ofInner, hstrip, htake, hdrop, hrest]

/-- An event behind a name, and then attributes. -/
theorem Clause.ofForm_event {event : Text} {as : Attributes} (offset : Nat)
    (hevent : ∀ c ∈ event, isElementChar c = true) (has : Writable as) :
    ∃ from_, Clause.ofForm offset (' ' :: '@' :: (event ++ attributeText as)) =
      .form ('@' :: event) (writtenItems from_ as) := by
  have hstart : Text.stripStart (' ' :: '@' :: (event ++ attributeText as)) =
      '@' :: (event ++ attributeText as) := by
    rw [Text.stripStart_cons_blank (by decide), Text.stripStart_cons_of_not_blank (by decide)]
  have hword : ∀ c ∈ '@' :: event, (!Text.isBlank c) = true := by
    intro c hc
    rcases List.mem_cons.mp hc with rfl | hc
    · decide
    · simp [not_blank_of_isElementChar (hevent c hc)]
  have hstop : (attributeText as).takeWhile (fun c => !Text.isBlank c) = [] := by
    cases as with
    | nil => rfl
    | cons a as => simp [attributeText, show Text.isBlank ' ' = true from by decide]
  have htake : ('@' :: (event ++ attributeText as)).takeWhile (fun c => !Text.isBlank c) =
      '@' :: event := by
    rw [← List.cons_append, List.takeWhile_append_of_pos hword, hstop, List.append_nil]
  -- What stands behind the event is the text of the attributes.
  have hused : (' ' :: '@' :: (event ++ attributeText as)).drop
      ((' ' :: '@' :: (event ++ attributeText as)).length -
        ('@' :: (event ++ attributeText as)).length + ('@' :: event).length) =
      attributeText as := by
    have hlength : (' ' :: '@' :: (event ++ attributeText as)).length -
        ('@' :: (event ++ attributeText as)).length + ('@' :: event).length =
        (' ' :: '@' :: event).length := by
      simp only [List.length_cons, List.length_append]
      omega
    rw [hlength, ← List.cons_append, ← List.cons_append, List.drop_left]
  unfold Clause.ofForm
  simp only [hstart, List.head?_cons, if_true, htake, hused, readAll_attributeText _ has]
  exact ⟨_, rfl⟩

/-- A source, the word between, and a variable. -/
theorem Clause.ofEach_as {source loopVariable : Text} (hsource : source.head? = some '$')
    (hblank : ∀ c ∈ source, Text.isBlank c = false)
    (hvariable : Text.strip loopVariable = loopVariable) (hne : loopVariable ≠ []) :
    Clause.ofEach (' ' :: (source ++ (' ' :: 'a' :: 's' :: ' ' :: loopVariable))) =
      .each source loopVariable := by
  have hspace : Text.isBlank ' ' = true := by decide
  have hsourceNe : source ≠ [] := by
    rintro rfl
    simp at hsource
  have hsourceStrip : Text.strip source = source := Text.strip_of_not_blank hblank
  have hstrip : Text.strip (' ' :: (source ++ (' ' :: 'a' :: 's' :: ' ' :: loopVariable))) =
      source ++ (' ' :: 'a' :: 's' :: ' ' :: loopVariable) := by
    rw [Text.strip_cons_blank hspace]
    exact Text.strip_append hsourceNe hne hsourceStrip hvariable [' ', 'a', 's', ' ']
  -- The source has no space, so the cut is not inside it.
  have hnospace : ' ' ∉ source := by
    intro hmem
    rw [hblank _ hmem] at hspace
    exact Bool.false_ne_true hspace
  have hcut : Text.distanceTo [' ', 'a', 's', ' ']
      (' ' :: (source ++ (' ' :: 'a' :: 's' :: ' ' :: loopVariable) ++ [' '])) =
      some (source.length + 1) := by
    -- The space before the source is followed by a dollar sign.
    have hfirst : [' ', 'a', 's', ' '].isPrefixOf
        (' ' :: (source ++ (' ' :: 'a' :: 's' :: ' ' :: loopVariable) ++ [' '])) = false := by
      cases source with
      | nil => simp at hsource
      | cons c cs =>
        obtain rfl : c = '$' := Option.some.inj hsource
        rfl
    rw [Text.distanceTo, hfirst]
    simp only [Bool.false_eq_true, if_false]
    rw [List.append_assoc, Text.distanceTo_append hnospace]
    simp [Text.distanceTo, List.isPrefixOf]
  unfold Clause.ofEach Text.cut?
  simp only [hstrip, hcut, Option.map_some]
  have htake : (' ' :: (source ++ (' ' :: 'a' :: 's' :: ' ' :: loopVariable) ++ [' '])).take
      (source.length + 1) = ' ' :: source := by
    simp
  have hdrop : (' ' :: (source ++ (' ' :: 'a' :: 's' :: ' ' :: loopVariable) ++ [' '])).drop
      (source.length + 1 + [' ', 'a', 's', ' '].length) = loopVariable ++ [' '] := by
    simp
  rw [htake, hdrop, Text.strip_cons_blank hspace, hsourceStrip, Text.strip_append_blank hspace,
    hvariable]

end Tags

end Notemark.Body
