import Notemark.Proofs.Breaches
import Notemark.Proofs.Rules
import Notemark.Proofs.Tiling

/-!
# What strict reading accepts

The grammar of tokens is stated here apart from the reader and from its checks:

* `ElementName`, `EventText`, `LoopText`, `ConditionText`, `ReferenceText`: the texts that tokens
  may carry,
* `Token.Grammatical`: a token whose texts all follow the grammar,
* `grammatical_of_verdict`: a reading that breaks no rule has a grammatical token,
* `strict_tokens_grammatical`: all tokens of an accepted body are grammatical.

The checks alone would let some texts pass that the grammar refuses: a name may be followed by a
line feed. That no such text comes before them depends on how the text of a tag is cut.
-/

namespace Notemark.Body

/-! ## The grammar -/

/-- Names of elements, attributes and components: a letter, then letters, digits, underscores and
hyphens. -/
def ElementName (n : Text) : Prop := isName Char.isAlpha isElementChar n = true

instance (n : Text) : Decidable (ElementName n) :=
  inferInstanceAs (Decidable (isName Char.isAlpha isElementChar n = true))

/-- The event of a form: an at sign, then a letter or underscore, then letters, digits and
underscores. -/
def EventText (t : Text) : Prop :=
  ∃ name, t = '@' :: name ∧ isName isEventHead isEventChar name = true

/-- The two parts of a loop. One dollar sign before the name of the variable does not count. -/
structure LoopText (source loopVariable : Text) : Prop where
  source_head : source.head? = some '$'
  variable_name : isName isLoopHead isLoopChar
    (if loopVariable.head? = some '$' then loopVariable.drop 1 else loopVariable) = true

structure ConditionText (t : Text) : Prop where
  not_blank : Text.allBlank t = false
  not_empty : t ≠ ['{', '}'] ∧ t ≠ ['[', ']'] ∧ t ≠ ['(', ')']

/-- A variable reference with its braces: a known beginning, on one line, and the brace depth comes
back to zero at its end and not before. -/
structure ReferenceText (raw : Text) : Prop extends Enclosed raw where
  head : ∃ head ∈ referenceHeads, '{' :: head <+: raw

/-- The attributes that an opening tag of the container carries. -/
def Container.Carries (as : Attributes) : Container → Prop
  | form => (∀ a ∈ as, ElementName a.1) ∧ ∃ event, as.get? eventKey = some event ∧ EventText event
  | each => ∃ source loopVariable,
      as = [(sourceKey, source), (variableKey, loopVariable)] ∧ LoopText source loopVariable
  | cond => ∃ condition, as = [(conditionKey, condition)] ∧ ConditionText condition
  | div | button | span => ∀ a ∈ as, ElementName a.1

/-- A token whose texts follow the grammar. -/
def Token.Grammatical : Token → Prop
  | opening c name as => ElementName name ∧ c.Carries as
  | closing _ name => ElementName name
  | leaf name as =>
    ElementName name ∧
      if name = jsonName then ∃ shown, as = [(variableKey, shown)] ∧ shown ≠ []
      else ∀ a ∈ as, ElementName a.1
  | component value as =>
    ∃ name, value = '#' :: name ∧ ElementName name ∧ as.get? aliasKey = some value
  | idMarker id => ∃ value, id = some value ∧ Text.allBlank value = false
  | reference value => ReferenceText value
  | _ => True

/-! ## Texts that the checks let pass -/

section Checks

variable {first rest : Char → Bool} {t name : Text}

/-- A name that a line feed may follow is a name if no line feed ends it. -/
theorem isName_of_matchesName (h : matchesName first rest t = true)
    (hlast : t.getLast? ≠ some '\n') : isName first rest t = true := by
  unfold matchesName at h
  simpa [hlast] using h

theorem getLast?_ne_newline (h : ∀ c ∈ t, Text.isBlank c = false) : t.getLast? ≠ some '\n' := by
  intro hlast
  have hblank := h '\n' (List.mem_of_getLast? hlast)
  simp [Text.isBlank_newline] at hblank

theorem elementName_of_check (h : Check.elementName name = .ok ()) : ElementName name := by
  unfold Check.elementName at h
  split at h
  · simp at h
  · split at h
    · simp at h
    · next hline =>
      split at h
      · next hmatches =>
        -- A line feed was refused before, wherever it stands.
        refine isName_of_matchesName hmatches fun hlast => hline ?_
        simp [List.mem_of_getLast? hlast]
      · simp at h

theorem elementName_of_attributeItem {value : Option Text} {quoted : Bool}
    (hname : Attribute.NameText name) (h : Check.attributeItem name value quoted = .ok ()) :
    ElementName name := by
  unfold Check.attributeItem at h
  split at h
  · simp at h
  · next hmatches =>
    -- No line feed is refused here, but the reader ends a name at every blank.
    have hname' : matchesName Char.isAlpha isElementChar name = true := by simpa using hmatches
    exact isName_of_matchesName hname' (getLast?_ne_newline hname.not_blank)

theorem eventText_of_check (hblank : ∀ c ∈ t, Text.isBlank c = false)
    (h : Check.event t = .ok ()) : EventText t := by
  unfold Check.event at h
  split at h
  · simp at h
  · split at h
    · simp at h
    · next hhead =>
      split at h
      · next hmatches =>
        cases t with
        | nil => simp at hhead
        | cons c name =>
          have hc : c = '@' := by simpa using hhead
          subst hc
          refine ⟨name, rfl, isName_of_matchesName hmatches (getLast?_ne_newline ?_)⟩
          exact fun d hd => hblank d (List.mem_cons_of_mem _ hd)
      · simp at h

/-- The name of the variable is an end of its text, which has no blank at its end. -/
theorem loopText_of_check {source loopVariable : Text}
    (hstrip : Text.strip loopVariable = loopVariable)
    (h : Check.loop source loopVariable = .ok ()) : LoopText source loopVariable := by
  unfold Check.loop at h
  split at h
  · simp at h
  · next hsource =>
    split at h
    · simp at h
    · have hsuffix : (if loopVariable.head? = some '$' then loopVariable.drop 1
          else loopVariable) <:+ loopVariable := by
        split
        · exact List.drop_suffix 1 loopVariable
        · exact List.suffix_rfl
      generalize hname : (if loopVariable.head? = some '$' then loopVariable.drop 1
        else loopVariable) = name at h hsuffix
      dsimp only at h
      split at h
      · next hmatches =>
        refine ⟨by simpa using hsource, hname ▸ isName_of_matchesName hmatches fun hlast => ?_⟩
        rcases hsuffix with ⟨front, hfront⟩
        have hall : loopVariable.getLast? = some '\n' := by
          rw [← hfront, List.getLast?_append, hlast]
          rfl
        have hnot := Text.not_blank_of_getLast? hstrip hall
        simp [Text.isBlank_newline] at hnot
      · simp at h

theorem conditionText_of_check (hstrip : Text.strip t = t) (h : Check.condition t = .ok ()) :
    ConditionText t := by
  unfold Check.condition at h
  dsimp only at h
  rw [hstrip] at h
  split at h
  · simp at h
  · next hempty =>
    split at h
    · simp at h
    · next hshape =>
      refine ⟨Text.allBlank_eq_false_of_strip hstrip (by simpa using hempty), ?_⟩
      simpa [not_or, and_assoc] using hshape

theorem ne_nil_of_jsonVariable (h : Check.jsonVariable t = .ok ()) : t ≠ [] := by
  rintro rfl
  simp [Check.jsonVariable] at h

end Checks

/-! ## Attributes -/

section Attributes

variable {as : Attributes} {name value : Text} {items : List Attribute}

theorem forall_mem_set {P : Text → Prop} (has : ∀ a ∈ as, P a.1) (hname : P name) :
    ∀ a ∈ as.set name value, P a.1 := by
  induction as with
  | nil => simpa [Attributes.set] using hname
  | cons a as ih =>
    have hlater := ih fun b hb => has b (List.mem_cons_of_mem a hb)
    rcases a with ⟨n, v⟩
    unfold Attributes.set
    intro b hb
    split at hb
    · next hn =>
      rcases List.mem_cons.mp hb with rfl | hb
      · exact hn ▸ hname
      · exact has b (List.mem_cons_of_mem _ hb)
    · rcases List.mem_cons.mp hb with rfl | hb
      · exact has _ List.mem_cons_self
      · exact hlater b hb

/-- The keys of an attribute list are the names of its items, and the key of a literal. -/
theorem elementName_foldl_store (has : ∀ a ∈ as, ElementName a.1)
    (hitems : ∀ name value quoted offset, .pair name value quoted offset ∈ items →
      ElementName name) :
    ∀ a ∈ items.foldl Attribute.store as, ElementName a.1 := by
  induction items generalizing as with
  | nil => exact has
  | cons item items ih =>
    refine ih ?_ fun name value quoted offset hmem =>
      hitems name value quoted offset (List.mem_cons_of_mem item hmem)
    cases item with
    | literal value => exact forall_mem_set has (by decide : ElementName contentKey)
    | pair name value quoted offset =>
      unfold Attribute.store
      dsimp only
      split
      · exact has
      · exact forall_mem_set has (hitems name value quoted offset List.mem_cons_self)

end Attributes

/-! ## Tags -/

section Tags

variable {inner name : Text} {clause : Clause} {start : Nat}

theorem Clause.ofForm_cases (offset : Nat) (rest : Text) :
    ∃ event items, Clause.ofForm offset rest = .form event items ∧
      ∀ c ∈ event, Text.isBlank c = false := by
  unfold Clause.ofForm
  dsimp only
  split
  · refine ⟨_, _, rfl, fun c hc => ?_⟩
    have hall := List.all_takeWhile (p := fun c => !Text.isBlank c) (l := Text.stripStart rest)
    simpa using List.all_eq_true.mp hall c hc
  · exact ⟨[], _, rfl, by simp⟩

theorem Clause.ofEach_cases (rest : Text) :
    ∃ source loopVariable, Clause.ofEach rest = .each source loopVariable ∧
      Text.strip loopVariable = loopVariable := by
  unfold Clause.ofEach
  dsimp only
  split
  · exact ⟨_, _, rfl, Text.strip_strip _⟩
  · exact ⟨_, [], rfl, rfl⟩

theorem TagKind.eq_jsonName {n : Text} (h : TagKind.ofName n = .json) : n = jsonName := by
  unfold TagKind.ofName at h
  split at h
  · simp at h
  · split at h
    · next hn => exact hn
    · simp at h

/-- All keys of the attribute list of a tag are names. -/
theorem elementName_of_clause (htag : Tag.ofInner inner = .opening name clause)
    (h : ∀ r ∈ clause.rules start, r.verdict = .ok ()) :
    ∀ a ∈ Attribute.toAttributes clause.items, ElementName a.1 := by
  refine elementName_foldl_store (by simp) ?_
  intro n value quoted offset hmem
  rcases Tag.standsIn_of_mem_items htag hmem with ⟨lead, list, -, -, hstands⟩
  have hrule : (⟨start + 1 + offset, Check.attributeItem n value quoted⟩ : Rule) ∈
      clause.rules start :=
    List.mem_append_right _ (List.mem_flatMap.mpr ⟨_, hmem, List.mem_singleton.mpr rfl⟩)
  exact elementName_of_attributeItem hstands.nameText (h _ hrule)

theorem grammatical_opening (htag : Tag.ofInner inner = .opening name clause)
    (h : ∀ r ∈ (Tag.opening name clause).rules start, r.verdict = .ok ()) :
    (Tag.opening name clause).token.Grammatical := by
  have hname : ElementName name := elementName_of_check (h _ List.mem_cons_self)
  have hclause : ∀ r ∈ clause.rules start, r.verdict = .ok () :=
    fun r hr => h r (List.mem_cons_of_mem _ hr)
  have hown : ∀ r ∈ clause.ownRules start, r.verdict = .ok () :=
    fun r hr => hclause r (List.mem_append_left _ hr)
  have hkeys := elementName_of_clause htag hclause
  rcases Tag.ofInner_eq_opening htag with ⟨rest, -, hof⟩
  unfold Tag.token
  dsimp only
  -- The kind of the tag decides both how its clause was read and what its token has to carry.
  cases hkind : TagKind.ofName name with
  | container c =>
    rw [hkind] at hof
    refine ⟨hname, ?_⟩
    cases c with
    | form =>
      rcases Clause.ofForm_cases name.length rest with ⟨event, items, hform, hblank⟩
      obtain rfl : clause = .form event items := hof.trans hform
      have hevent := eventText_of_check hblank (hown _ List.mem_cons_self)
      -- The event is stored last, so that an attribute of that name cannot hide it.
      refine ⟨forall_mem_set hkeys (by decide : ElementName eventKey), event, ?_, hevent⟩
      exact Attributes.get?_set _ _ _
    | each =>
      rcases Clause.ofEach_cases rest with ⟨source, loopVariable, heach, hstrip⟩
      obtain rfl : clause = .each source loopVariable := hof.trans heach
      exact ⟨source, loopVariable, rfl, loopText_of_check hstrip (hown _ List.mem_cons_self)⟩
    | cond =>
      obtain rfl : clause = .cond (Text.strip rest) := hof
      have hcheck := hown _ List.mem_cons_self
      exact ⟨_, rfl, conditionText_of_check (Text.strip_strip rest) hcheck⟩
    | div =>
      obtain rfl : clause = .plain (Attribute.readAll name.length rest) := hof
      exact hkeys
    | button =>
      obtain rfl : clause = .plain (Attribute.readAll name.length rest) := hof
      exact hkeys
    | span =>
      obtain rfl : clause = .plain (Attribute.readAll name.length rest) := hof
      exact hkeys
  | json =>
    rw [hkind] at hof
    obtain rfl : clause = .json (Text.strip rest) := hof
    refine ⟨hname, ?_⟩
    rw [if_pos (TagKind.eq_jsonName hkind)]
    exact ⟨_, rfl, ne_nil_of_jsonVariable (hown _ List.mem_cons_self)⟩
  | leaf =>
    rw [hkind] at hof
    obtain rfl : clause = .plain (Attribute.readAll name.length rest) := hof
    refine ⟨hname, ?_⟩
    split
    · next hjson =>
      subst hjson
      exact absurd hkind (by decide)
    · exact hkeys

theorem grammatical_tag (h : ∀ r ∈ (Tag.ofInner inner).rules start, r.verdict = .ok ()) :
    (Tag.ofInner inner).token.Grammatical := by
  cases htag : Tag.ofInner inner with
  | closing name =>
    rw [htag] at h
    exact elementName_of_check (h _ List.mem_cons_self)
  | component name argument =>
    rw [htag] at h
    exact ⟨name, rfl, elementName_of_check (h _ List.mem_cons_self), rfl⟩
  | opening name clause =>
    rw [htag] at h
    exact grammatical_opening htag h

end Tags

/-! ## Bodies -/

/-- A reading that breaks no rule has a grammatical token. -/
theorem grammatical_of_verdict {content : Text} {p : Placed} (hp : p ∈ readings content)
    (h : ∀ r ∈ p.rules, r.verdict = .ok ()) {token : Token}
    (htoken : p.reading.token? = some token) :
    token.Grammatical := by
  rcases exists_readAt_of_mem_readings hp with ⟨-, k, hk⟩
  have hexact := readAt_exact k (content.drop p.offset)
  have hfits := readAt_fits k (content.drop p.offset)
  rw [hk] at hexact hfits
  rcases p with ⟨offset, reading⟩
  cases reading with
  | tag inner =>
    rcases Option.some.inj htoken with rfl
    exact grammatical_tag fun r hr => h r (List.mem_cons_of_mem _ hr)
  | reference raw =>
    rcases Option.some.inj htoken with rfl
    rcases enclosed_of_fits hfits with ⟨henclosed, c, u, rfl, -⟩
    rcases List.any_eq_true.mp hexact with ⟨head, hhead, hprefix⟩
    refine ⟨henclosed, head, hhead, ?_⟩
    exact List.cons_prefix_cons.mpr ⟨rfl, List.isPrefixOf_iff_prefix.mp hprefix⟩
  | idMarker inner =>
    simp only [Reading.token?] at htoken
    split at htoken
    · simp at htoken
    · next hid =>
      rcases Option.some.inj htoken with rfl
      refine ⟨_, rfl, Text.allBlank_eq_false_of_strip (Text.strip_strip inner) ?_⟩
      simpa using hid
  | text run breach => simp [Reading.token?] at htoken
  | _ => exact Option.some.inj htoken ▸ trivial

/-- Strict reading accepts no body with a token that does not follow the grammar: the names of tags,
components and attributes are names, a form has an event, a loop its two parts, a condition is not
empty, data names its variable, a marker has its id, and the braces of a reference balance. -/
theorem strict_tokens_grammatical {body : Text} {ts : List Token}
    (h : tokenize .strict body = .ok ts) : ∀ t ∈ ts, t.Grammatical := by
  have hlist := tokenList_of_tokenize h
  refine hlist.forall_mem trivial (hlist.forall_mem_untilEof (fun _ => trivial) ?_)
  intro p hp t htoken
  exact grammatical_of_verdict hp (verdict_of_tokenize h p hp) htoken

/-- A form with an attribute, and on the next line a reference inside which braces are nested. -/
theorem strict_tokens_grammatical_form :
    ∃ form reference rest,
      tokenize .strict ['[', 'f', 'o', 'r', 'm', ' ', '@', 'g', 'o', ' ', 'a', '=', '"', '1', '"',
          ']', '\n', '{', '$', 'a', '{', 'b', '}', '}', '[', '/', 'f', 'o', 'r', 'm', ']'] =
        .ok (form :: .newline :: reference :: rest) ∧
      form = .opening .form ['f', 'o', 'r', 'm'] [(['a'], ['1']), (eventKey, ['@', 'g', 'o'])] ∧
      reference = .reference ['{', '$', 'a', '{', 'b', '}', '}'] ∧
      form.Grammatical ∧ reference.Grammatical := by
  have h : tokenize .strict ['[', 'f', 'o', 'r', 'm', ' ', '@', 'g', 'o', ' ', 'a', '=', '"', '1',
      '"', ']', '\n', '{', '$', 'a', '{', 'b', '}', '}', '[', '/', 'f', 'o', 'r', 'm', ']'] =
    .ok [.opening .form ['f', 'o', 'r', 'm'] [(['a'], ['1']), (eventKey, ['@', 'g', 'o'])],
      .newline, .reference ['{', '$', 'a', '{', 'b', '}', '}'],
      .closing (some .form) ['f', 'o', 'r', 'm'], .eof] := rfl
  have hall := strict_tokens_grammatical h
  exact ⟨_, _, _, h, rfl, rfl, hall _ (by simp), hall _ (by simp)⟩

end Notemark.Body
