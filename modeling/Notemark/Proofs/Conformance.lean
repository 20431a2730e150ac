import Notemark.Proofs.Building
import Notemark.Proofs.ElementIssues
import Notemark.Proofs.StrictGrammar

/-!
# Documents of strict bodies

A body that is read strictly gives a document that satisfies the schema, unless a leaf has the name
of an element with rules that no leaf can meet.

* `unfitNames`: these names,
* `meets_of_token`: the element of a token meets the rules of its type, unless its name is unfit,
* `strict_document_valid_iff`: the document of a strict note satisfies the schema exactly if no leaf
  is named `loop` or `component`.
-/

namespace Notemark

namespace Body

open Schema (brokenRule? isGiven namesVariable)

/-! ## Blocks of tokens -/

/-- The name of an element that stands for another document. -/
def componentName : Text := ['c', 'o', 'm', 'p', 'o', 'n', 'e', 'n', 't']

/-- Names of leaves that no leaf can live up to. -/
def unfitNames : List Text := [Head.loopName, componentName]

/-- The name of a container is that of its tag, and a leaf has the name of no container. -/
def Token.Named : Token → Prop
  | .opening c name _ => c.name = name
  | .leaf name _ => Container.ofName? name = none
  | _ => True

theorem named_opening (name : Text) (clause : Clause) : (Tag.opening name clause).token.Named := by
  unfold Tag.token
  dsimp only
  cases hkind : TagKind.ofName name with
  | container c => exact TagKind.name_of_ofName hkind
  | _ =>
    unfold TagKind.ofName at hkind
    cases hname : Container.ofName? name with
    | none => exact hname
    | some c => simp [hname] at hkind

theorem named_of_token? {reading : Reading} {token : Token} (h : reading.token? = some token) :
    token.Named := by
  cases reading with
  | tag inner =>
    obtain rfl := Option.some.inj h
    unfold Tag.ofInner
    split
    · trivial
    · trivial
    · exact named_opening _ _
  | idMarker inner =>
    simp only [Reading.token?] at h
    split at h
    · simp at h
    · exact Option.some.inj h ▸ trivial
  | text run breach => simp [Reading.token?] at h
  | _ => exact Option.some.inj h ▸ trivial

/-- Types with rules of their own. -/
def ruledTypes : List String := ["form", "loop", "if", "component", "span", "button", "json"]

theorem brokenRule?_of_free {type : String} (h : type ∉ ruledTypes) (es : Entries) :
    brokenRule? type es = none := by
  simp only [ruledTypes, List.mem_cons, List.not_mem_nil, or_false, not_or] at h
  rw [Schema.brokenRule?_eq_none]
  refine ⟨?_, ?_, ?_⟩
  · unfold Schema.neededFields
    split <;> simp_all
  · intro hneeds
    simp_all [Schema.needsElements]
  · intro hjson
    simp_all

theorem isGiven_elements {e : Element} (h : e.block.isContainer = true) :
    isGiven e.fieldEntries "elements" = true := by
  rw [isGiven, get?_fieldEntries, get?_elements, if_pos h]

theorem meets_heading (level : Option Int) (title : Text) (mark : Mark) (children : List Element) :
    (Element.mk (.heading level title) mark children).Meets := by
  have hhead : (headingName level).toList.head? = some 'h' := by
    cases level with
    | none => decide
    | some n => simp [headingName, ToString.toString]
  have hruled : ∀ type ∈ ruledTypes, type.toList.head? ≠ some 'h' := by decide
  refine ⟨?_, brokenRule?_of_free ?_ _⟩
  · intro hempty
    change headingName level = "" at hempty
    rw [hempty] at hhead
    simp at hhead
  · intro hmem
    exact hruled _ hmem hhead

/-- A container meets the rules of its type if the fields that the type needs are there. -/
theorem meets_of_needed {e : Element} (type : String) (htype : e.block.typeName = type)
    (hcontainer : e.block.isContainer = true) (hne : type ≠ "") (hjson : type ≠ "json")
    (hneeded : ∀ name ∈ Schema.neededFields type, isGiven e.fieldEntries name = true) :
    e.Meets := by
  subst htype
  refine ⟨hne, Schema.brokenRule?_eq_none.mpr ⟨hneeded, ?_, ?_⟩⟩
  · intro _
    exact isGiven_elements hcontainer
  · intro heq
    exact absurd heq hjson

theorem meets_container (c : Container) (as : Attributes) (mark : Mark) (children : List Element) :
    (Element.mk (.ofOpening c c.name as) mark children).Meets := by
  cases c with
  | form =>
    apply meets_of_needed "form" rfl rfl (by decide) (by decide)
    intro name hname
    rw [List.mem_singleton.mp hname]
    rfl
  | each =>
    apply meets_of_needed "loop" rfl rfl (by decide) (by decide)
    intro name hname
    rcases List.mem_cons.mp hname with rfl | hname
    · rfl
    · rw [List.mem_singleton.mp hname]
      rfl
  | cond =>
    apply meets_of_needed "if" rfl rfl (by decide) (by decide)
    intro name hname
    rw [List.mem_singleton.mp hname]
    rfl
  | div => exact meets_of_needed "div" rfl rfl (by decide) (by decide) (fun _ h => nomatch h)
  | button =>
    exact meets_of_needed "button" rfl rfl (by decide) (by decide) (fun _ h => nomatch h)
  | span => exact meets_of_needed "span" rfl rfl (by decide) (by decide) (fun _ h => nomatch h)

/-- A leaf has neither a source nor an alias. -/
theorem get?_leaf {field : String} (h : field ∈ ["source", "alias"]) (name : Text)
    (literal : Option Text) (as : Attributes) (mark : Mark) (children : List Element) :
    (Element.mk (.leaf name literal as) mark children).toValue.get? field = none := by
  have hplain : ∀ n ∈ ["source", "alias"],
      n ≠ "type" ∧ n ≠ "content" ∧ n ≠ "attributes" ∧ n ≠ "elementId" := by decide
  rcases hplain field h with ⟨htype, hcontent, hattributes, hid⟩
  rcases exists_elementFields (.leaf name literal as) mark with ⟨rest, hfields, hrest⟩
  rw [Element.toValue, get?_object, Option.map_eq_none_iff, List.find?_eq_none, hfields]
  intro f hf heq
  rw [beq_iff_eq] at heq
  rcases List.mem_append.mp hf with hf | hf
  · rcases List.mem_append.mp hf with hf | hf
    · rcases List.mem_append.mp hf with hf | hf
      · rw [List.mem_singleton.mp hf] at heq
        exact htype heq.symm
      · cases literal with
        | none => simp [Block.ownFields] at hf
        | some t =>
          rw [List.mem_singleton.mp hf] at heq
          exact hcontent heq.symm
    · rcases hrest f hf with hf | hf
      · exact hattributes (heq.symm.trans hf)
      · exact hid (heq.symm.trans hf)
  · simp [Block.isContainer] at hf

theorem not_isGiven_leaf {field : String} (h : field ∈ ["source", "alias"]) (name : Text)
    (literal : Option Text) (as : Attributes) (mark : Mark) (children : List Element) :
    isGiven (Element.mk (.leaf name literal as) mark children).fieldEntries field = false := by
  rw [isGiven, get?_fieldEntries, get?_leaf h]

/-- Of the leaves that show no data, only those with an unfit name break a rule of their type. -/
theorem meets_leaf {name : Text} (hname : name ≠ []) (hnamed : Container.ofName? name = none)
    (hjson : name ≠ jsonName) (literal : Option Text) (as : Attributes) (mark : Mark)
    (children : List Element) :
    (Element.mk (.leaf name literal as) mark children).Meets ↔ name ∉ unfitNames := by
  constructor
  · -- A loop needs a source and a component an alias, and a leaf has neither.
    rintro ⟨-, hrule⟩ hunfit
    have hneeded := (Schema.brokenRule?_eq_none.mp hrule).1
    rcases List.mem_cons.mp hunfit with rfl | hunfit
    · have hsource := hneeded "source" List.mem_cons_self
      rw [not_isGiven_leaf (by simp)] at hsource
      simp at hsource
    · obtain rfl := List.mem_singleton.mp hunfit
      have halias := hneeded "alias" List.mem_cons_self
      rw [not_isGiven_leaf (by simp)] at halias
      simp at halias
  · intro hfit
    refine ⟨?_, brokenRule?_of_free ?_ _⟩
    · intro hempty
      apply hname
      have hlist := congrArg String.toList hempty
      simpa [Element.block, Block.typeName] using hlist
    · intro hruled
      -- A name with rules belongs to a container, to data, or to no leaf.
      have hnames : ∀ n ∈ ruledTypes.map String.toList,
          Container.ofName? n ≠ none ∨ n = jsonName ∨ n ∈ unfitNames := by decide
      have hmem : name ∈ ruledTypes.map String.toList := by
        rw [← String.toList_ofList (l := name)]
        exact List.mem_map_of_mem hruled
      rcases hnames name hmem with hcontainer | hdata | hunfit
      · exact hcontainer hnamed
      · exact hjson hdata
      · exact hfit hunfit

theorem meets_json {shown : Text} (h : shown ≠ []) (mark : Mark) (children : List Element) :
    (Element.mk (.leaf jsonName none [(variableKey, shown)]) mark children).Meets := by
  have hnonempty : (textValue shown).holds = true := by
    simp [textValue, Value.str, Value.holds, h]
  have hvariable : namesVariable
      (Element.mk (.leaf jsonName none [(variableKey, shown)]) mark children).fieldEntries =
        true := by
    rw [namesVariable, get?_fieldEntries, (get?_toValue _).2]
    cases hstyle : mark.style with
    | none =>
      have hmarked : markedAttributes? (.leaf jsonName none [(variableKey, shown)]) mark =
          some [(variableKey, shown)] := by rw [markedAttributes?, hstyle]; rfl
      rw [Element.block, Element.mark, hmarked]
      exact hnonempty
    | some style =>
      have hmarked : markedAttributes? (.leaf jsonName none [(variableKey, shown)]) mark =
          some [(variableKey, shown), (classKey, style)] := by rw [markedAttributes?, hstyle]; rfl
      rw [Element.block, Element.mark, hmarked]
      exact hnonempty
  have htype : String.ofList jsonName ≠ "" := by decide
  refine ⟨htype, Schema.brokenRule?_eq_none.mpr ⟨?_, ?_, fun _ => hvariable⟩⟩
  · intro name hname
    exact absurd hname (List.not_mem_nil (a := name))
  · intro hneeds
    exact absurd hneeds (show ¬ Schema.needsElements (String.ofList jsonName) = true by decide)

/-- The block of a token meets the rules of its type, unless the token is a leaf with an unfit
name. -/
theorem meets_of_token {t : Token} (hgrammar : t.Grammatical) (hnamed : t.Named) {e : Element}
    (h : t.block? = some e.block) : e.Meets ↔ ∀ name as, t = .leaf name as → name ∉ unfitNames := by
  rcases e with ⟨block, mark, children⟩
  change t.block? = some block at h
  cases t with
  | heading level value =>
    obtain rfl := Option.some.inj h
    exact iff_of_true (meets_heading level value mark children) (by simp)
  | image as =>
    obtain rfl := Option.some.inj h
    refine iff_of_true ⟨?_, ?_⟩ (by simp)
    · exact show "img" ≠ "" by decide
    · exact brokenRule?_of_free (show "img" ∉ ruledTypes by decide) _
  | component value as =>
    obtain rfl := Option.some.inj h
    refine iff_of_true ⟨?_, ?_⟩ (by simp)
    · exact show "component" ≠ "" by decide
    · refine Schema.brokenRule?_eq_none.mpr ⟨?_, ?_, ?_⟩
      · intro name hname
        rw [List.mem_singleton.mp hname]
        rfl
      · intro hneeds
        exact absurd hneeds (show ¬ Schema.needsElements "component" = true by decide)
      · intro hjson
        exact absurd hjson (show "component" ≠ "json" by decide)
  | leaf name as =>
    obtain rfl := Option.some.inj h
    have hleaf : (∀ n bs, Token.leaf name as = .leaf n bs → n ∉ unfitNames) ↔
        name ∉ unfitNames := by
      constructor
      · intro hall
        exact hall name as rfl
      · rintro hname n bs heq
        rwa [← (Token.leaf.inj heq).1]
    rw [hleaf, Block.ofLeaf]
    split
    · next hjson =>
      subst hjson
      have hvariable := hgrammar.2
      rw [if_pos rfl] at hvariable
      rcases hvariable with ⟨shown, rfl, hshown⟩
      exact iff_of_true (meets_json hshown mark children) (by decide)
    · next hjson => exact meets_leaf (ne_nil_of_isName hgrammar.1) hnamed hjson _ _ mark children
  | opening c name as =>
    obtain rfl := Option.some.inj h
    have hname : c.name = name := hnamed
    subst hname
    exact iff_of_true (meets_container c as mark children) (by simp)
  | _ => simp [Token.block?] at h

/-- The elements of a body that is read strictly meet the rules of their types, unless there is a
leaf with an unfit name. -/
theorem all_meet_iff {body : Text} {ts : List Token} {elements : List Element}
    (h : tokenize .strict body = .ok ts)
    (hblocks : ((Element.preorderAll elements).map Element.block).filter (!·.isParagraph) =
      (untilEof ts).filterMap Token.block?) :
    (∀ d ∈ Element.preorderAll elements, d.Meets) ↔
      ∀ name as, Token.leaf name as ∈ ts → name ∉ unfitNames := by
  have hlist := tokenList_of_tokenize h
  have hgrammar : ∀ t ∈ untilEof ts, t.Grammatical := by
    refine hlist.forall_mem_untilEof (fun _ => trivial) ?_
    intro p hp t ht
    exact grammatical_of_verdict hp (verdict_of_tokenize h p hp) ht
  have hnamed : ∀ t ∈ untilEof ts, t.Named :=
    hlist.forall_mem_untilEof (fun _ => trivial) fun _ _ _ ht => named_of_token? ht
  have hmem : ∀ t ∈ untilEof ts, t ∈ ts := by
    intro t ht
    rw [hlist.append_eof]
    exact List.mem_append_left _ ht
  constructor
  · intro hall name as hleaf
    have huntil : Token.leaf name as ∈ untilEof ts := by
      rw [hlist.append_eof] at hleaf
      rcases List.mem_append.mp hleaf with hmem | heof
      · exact hmem
      · simp at heof
    have hblock : Block.ofLeaf name as ∈
        ((Element.preorderAll elements).map Element.block).filter (!·.isParagraph) := by
      rw [hblocks]
      exact List.mem_filterMap.mpr ⟨_, huntil, rfl⟩
    rcases List.mem_map.mp (List.mem_of_mem_filter hblock) with ⟨d, hd, hdblock⟩
    have hmeets := (meets_of_token (hgrammar _ huntil) (hnamed _ huntil)
      (congrArg some hdblock.symm)).mp (hall d hd)
    exact hmeets name as rfl
  · -- A paragraph has no token of its own; any other element has one.
    intro hall d hd
    by_cases hparagraph : d.block.isParagraph = true
    · cases hblock : d.block with
      | paragraph items =>
        refine ⟨?_, brokenRule?_of_free ?_ _⟩
        · rw [hblock]
          exact show "p" ≠ "" by decide
        · rw [hblock]
          exact show "p" ∉ ruledTypes by decide
      | _ => simp [hblock, Block.isParagraph] at hparagraph
    · have hblock : d.block ∈ (untilEof ts).filterMap Token.block? := by
        rw [← hblocks, List.mem_filter]
        exact ⟨List.mem_map_of_mem hd, by simpa using hparagraph⟩
      rcases List.mem_filterMap.mp hblock with ⟨t, ht, htoken⟩
      apply (meets_of_token (hgrammar t ht) (hnamed t ht) htoken).mpr
      rintro name as rfl
      exact hall name as (hmem _ ht)

end Body

/-! ## Documents -/

namespace Document

section Headless

variable [CallStack]

theorem outcome_compile_default (mode : Body.Mode) (note : Text) :
    (compile {} mode note).outcome = (build {} mode note).outcome :=
  outcome_compile_unchecked rfl mode note

/-- A note without a header has a document with nothing but its elements. -/
theorem outcome_build_headless {settings : Settings} {mode : Body.Mode} {note : Text}
    (h : (Header.split note).1 = none) :
    (build settings mode note).outcome =
      (elementsOf settings mode (Header.split note).2).outcome >>= fun elements =>
        .ok (.object
          [("version", .str settings.documentVersion), ("elements", .list elements)]) := by
  have hextract : (Header.extract note).outcome = .ok ([], (Header.split note).2) := by
    rw [Header.extract]
    cases hsplit : Header.split note with
    | mk block body =>
      rw [hsplit] at h
      cases h
      rfl
  rw [outcome_build, hextract]
  rfl

/-- A note that is compiled strictly, and has no header, has a document that satisfies the schema
exactly if it has no leaf with the name of a loop or a component. -/
theorem strict_document_valid_iff (note : Text) {document : Value}
    (hheader : (Header.split note).1 = none)
    (h : (compile {} .strict note).outcome = .ok document) :
    ∃ tokens, Body.tokenize .strict (Header.split note).2 = .ok tokens ∧
      (Schema.isValid document = true ↔
        ∀ name as, Body.Token.leaf name as ∈ tokens → name ∉ Body.unfitNames) := by
  rw [outcome_compile_default, outcome_build_headless hheader] at h
  cases htokens : Body.tokenize .strict (Header.split note).2 with
  | error e =>
    rw [outcome_elementsOf_error htokens] at h
    simp [bind, Except.bind] at h
  | ok tokens =>
    rcases Body.exists_elements htokens with ⟨elements, htree, hblocks⟩
    rw [outcome_elementsOf htokens htree] at h
    cases hfault : Style.firstFault? (classed {} (Body.Element.toValues elements)) with
    | some f =>
      rw [hfault] at h
      simp [bind, Except.bind, Except.mapError] at h
    | none =>
      rw [hfault] at h
      obtain rfl : _ = document := Except.ok.inj h
      refine ⟨tokens, rfl, ?_⟩
      rw [Schema.isValid_plain, ← Body.all_meet_iff htokens hblocks, ← Body.elementIssues_all_iff]
      -- By default classes are converted, so the elements of the document are the styled ones.
      constructor
      · intro hvalid e he
        exact hvalid _ (List.mem_map_of_mem (Body.mem_toValues.mpr ⟨e, he, rfl⟩))
      · intro hvalid v hv
        rcases List.mem_map.mp hv with ⟨w, hw, rfl⟩
        rcases Body.mem_toValues.mp hw with ⟨e, he, rfl⟩
        exact hvalid e he

end Headless

section Boxes

open scoped CallStack.Standard

/-- A styled box with data and a leaf in it has a valid document. -/
theorem strict_document_valid_box :
    (compile {} .strict ['[', 'd', 'i', 'v', ' ', 'c', 'l', 'a', 's', 's', '=', '"', 'p', '-', '4',
        '"', ']', '[', 'j', 's', 'o', 'n', ' ', '$', 'a', ']', '[', 'h', 'r', ']', '[', '/', 'd',
        'i', 'v', ']']).outcome =
      .ok (.object
        [("version", .str "1.1.0"),
          ("elements", .list
            [.object
              [("type", .str "div"),
                ("elements", .list
                  [.object
                      [("type", .str "json"), ("attributes", .object [("variable", .str "$a")])],
                    .object [("type", .str "hr")]]),
                ("style", .object [("padding", .str "1rem")])]])]) ∧
    Schema.isValid (.object
        [("version", .str "1.1.0"),
          ("elements", .list
            [.object
              [("type", .str "div"),
                ("elements", .list
                  [.object
                      [("type", .str "json"), ("attributes", .object [("variable", .str "$a")])],
                    .object [("type", .str "hr")]]),
                ("style", .object [("padding", .str "1rem")])]])]) = true := by
  generalize hnote : ['[', 'd', 'i', 'v', ' ', 'c', 'l', 'a', 's', 's', '=', '"', 'p', '-', '4', '"',
    ']', '[', 'j', 's', 'o', 'n', ' ', '$', 'a', ']', '[', 'h', 'r', ']', '[', '/', 'd', 'i', 'v',
    ']'] = note
  have hsplit : Header.split note = (none, note) := by rw [← hnote]; rfl
  have htokens : Body.tokenize .strict note =
      .ok [.opening .div ['d', 'i', 'v'] [(Body.classKey, ['p', '-', '4'])],
        .leaf Body.jsonName [(Body.variableKey, ['$', 'a'])], .leaf ['h', 'r'] [],
        .closing (some .div) ['d', 'i', 'v'], .eof] := by
    rw [← hnote]
    decide +kernel
  have hheader : (Header.split note).1 = none := by rw [hsplit]
  refine (and_iff_left_of_imp fun hcompile => ?_).mpr ?_
  · rcases strict_document_valid_iff note hheader hcompile with ⟨tokens, hall, hvalid⟩
    rw [hsplit, htokens] at hall
    obtain rfl := Except.ok.inj hall
    apply hvalid.mpr
    intro name as hmem
    simp only [List.mem_cons, Body.Token.leaf.injEq, reduceCtorEq, false_or, or_false,
      List.not_mem_nil] at hmem
    rcases hmem with ⟨rfl, -⟩ | ⟨rfl, -⟩
    · decide
    · decide
  · rw [outcome_compile_default, outcome_build_headless hheader, hsplit, elementsOf,
      Run.outcome_bind, outcome_tokensOf, htokens]
    rfl

/-- A leaf with the name of a loop is compiled, and its document is not valid. -/
theorem strict_document_invalid_loop :
    (Header.split ['[', 'l', 'o', 'o', 'p', ']']).1 = none ∧
    (compile {} .strict ['[', 'l', 'o', 'o', 'p', ']']).outcome =
      .ok (.object
        [("version", .str "1.1.0"), ("elements", .list [.object [("type", .str "loop")]])]) ∧
    Schema.isValid (.object
      [("version", .str "1.1.0"), ("elements", .list [.object [("type", .str "loop")]])]) = false :=
  ⟨rfl, rfl, rfl⟩

end Boxes

end Document

end Notemark
