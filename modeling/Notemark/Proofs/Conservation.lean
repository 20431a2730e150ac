import Notemark.Proofs.Outline

/-!
# Conservation of content

White space apart, what is written in a body is what its document shows, in the same order.

* `Text.ink`: a text without its white space,
* `Value.prose`: the strings in the contents of a value, in document order,
* `proseAll_toValues`: the prose of elements is that of their blocks in document order,
* `Token.prose`: what a token contributes to the contents,
* `Builder.Tells`: the outline of a builder tells what the tokens so far say,
* `parse_conserves`: nothing is lost, doubled or moved between a body and its elements.
-/

namespace Notemark

/-! ## Ink -/

namespace Text

/-- A text without its white space. -/
def ink (t : Text) : Text := t.filter (!isBlank ·)

theorem ink_append (s t : Text) : ink (s ++ t) = ink s ++ ink t := List.filter_append ..

theorem ink_of_allBlank {t : Text} (h : allBlank t = true) : ink t = [] := by
  simpa [ink, allBlank] using h

theorem ink_stripStart (t : Text) : ink (stripStart t) = ink t := by
  have hsplit : t.takeWhile isBlank ++ stripStart t = t := List.takeWhile_append_dropWhile
  have hblank : ink (t.takeWhile isBlank) = [] := ink_of_allBlank List.all_takeWhile
  calc
    ink (stripStart t) = ink (t.takeWhile isBlank) ++ ink (stripStart t) := by
      rw [hblank, List.nil_append]
    _ = ink (t.takeWhile isBlank ++ stripStart t) := (ink_append _ _).symm
    _ = ink t := by rw [hsplit]

end Text

/-! ## Prose of values -/

namespace Value

/-- The fields of a mapping that hold what is shown. -/
def isShown (key : Scalar) : Bool := key = .str "content" || key = .str "elements"

mutual

/-- The strings in the contents of a value, in document order. -/
def prose : Value → Text
  | .scalar (.str s) => s.toList
  | .list xs => proseAll xs
  | .map _ es => proseFields es
  | _ => []

def proseAll : List Value → Text
  | [] => []
  | x :: xs => x.prose ++ proseAll xs

def proseFields : List (Scalar × Value) → Text
  | [] => []
  | (key, value) :: es => (if isShown key then value.prose else []) ++ proseFields es

end

theorem proseAll_append (xs ys : List Value) :
    proseAll (xs ++ ys) = proseAll xs ++ proseAll ys := by
  induction xs with
  | nil => rfl
  | cons x xs ih => simp only [List.cons_append, proseAll, ih, List.append_assoc]

theorem proseFields_append (es fs : List (Scalar × Value)) :
    proseFields (es ++ fs) = proseFields es ++ proseFields fs := by
  induction es with
  | nil => rfl
  | cons e es ih => simp only [List.cons_append, proseFields, ih, List.append_assoc]

theorem prose_object (fields : List (String × Value)) :
    (object fields).prose = proseFields (fields.map fun f => (.str f.1, f.2)) := rfl

theorem prose_object_append (fs gs : List (String × Value)) :
    (object (fs ++ gs)).prose = (object fs).prose ++ (object gs).prose := by
  rw [prose_object, List.map_append, proseFields_append]
  rfl

theorem prose_field (name : String) (value : Value) :
    (object [(name, value)]).prose = if isShown (.str name) then value.prose else [] :=
  List.append_nil _

end Value

namespace Body

open Value (prose proseAll proseFields)

/-! ## Prose of elements -/

theorem prose_textValue (t : Text) : (textValue t).prose = t := String.toList_ofList

/-- A text of its own, under a type. -/
theorem prose_content (type : String) (t : Text) :
    (Value.object [("type", .str type), ("content", .list [textValue t])]).prose = t := by
  simp [Value.prose_object, proseFields, Value.isShown, prose, proseAll, prose_textValue]

def Inline.chars : Inline → Text
  | text t | strong t | em t => t

/-- The text of a block, a literal in its tag included. -/
def Block.chars : Block → Text
  | heading _ title => title
  | paragraph items => items.flatMap Inline.chars
  | leaf _ literal _ | container _ literal => literal.getD []
  | image _ | component .. => []

theorem prose_inline (item : Inline) : item.toValue.prose = item.chars := by
  cases item with
  | text t => exact prose_textValue t
  | strong t => exact prose_content _ t
  | em t => exact prose_content _ t

theorem proseAll_items (items : List Inline) :
    proseAll (items.map Inline.toValue) = items.flatMap Inline.chars := by
  induction items with
  | nil => rfl
  | cons item items ih => simp only [List.map_cons, proseAll, prose_inline, ih, List.flatMap_cons]

/-- Behind the fields of its own an element has its attributes and its id. -/
theorem exists_elementFields (block : Block) (mark : Mark) :
    ∃ rest, elementFields block mark = [("type", .str block.typeName)] ++ block.ownFields ++ rest ∧
      ∀ f ∈ rest, f.1 = "attributes" ∨ f.1 = "elementId" := by
  refine ⟨_, rfl, ?_⟩
  intro f hf
  cases hattributes : markedAttributes? block mark with
  | none =>
    cases hid : mark.id with
    | none => simp [hattributes, hid] at hf
    | some id =>
      have hf' : f = ("elementId", textValue id) := by simpa [hattributes, hid] using hf
      exact Or.inr (congrArg Prod.fst hf')
  | some as =>
    cases hid : mark.id with
    | none =>
      have hf' : f = ("attributes", attributesValue as) := by simpa [hattributes, hid] using hf
      exact Or.inl (congrArg Prod.fst hf')
    | some id =>
      -- Whichever comes first, there are these two fields.
      have hf' : f = ("attributes", attributesValue as) ∨ f = ("elementId", textValue id) := by
        rw [hattributes, hid] at hf
        split at hf
        · simpa using hf
        · simpa [or_comm] using hf
      rcases hf' with rfl | rfl
      · exact Or.inl rfl
      · exact Or.inr rfl

theorem prose_hidden {fields : List (String × Value)}
    (h : ∀ f ∈ fields, f.1 = "attributes" ∨ f.1 = "elementId") :
    (Value.object fields).prose = [] := by
  induction fields with
  | nil => rfl
  | cons f fields ih =>
    have hf : Value.isShown (.str f.1) = false := by
      rcases h f (by simp) with hname | hname
      · rw [hname]
        decide
      · rw [hname]
        decide
    have hrest := ih fun g hg => h g (by simp [hg])
    rw [Value.prose_object, List.map_cons, proseFields, hf]
    exact hrest

/-- The text of a block stands in the fields of its own, except for the literal of a container. -/
theorem prose_ownFields (block : Block) :
    (Value.object block.ownFields).prose = if block.isContainer then [] else block.chars := by
  have hshown : Value.isShown (.str "content") = true := by decide
  cases block with
  | heading level title =>
    simp [Block.ownFields, Value.prose_field, hshown, prose, proseAll, prose_textValue,
      Block.isContainer, Block.chars]
  | paragraph items =>
    simp [Block.ownFields, Value.prose_field, hshown, prose, proseAll_items, Block.isContainer,
      Block.chars]
  | image as => rfl
  | component name argument => rfl
  | leaf name literal as =>
    cases literal with
    | none => rfl
    | some t =>
      simp [Block.ownFields, Value.prose_field, hshown, prose, proseAll, prose_textValue,
        Block.isContainer, Block.chars]
  | container head literal => cases head <;> rfl

theorem prose_elementFields (block : Block) (mark : Mark) :
    (Value.object (elementFields block mark)).prose =
      if block.isContainer then [] else block.chars := by
  rcases exists_elementFields block mark with ⟨rest, hfields, hrest⟩
  calc
    (Value.object (elementFields block mark)).prose
        = (Value.object [("type", .str block.typeName)]).prose ++
            (Value.object block.ownFields).prose ++ (Value.object rest).prose := by
          rw [hfields, Value.prose_object_append, Value.prose_object_append]
    _ = (Value.object block.ownFields).prose := by
          rw [prose_hidden hrest, List.append_nil]
          rfl
    _ = if block.isContainer then [] else block.chars := prose_ownFields block

theorem proseAll_literalParagraph (block : Block) :
    proseAll block.literalParagraph = if block.isContainer then block.chars else [] := by
  cases block with
  | container head literal =>
    cases literal with
    | none => rfl
    | some t =>
      cases t with
      | nil => rfl
      | cons c t =>
        have hcontent := prose_content "p" (c :: t)
        simpa [Block.literalParagraph, proseAll, Block.isContainer, Block.chars] using hcontent
  | _ => rfl

mutual

/-- The prose of an element is the text of its blocks, in document order. -/
theorem prose_toValue : (e : Element) → e.toValue.prose = e.preorder.flatMap (·.block.chars)
  | .mk block mark children => by
    have hchildren := proseAll_toValues children
    rw [Element.toValue, Value.prose_object_append, prose_elementFields, Element.preorder,
      List.flatMap_cons]
    by_cases hcontainer : block.isContainer = true
    · -- A container shows its literal before its children.
      have hliteral := proseAll_literalParagraph block
      rw [if_pos hcontainer] at hliteral
      rw [if_pos hcontainer, if_pos hcontainer, if_pos hcontainer, Value.prose_field]
      have hshown : Value.isShown (.str "elements") = true := by decide
      rw [hshown, if_pos rfl, prose, Value.proseAll_append, hliteral, hchildren]
      rfl
    · rw [if_neg hcontainer, if_neg hcontainer, if_neg hcontainer]
      rfl

theorem proseAll_toValues : (es : List Element) →
    proseAll (Element.toValues es) = (Element.preorderAll es).flatMap (·.block.chars)
  | [] => rfl
  | e :: es => by
    have hfirst := prose_toValue e
    have hrest := proseAll_toValues es
    rw [Element.toValues, proseAll, hfirst, hrest, Element.preorderAll, List.flatMap_append]

end

/-! ## Prose of tokens -/

/-- What a token contributes to the contents: its text, or the literal written in its tag. -/
def Token.prose : Token → Text
  | .text value | .reference value | .bold value | .italic value | .heading _ value => value
  | .opening _ _ as | .leaf _ as => as.getD contentKey []
  | _ => []

def Block.isParagraph : Block → Bool
  | paragraph _ => true
  | _ => false

section TokenProse

variable {t : Token}

/-- A block has the text of its token. -/
theorem chars_of_block? {block : Block} (hshaped : t.Shaped) (h : t.block? = some block) :
    block.chars = t.prose ∧ block.isParagraph = false := by
  cases t with
  | heading level value => exact Option.some.inj h ▸ ⟨rfl, rfl⟩
  | image as => exact Option.some.inj h ▸ ⟨rfl, rfl⟩
  | component value as => exact Option.some.inj h ▸ ⟨rfl, rfl⟩
  | opening c name as => exact Option.some.inj h ▸ ⟨rfl, rfl⟩
  | leaf name as =>
    rw [← Option.some.inj h, Block.ofLeaf]
    by_cases hname : name = jsonName
    · -- A data leaf has no literal, but neither has its tag.
      rcases hshaped hname with ⟨shown, rfl⟩
      rw [if_pos hname]
      exact ⟨rfl, rfl⟩
    · rw [if_neg hname]
      exact ⟨rfl, rfl⟩
  | _ => simp [Token.block?] at h

/-- An item has the text of its token, up to white space. -/
theorem ink_of_writes {item : Inline} (h : t.Writes item) :
    Text.ink item.chars = Text.ink t.prose := by
  cases t with
  | text value =>
    rcases h with rfl | rfl
    · rfl
    · exact Text.ink_stripStart value
  | reference value => rcases h with rfl; rfl
  | bold value => rcases h with rfl; rfl
  | italic value => rcases h with rfl; rfl
  | _ => exact h.elim

theorem ink_of_remark? {change : Mark → Mark} (h : t.remark? = some change) :
    Text.ink t.prose = [] := by
  cases t with
  | idMarker id => rfl
  | styleMarker classes => rfl
  | _ => simp [Token.remark?] at h

theorem ink_of_idle {kinds : List Container} (h : t.Idle kinds) : Text.ink t.prose = [] := by
  cases t with
  | text value => exact Text.ink_of_allBlank h
  | closing c name => rfl
  | eof => rfl
  | _ => exact h.elim

end TokenProse

theorem ink_blanks {blanks : List Inline} (h : ∀ x ∈ blanks, Paragraph.isBlankText x = true) :
    Text.ink (blanks.flatMap Inline.chars) = [] := by
  induction blanks with
  | nil => rfl
  | cons x blanks ih =>
    have hrest := ih fun y hy => h y (by simp [hy])
    have hx : Text.ink x.chars = [] := by
      have hblank := h x (by simp)
      cases x with
      | text t => exact Text.ink_of_allBlank hblank
      | strong t => simp [Paragraph.isBlankText] at hblank
      | em t => simp [Paragraph.isBlankText] at hblank
    rw [List.flatMap_cons, Text.ink_append, hx, hrest]
    rfl

/-- White space before an item adds nothing to the ink of its token. -/
theorem ink_written {t : Token} {blanks : List Inline} {item : Inline}
    (hblanks : ∀ x ∈ blanks, Paragraph.isBlankText x = true) (h : t.Writes item) :
    Text.ink ((blanks ++ [item]).flatMap Inline.chars) = Text.ink t.prose := by
  rw [List.flatMap_append, Text.ink_append, ink_blanks hblanks, List.flatMap_singleton,
    ink_of_writes h]
  rfl

/-! ## The outline tells what the tokens say -/

namespace Builder

variable {b b' : Builder} {t : Token} {ts : List Token}

/-- The text of an outline. -/
def outlineInk (es : List Entry) : Text := Text.ink (es.flatMap (·.1.chars))

/-- The blocks of an outline that tokens stand for by themselves. -/
def outlineBlocks (es : List Entry) : List Block := (es.map (·.1)).filter (!·.isParagraph)

theorem outlineInk_append (es fs : List Entry) :
    outlineInk (es ++ fs) = outlineInk es ++ outlineInk fs := by
  simp only [outlineInk, List.flatMap_append, Text.ink_append]

theorem outlineBlocks_append (es fs : List Entry) :
    outlineBlocks (es ++ fs) = outlineBlocks es ++ outlineBlocks fs := by
  simp only [outlineBlocks, List.map_append, List.filter_append]

theorem outlineInk_singleton (block : Block) (mark : Mark) :
    outlineInk [(block, mark)] = Text.ink block.chars := by
  simp [outlineInk]

theorem outlineBlocks_paragraph (items : List Inline) (mark : Mark) :
    outlineBlocks [(.paragraph items, mark)] = [] := rfl

/-- The outline has the text of the tokens, up to white space, and their blocks. -/
structure Tells (b : Builder) (ts : List Token) : Prop where
  ink : outlineInk b.outline = Text.ink (ts.flatMap Token.prose)
  blocks : outlineBlocks b.outline = ts.filterMap Token.block?

theorem tells_start : Tells {} [] := ⟨rfl, rfl⟩

/-- What is told after one more token, if the outline grows by what the token says. -/
theorem Tells.snoc (hb : b.Tells ts)
    (hink : outlineInk b'.outline = outlineInk b.outline ++ Text.ink t.prose)
    (hblocks : outlineBlocks b'.outline = outlineBlocks b.outline ++ t.block?.toList) :
    b'.Tells (ts ++ [t]) where
  ink := by
    rw [hink, hb.ink, List.flatMap_append, Text.ink_append, List.flatMap_singleton]
  blocks := by
    rw [hblocks, hb.blocks, List.filterMap_append]
    cases hblock : t.block? with
    | none => simp [hblock]
    | some block => simp [hblock]

/-- A token that says nothing leaves the outline as it is. -/
theorem Tells.silent (hb : b.Tells ts) (houtline : b'.outline = b.outline)
    (hink : Text.ink t.prose = []) (hblock : t.block? = none) : b'.Tells (ts ++ [t]) := by
  refine hb.snoc ?_ ?_
  · rw [houtline, hink, List.append_nil]
  · rw [houtline, hblock, Option.toList_none, List.append_nil]

theorem Effect.tells (h : Effect b b' t) (hshaped : t.Shaped) (hb : b.Tells ts) :
    b'.Tells (ts ++ [t]) := by
  cases h with
  | block hblock houtline _ _ =>
    rcases chars_of_block? hshaped hblock with ⟨hchars, hparagraph⟩
    refine hb.snoc ?_ ?_
    · rw [houtline, outlineInk_append, outlineInk_singleton, hchars]
    · rw [houtline, outlineBlocks_append, hblock]
      simp [outlineBlocks, hparagraph]
  | begins hink hwrites hblanks _ houtline _ _ =>
    refine hb.snoc ?_ ?_
    · rw [houtline, outlineInk_append, outlineInk_singleton, Block.chars,
        ink_written hblanks hwrites]
    · rw [houtline, outlineBlocks_append, outlineBlocks_paragraph, (Token.sort_of_hasInk hink).1,
        Option.toList_none]
  | goesOn hink hwrites hblanks _ hbefore houtline _ _ =>
    -- The last paragraph grows by white space and the new item.
    refine hb.snoc ?_ ?_
    · rw [houtline, hbefore, outlineInk_append, outlineInk_append, outlineInk_singleton,
        outlineInk_singleton, Block.chars, Block.chars, List.flatMap_append, Text.ink_append,
        ink_written hblanks hwrites, List.append_assoc]
    · rw [houtline, hbefore, outlineBlocks_append, outlineBlocks_append, outlineBlocks_paragraph,
        outlineBlocks_paragraph, (Token.sort_of_hasInk hink).1, Option.toList_none, List.append_nil,
        List.append_nil]
  | marks hremark houtline _ _ =>
    exact hb.silent houtline (ink_of_remark? hremark) (Token.sort_of_remark? hremark).1
  | closes _ houtline _ _ => exact hb.silent houtline rfl rfl
  | breaks houtline _ _ => exact hb.silent houtline rfl rfl
  | rests hidle houtline _ _ =>
    exact hb.silent houtline (ink_of_idle hidle) (Token.sort_of_idle hidle).1

/-- A whole pass tells what its tokens say. -/
theorem run_tells (hneat : b.Neat) (htells : b.Tells ts) {us : List Token}
    (hsound : ∀ t ∈ us, t.Sound) (hshaped : ∀ t ∈ us, t.Shaped) :
    ∃ b', b.run us = .ok b' ∧ b'.Neat ∧ b'.Tells (ts ++ us) := by
  induction us generalizing b ts with
  | nil => exact ⟨b, rfl, hneat, by rwa [List.append_nil]⟩
  | cons t us ih =>
    rcases step_effect hneat (hsound t (by simp)) with ⟨b₁, hstep, hneat₁, heffect⟩
    have htells₁ := heffect.tells (hshaped t (by simp)) htells
    rcases ih hneat₁ htells₁ (fun u hu => hsound u (by simp [hu]))
      (fun u hu => hshaped u (by simp [hu])) with ⟨b', hrun, hneat', htells'⟩
    refine ⟨b', ?_, hneat', ?_⟩
    · rw [run, hstep]
      exact hrun
    · rwa [List.append_assoc] at htells'

end Builder

/-- In either mode a body has elements. Their contents, read in document order, are those of the
tokens up to white space, and their blocks other than paragraphs are those of the tokens: nothing
is lost, doubled or moved. -/
theorem parse_conserves (body : Text) :
    (∃ ts, tokenize .lenient body = .ok ts) ∧
    ∀ mode ts, tokenize mode body = .ok ts →
      ∃ elements, parse ts = .ok elements ∧
        Text.ink (proseAll (Element.toValues elements)) = Text.ink (ts.flatMap Token.prose) ∧
        ((Element.preorderAll elements).map Element.block).filter (!·.isParagraph) =
          ts.filterMap Token.block? := by
  refine ⟨exists_tokenize_lenient body, ?_⟩
  intro mode ts h
  have htokens := tokenList_of_tokenize h
  rcases Builder.run_tells Builder.neat_start Builder.tells_start htokens.sound htokens.shaped with
    ⟨b, hrun, hneat, htells⟩
  rcases Builder.finish_neat hneat with ⟨elements, hfinish, hentries⟩
  refine ⟨elements, ?_, ?_, ?_⟩
  · rw [parse, hrun]
    exact hfinish
  · calc
      Text.ink (proseAll (Element.toValues elements))
          = Builder.outlineInk (Element.entries elements) := by
            rw [proseAll_toValues, Builder.outlineInk, Element.entries, List.flatMap_map]
            rfl
      _ = Text.ink ((untilEof ts).flatMap Token.prose) := by rw [hentries, htells.ink]; rfl
      _ = Text.ink ((untilEof ts ++ [Token.eof]).flatMap Token.prose) := by
            rw [List.flatMap_append, Text.ink_append]
            exact (List.append_nil _).symm
      _ = Text.ink (ts.flatMap Token.prose) := by rw [← htokens.append_eof]
  · calc
      ((Element.preorderAll elements).map Element.block).filter (!·.isParagraph)
          = Builder.outlineBlocks (Element.entries elements) := by
            rw [Builder.outlineBlocks, Element.entries, List.map_map]
            rfl
      _ = (untilEof ts).filterMap Token.block? := by rw [hentries, htells.blocks]; rfl
      _ = (untilEof ts ++ [Token.eof]).filterMap Token.block? := by
            rw [List.filterMap_append]
            exact (List.append_nil _).symm
      _ = ts.filterMap Token.block? := by rw [← htokens.append_eof]

/-- A container that is never closed: its literal comes before the item inside it. -/
theorem parse_conserves_open_box :
    tokenize .lenient ['x', '\n', '\n', '[', 'd', 'i', 'v', ' ', '"', 'l', '"', ']', '*', '*', 'k',
        '*', '*'] =
      .ok [.text ['x'], .newline, .newline, .opening .div ['d', 'i', 'v'] [(contentKey, ['l'])],
        .bold ['k'], .eof] ∧
    ∃ elements,
      parse [.text ['x'], .newline, .newline, .opening .div ['d', 'i', 'v'] [(contentKey, ['l'])],
        .bold ['k'], .eof] = .ok elements ∧
      Text.ink (proseAll (Element.toValues elements)) = ['x', 'l', 'k'] ∧
      ((Element.preorderAll elements).map Element.block).filter (!·.isParagraph) =
        [.container (.box ['d', 'i', 'v'] []) (some ['l'])] :=
  ⟨rfl, (parse_conserves ['x', '\n', '\n', '[', 'd', 'i', 'v', ' ', '"', 'l', '"', ']', '*', '*',
    'k', '*', '*']).2 .lenient _ rfl⟩

end Body

end Notemark
