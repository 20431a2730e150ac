import Notemark.Proofs.Repair

/-!
# The outline of a body

The tree builder keeps finished elements in the levels of its open containers, and the element that
comes next in an open paragraph. The outline puts all of them in document order, so that what a
token does can be said without the nesting:

* `Element.preorder`: an element and all inside it, in document order,
* `Builder.outline`: the blocks so far with their marks, in document order, those of the open
  containers and of the open paragraph included,
* `Builder.waiting`: the mark that the next element will take,
* `Builder.Effect`: all that a token can do to the outline and to the waiting mark,
* `Builder.step_effect`: every step is one of these; `Builder.run_preserves` is about whole passes,
* `Builder.finish_neat`: the elements at the end are those of the outline.
-/

namespace Notemark.Body

/-! ## Document order -/

/-- A block with its mark. -/
abbrev Entry := Block × Mark

namespace Element

mutual

/-- An element, followed by all elements inside it; only containers have an inside. -/
def preorder : Element → List Element
  | mk block mark children =>
    mk block mark children :: if block.isContainer then preorderAll children else []

def preorderAll : List Element → List Element
  | [] => []
  | e :: es => e.preorder ++ preorderAll es

end

theorem preorderAll_append (es fs : List Element) :
    preorderAll (es ++ fs) = preorderAll es ++ preorderAll fs := by
  induction es with
  | nil => rfl
  | cons e es ih => simp only [List.cons_append, preorderAll, ih, List.append_assoc]

def entry (e : Element) : Entry := (e.block, e.mark)

/-- The blocks of elements with their marks, in document order. -/
def entries (es : List Element) : List Entry := (preorderAll es).map entry

theorem entries_append (es fs : List Element) : entries (es ++ fs) = entries es ++ entries fs := by
  simp only [entries, preorderAll_append, List.map_append]

theorem entries_childless (block : Block) (mark : Mark) :
    entries [mk block mark []] = [(block, mark)] := by
  simp [entries, preorderAll, preorder, entry, Element.block, Element.mark]

theorem entries_container {block : Block} (h : block.isContainer = true) (mark : Mark)
    (children : List Element) :
    entries [mk block mark children] = (block, mark) :: entries children := by
  simp [entries, preorderAll, preorder, entry, Element.block, Element.mark, h]

end Element

/-! ## Paragraphs -/

namespace Paragraph

variable {p : Paragraph}

/-- Content is claimed where some item is more than white space, and only there. -/
def Exact (p : Paragraph) : Prop := p.hasContent = p.items.any (!isBlankText ·)

theorem Exact.honest (h : p.Exact) : p.Honest := by
  intro hcontent
  rw [h] at hcontent
  simpa using hcontent

theorem exact_addItem (p : Paragraph) {item : Inline} (hitem : isBlankText item = false) :
    (p.addItem item).Exact := by
  simp [Exact, addItem, hitem]

/-- White space at the end of a paragraph is trimmed, anything else is not. -/
theorem trimmed_append_singleton (items : List Inline) (item : Inline) :
    trimmed (items ++ [item]) =
      if isBlankText item then trimmed items else items ++ [item] := by
  unfold trimmed
  rw [List.reverse_append, List.reverse_singleton, List.singleton_append, List.dropWhile_cons]
  split
  · rfl
  · rw [List.reverse_cons, List.reverse_reverse]

/-- Only white space is trimmed. -/
theorem exists_eq_trimmed_append (items : List Inline) :
    ∃ blanks, items = trimmed items ++ blanks ∧ ∀ item ∈ blanks, isBlankText item = true := by
  refine ⟨(items.reverse.takeWhile isBlankText).reverse, ?_, ?_⟩
  · have hsplit := List.takeWhile_append_dropWhile (p := isBlankText) (l := items.reverse)
    have hreverse := congrArg List.reverse hsplit
    rw [List.reverse_append, List.reverse_reverse] at hreverse
    exact hreverse.symm
  · intro item hitem
    exact List.all_eq_true.mp List.all_takeWhile item (List.mem_reverse.mp hitem)

/-- What a paragraph shows is unchanged: its content, and whether it has some. -/
structure SameShown (p q : Paragraph) : Prop where
  hasContent : q.hasContent = p.hasContent
  trimmed : trimmed q.items = trimmed p.items

theorem sameShown_addBlank (p : Paragraph) {t : Text} (ht : Text.allBlank t = true)
    (after : Bool) :
    SameShown p ⟨p.items ++ [.text t], after, p.hasContent⟩ where
  hasContent := rfl
  trimmed := by
    have hblank : isBlankText (.text t) = true := ht
    rw [trimmed_append_singleton, if_pos hblank]

theorem Exact.of_sameShown {q : Paragraph} (hp : p.Exact) (h : SameShown p q) : q.Exact := by
  -- A paragraph has content if and only if something is left of it after trimming.
  have hany : ∀ items : List Inline,
      items.any (!isBlankText ·) = (trimmed items).any (!isBlankText ·) := by
    intro items
    rcases exists_eq_trimmed_append items with ⟨blanks, hitems, hblanks⟩
    have hnone : blanks.any (!isBlankText ·) = false := by
      simpa using hblanks
    calc
      items.any (!isBlankText ·)
          = (trimmed items ++ blanks).any (!isBlankText ·) := by rw [← hitems]
      _ = (trimmed items).any (!isBlankText ·) := by rw [List.any_append, hnone, Bool.or_false]
  calc
    q.hasContent = p.hasContent := h.hasContent
    _ = p.items.any (!isBlankText ·) := hp
    _ = q.items.any (!isBlankText ·) := by rw [hany p.items, hany q.items, h.trimmed]

theorem sameShown_breakLine (p : Paragraph) : SameShown p p.breakLine := by
  refine ⟨rfl, ?_⟩
  unfold breakLine
  dsimp only
  split
  · rfl
  · split
    · rfl
    · exact (sameShown_addBlank p (by decide) false).trimmed

/-- Blank text leaves a paragraph as it was, to all appearances. -/
theorem addText_blank (p : Paragraph) {t : Text} (ht : Text.allBlank t = true) :
    SameShown p (p.addText t) ∧ (p.addText t).afterNewline = p.afterNewline := by
  have hstrip := Text.stripStart_of_allBlank ht
  unfold addText
  cases hafter : p.afterNewline with
  | true =>
    simp only [if_true, hstrip, List.isEmpty_nil, Bool.and_self]
    exact ⟨⟨rfl, rfl⟩, hafter⟩
  | false =>
    simp only [Bool.false_eq_true, if_false, Bool.false_and, ht, Bool.not_true, Bool.or_false]
    exact ⟨sameShown_addBlank p ht false, trivial⟩

/-- Text that is not blank becomes an item, perhaps without its indentation. -/
theorem addText_ink (p : Paragraph) {t : Text} (ht : Text.allBlank t = false) :
    ∃ kept, (kept = t ∨ kept = Text.stripStart t) ∧ Text.allBlank kept = false ∧
      p.addText t = p.addItem (.text kept) := by
  unfold addText
  obtain ⟨kept, hkept⟩ : ∃ kept, kept = if p.afterNewline then Text.stripStart t else t := ⟨_, rfl⟩
  rw [← hkept]
  have hink : Text.allBlank kept = false := by
    rw [hkept]
    split
    · rw [Text.allBlank_stripStart, ht]
    · exact ht
  refine ⟨kept, ?_, hink, ?_⟩
  · rw [hkept]
    split
    · exact Or.inr rfl
    · exact Or.inl rfl
  · have hne : kept.isEmpty = false := by
      cases kept with
      | nil => exact absurd hink (by decide)
      | cons c cs => rfl
    simp [addItem, hne, hink]

end Paragraph

/-! ## Tokens -/

namespace Token

/-- The block that a token stands for by itself. -/
def block? : Token → Option Block
  | .heading level value => some (.heading level value)
  | .image as => some (.image as)
  | .component value as => some (.ofComponent value as)
  | .leaf name as => some (.ofLeaf name as)
  | .opening c name as => some (.ofOpening c name as)
  | _ => none

/-- A token that writes into a paragraph: text that is more than white space, or an inline item. -/
def hasInk : Token → Bool
  | .text value => !Text.allBlank value
  | .reference _ | .bold _ | .italic _ => true
  | _ => false

/-- The item that a token writes; at the beginning of a line text loses its indentation. -/
def Writes : Token → Inline → Prop
  | .text value, item => item = .text value ∨ item = .text (Text.stripStart value)
  | .reference value, item => item = .text value
  | .bold value, item => item = .strong value
  | .italic value, item => item = .em value
  | _, _ => False

/-- What a marker does to the mark of the next element. -/
def remark? : Token → Option (Mark → Mark)
  | .idMarker id => some fun mark => { mark with id := id }
  | .styleMarker classes => some fun mark => { mark with style := some classes }
  | _ => none

/-- A token that nobody notices: white space, or a closing tag that fits no open container. -/
def Idle (kinds : List Container) : Token → Prop
  | .text value => Text.allBlank value = true
  | .closing c _ => ∀ k, c = some k → k ∉ kinds
  | .eof => True
  | _ => False

/-! The sorts of tokens exclude each other. -/

variable {t : Token}

theorem sort_of_block? {block : Block} (h : t.block? = some block) :
    t.hasInk = false ∧ t.remark? = none := by
  cases t with
  | heading level value => exact ⟨rfl, rfl⟩
  | image as => exact ⟨rfl, rfl⟩
  | component value as => exact ⟨rfl, rfl⟩
  | leaf name as => exact ⟨rfl, rfl⟩
  | opening c name as => exact ⟨rfl, rfl⟩
  | _ => simp [block?] at h

theorem sort_of_hasInk (h : t.hasInk = true) : t.block? = none ∧ t.remark? = none := by
  cases t with
  | text value => exact ⟨rfl, rfl⟩
  | reference value => exact ⟨rfl, rfl⟩
  | bold value => exact ⟨rfl, rfl⟩
  | italic value => exact ⟨rfl, rfl⟩
  | _ => simp [hasInk] at h

theorem sort_of_remark? {change : Mark → Mark} (h : t.remark? = some change) :
    t.block? = none ∧ t.hasInk = false := by
  cases t with
  | idMarker id => exact ⟨rfl, rfl⟩
  | styleMarker classes => exact ⟨rfl, rfl⟩
  | _ => simp [remark?] at h

theorem sort_of_idle {kinds : List Container} (h : t.Idle kinds) :
    t.block? = none ∧ t.hasInk = false ∧ t.remark? = none := by
  cases t with
  | text value =>
    have hblank : Text.allBlank value = true := h
    exact ⟨rfl, by simp [hasInk, hblank], rfl⟩
  | closing c name => exact ⟨rfl, rfl, rfl⟩
  | eof => exact ⟨rfl, rfl, rfl⟩
  | _ => exact h.elim

theorem ne_newline_of_idle {kinds : List Container} (h : t.Idle kinds) : t ≠ .newline := by
  rintro rfl
  exact h

theorem not_idle_of_hasInk {kinds : List Container} (h : t.hasInk = true) : ¬ t.Idle kinds := by
  intro hidle
  rw [(sort_of_idle hidle).2.1] at h
  exact Bool.false_ne_true h

end Token

namespace Builder

variable {b b' b₁ : Builder}

/-! ## The outline of a builder -/

/-- Content is claimed exactly where there is some, and what is open is a container that has ended
the paragraph before it. -/
structure Neat (b : Builder) : Prop where
  here : b.level.paragraph.Exact
  outside : ∀ f ∈ b.frames, f.outer.paragraph = {}
  containers : ∀ f ∈ b.frames, f.block.isContainer = true

theorem neat_start : Neat {} where
  here := rfl
  outside := by
    intro f hf
    simp at hf
  containers := by
    intro f hf
    simp at hf

theorem Neat.honest (hb : b.Neat) : b.Honest where
  here := hb.here.honest
  outside := by
    intro f hf
    rw [hb.outside f hf]
    exact Paragraph.honest_empty

/-- What stands before the innermost level: the open containers, each behind the elements before
it. -/
def framesOutline : List Frame → List Entry
  | [] => []
  | f :: fs => framesOutline fs ++ Element.entries f.outer.elements ++ [(f.block, f.mark)]

/-- All elements but the open paragraph, in document order. -/
def finished (b : Builder) : List Entry :=
  framesOutline b.frames ++ Element.entries b.level.elements

/-- The paragraph that would be the next element if it ended now. -/
def openEntry (b : Builder) : List Entry :=
  if b.level.paragraph.hasContent then
    [(.paragraph (Paragraph.trimmed b.level.paragraph.items), b.mark)]
  else []

def outline (b : Builder) : List Entry := b.finished ++ b.openEntry

/-- The mark of the next element to begin. The mark of a paragraph is its own from the first item
on, although it is taken up at the end. -/
def waiting (b : Builder) : Mark := if b.level.paragraph.hasContent then {} else b.mark

/-- Whether a paragraph has begun, and if so, whether its last line has ended. -/
def line (b : Builder) : Option Bool :=
  if b.level.paragraph.hasContent then some b.level.paragraph.afterNewline else none

section NoParagraph

variable (h : b.level.paragraph = {})
include h

theorem outline_of_empty : b.outline = b.finished := by
  simp [outline, openEntry, h]

theorem waiting_of_empty : b.waiting = b.mark := by
  simp [waiting, h]

theorem line_of_empty : b.line = none := by
  simp [line, h]

end NoParagraph

/-- A paragraph that shows what another one shows can stand in its place. -/
theorem outline_withParagraph {p : Paragraph} (h : Paragraph.SameShown b.level.paragraph p) :
    (b.withParagraph p).outline = b.outline ∧ (b.withParagraph p).waiting = b.waiting := by
  simp [outline, finished, openEntry, waiting, withParagraph, h.hasContent, h.trimmed]

theorem neat_withParagraph (hb : b.Neat) {p : Paragraph} (hp : p.Exact) :
    (b.withParagraph p).Neat where
  here := hp
  outside := hb.outside
  containers := hb.containers

/-! ## Ending a paragraph -/

/-- The paragraph has ended; what has been written stays. -/
structure Ended (b b₁ : Builder) : Prop where
  neat : b₁.Neat
  paragraph : b₁.level.paragraph = {}
  outline : b₁.finished = b.outline
  mark : b₁.mark = b.waiting

theorem flush_neat (hb : b.Neat) : ∃ b₁, b.flush = .ok b₁ ∧ Ended b b₁ := by
  rcases flush_honest hb.honest with ⟨b₁, hflush, hflushed⟩
  refine ⟨b₁, hflush, ?_⟩
  have hneat : b₁.Neat := by
    refine ⟨by rw [hflushed.paragraph_eq]; rfl, ?_, ?_⟩
    · rw [hflushed.frames]
      exact hb.outside
    · rw [hflushed.frames]
      exact hb.containers
  -- With content, the open paragraph takes its place behind the finished elements.
  cases hflushed with
  | nothing hcontent =>
    refine ⟨hneat, rfl, ?_, ?_⟩
    · simp [outline, openEntry, hcontent, finished, withParagraph]
    · simp [waiting, hcontent, withParagraph]
  | paragraph hcontent =>
    refine ⟨hneat, rfl, ?_, ?_⟩
    · simp only [outline, openEntry, hcontent, if_true, finished, add, withParagraph,
        Element.entries_append, Element.entries_childless, List.append_assoc]
    · simp [waiting, hcontent, add]

/-! ## What a step can do -/

/-- All that a token can do to the outline, to the waiting mark and to the open paragraph. -/
inductive Effect (b b' : Builder) : Token → Prop where
  /-- The block of the token takes the waiting mark. -/
  | block {t : Token} {block : Block} : t.block? = some block →
      b'.outline = b.outline ++ [(block, b.waiting)] → b'.waiting = {} → b'.line = none →
      Effect b b' t
  /-- A paragraph begins, and the waiting mark is its own from now on. -/
  | begins {t : Token} {blanks : List Inline} {item : Inline} : t.hasInk = true →
      t.Writes item → (∀ x ∈ blanks, Paragraph.isBlankText x = true) → b.line = none →
      b'.outline = b.outline ++ [(.paragraph (blanks ++ [item]), b.waiting)] →
      b'.waiting = {} → b'.line = some false → Effect b b' t
  /-- The paragraph that is the last element so far goes on. -/
  | goesOn {t : Token} {front : List Entry} {items blanks : List Inline} {item : Inline}
      {mark : Mark} : t.hasInk = true → t.Writes item →
      (∀ x ∈ blanks, Paragraph.isBlankText x = true) → b.line ≠ none →
      b.outline = front ++ [(.paragraph items, mark)] →
      b'.outline = front ++ [(.paragraph (items ++ (blanks ++ [item])), mark)] →
      b'.waiting = b.waiting → b'.line = some false → Effect b b' t
  /-- A marker ends the paragraph before it and changes the waiting mark. -/
  | marks {t : Token} {change : Mark → Mark} : t.remark? = some change →
      b'.outline = b.outline → b'.waiting = change b.waiting → b'.line = none → Effect b b' t
  /-- An open container closes, and what waits inside it is dropped. -/
  | closes {c : Container} {name : Text} : c ∈ b.kinds →
      b'.outline = b.outline → b'.waiting = {} → b'.line = none →
      Effect b b' (.closing (some c) name)
  /-- The first line break in a row ends a line, the second one the paragraph. -/
  | breaks : b'.outline = b.outline → b'.waiting = b.waiting →
      b'.line = (if b.line = some false then some true else none) → Effect b b' .newline
  /-- Nothing happens that anybody could notice. -/
  | rests {t : Token} : t.Idle b.kinds → b'.outline = b.outline → b'.waiting = b.waiting →
      b'.line = b.line → Effect b b' t

/-- The step of a token succeeds, and has one of the effects. -/
def Steps (b : Builder) (t : Token) : Prop :=
  ∃ b', b.step t = .ok b' ∧ b'.Neat ∧ Effect b b' t

theorem steps_block (hb : b.Neat) {t : Token} {block : Block} (ht : t.block? = some block)
    (hstep : b.step t = b.addBlock block) : b.Steps t := by
  rcases flush_neat hb with ⟨b₁, hflush, hended⟩
  have hempty : (b₁.add block).level.paragraph = {} := hended.paragraph
  refine ⟨b₁.add block, by rw [hstep, addBlock_of_flush hflush], ?_, ?_⟩
  · exact ⟨hended.neat.here, hended.neat.outside, hended.neat.containers⟩
  · refine .block ht ?_ ?_ (line_of_empty hempty)
    · calc
        (b₁.add block).outline
            = (b₁.add block).finished := outline_of_empty hempty
        _ = b₁.finished ++ [(block, b₁.mark)] := by
            simp only [finished, add, Element.entries_append, Element.entries_childless,
              List.append_assoc]
        _ = b.outline ++ [(block, b.waiting)] := by rw [hended.outline, hended.mark]
    · exact waiting_of_empty hempty

theorem steps_opening (hb : b.Neat) (c : Container) (name : Text) (as : Attributes) :
    b.Steps (.opening c name as) := by
  rcases flush_neat hb with ⟨b₁, hflush, hended⟩
  refine ⟨_, openFrame_of_flush hflush c (.ofOpening c name as), ⟨rfl, ?_, ?_⟩, ?_⟩
  · intro f hf
    rcases List.mem_cons.mp hf with rfl | hf
    · exact hended.paragraph
    · exact hended.neat.outside f hf
  · intro f hf
    rcases List.mem_cons.mp hf with rfl | hf
    · rfl
    · exact hended.neat.containers f hf
  · refine .block rfl ?_ rfl rfl
    -- The container comes after the elements of the level that it stands in.
    rw [outline_of_empty rfl, ← hended.outline, ← hended.mark]
    exact List.append_nil _

/-- An item that is more than white space is the last one of the open paragraph. -/
theorem outline_addItem {item : Inline} (hitem : Paragraph.isBlankText item = false) :
    (b.withParagraph (b.level.paragraph.addItem item)).outline =
      b.finished ++ [(.paragraph (b.level.paragraph.items ++ [item]), b.mark)] := by
  have hshown : Paragraph.trimmed (b.level.paragraph.items ++ [item]) =
      b.level.paragraph.items ++ [item] := by
    rw [Paragraph.trimmed_append_singleton, hitem]
    rfl
  simp [outline, finished, openEntry, withParagraph, Paragraph.addItem, hshown]

/-- All that writing an item can do. -/
theorem effect_addItem (hb : b.Neat) {t : Token} {item : Inline} (hink : t.hasInk = true)
    (hwrites : t.Writes item) (hitem : Paragraph.isBlankText item = false) :
    Effect b (b.withParagraph (b.level.paragraph.addItem item)) t := by
  have houtline := outline_addItem (b := b) hitem
  cases hcontent : b.level.paragraph.hasContent with
  | false =>
    -- White space before the first item belongs to the paragraph that begins with it.
    have hblanks : ∀ x ∈ b.level.paragraph.items, Paragraph.isBlankText x = true := by
      have hnone := hb.here
      rw [Paragraph.Exact, hcontent] at hnone
      simpa using hnone.symm
    refine .begins hink hwrites hblanks ?_ ?_ rfl rfl
    · simp [line, hcontent]
    · rw [houtline]
      simp [outline, openEntry, waiting, hcontent]
  | true =>
    -- White space that was to be trimmed stands between two items now.
    rcases Paragraph.exists_eq_trimmed_append b.level.paragraph.items with
      ⟨blanks, hitems, hblanks⟩
    have hbefore : b.outline =
        b.finished ++ [(.paragraph (Paragraph.trimmed b.level.paragraph.items), b.mark)] := by
      simp [outline, openEntry, hcontent]
    refine .goesOn hink hwrites hblanks ?_ hbefore ?_ ?_ rfl
    · simp [line, hcontent]
    · rw [houtline, ← List.append_assoc, ← hitems]
    · simp [waiting, hcontent, withParagraph, Paragraph.addItem]

theorem steps_item (hb : b.Neat) {t : Token} {item : Inline} (hink : t.hasInk = true)
    (hwrites : t.Writes item) (hitem : Paragraph.isBlankText item = false)
    (hstep : b.step t = .ok (b.withParagraph (b.level.paragraph.addItem item))) : b.Steps t :=
  ⟨_, hstep, neat_withParagraph hb (Paragraph.exact_addItem _ hitem),
    effect_addItem hb hink hwrites hitem⟩

theorem steps_text (hb : b.Neat) (value : Text) : b.Steps (.text value) := by
  cases hblank : Text.allBlank value with
  | true =>
    rcases Paragraph.addText_blank b.level.paragraph hblank with ⟨hshown, hafter⟩
    rcases outline_withParagraph hshown with ⟨houtline, hwaiting⟩
    refine ⟨_, rfl, neat_withParagraph hb (hb.here.of_sameShown hshown), ?_⟩
    refine .rests hblank houtline hwaiting ?_
    simp [line, withParagraph, hshown.hasContent, hafter]
  | false =>
    rcases Paragraph.addText_ink b.level.paragraph hblank with ⟨kept, hkept, hink, hadd⟩
    have hwrites : (Token.text value).Writes (.text kept) := by
      rcases hkept with rfl | rfl
      · exact Or.inl rfl
      · exact Or.inr rfl
    have hstep : b.step (.text value) =
        .ok (b.withParagraph (b.level.paragraph.addItem (.text kept))) := by
      rw [← hadd]
      rfl
    exact steps_item hb (by simp [Token.hasInk, hblank]) hwrites hink hstep

theorem steps_newline (hb : b.Neat) : b.Steps .newline := by
  cases hafter : b.level.paragraph.afterNewline with
  | true =>
    -- The second line break in a row ends the paragraph.
    have hshown : Paragraph.SameShown b.level.paragraph
        { b.level.paragraph with afterNewline := false } := ⟨rfl, rfl⟩
    rcases outline_withParagraph hshown with ⟨houtline, hwaiting⟩
    rcases flush_neat (neat_withParagraph hb (hb.here.of_sameShown hshown)) with
      ⟨b₁, hflush, hended⟩
    refine ⟨b₁, ?_, hended.neat, .breaks ?_ ?_ ?_⟩
    · change b.addNewline = .ok b₁
      simp only [addNewline, hafter, if_true]
      exact hflush
    · rw [outline_of_empty hended.paragraph, hended.outline, houtline]
    · rw [waiting_of_empty hended.paragraph, hended.mark, hwaiting]
    · have hline : b.line ≠ some false := by simp [line, hafter]
      rw [line_of_empty hended.paragraph, if_neg hline]
  | false =>
    have hshown := Paragraph.sameShown_breakLine b.level.paragraph
    rcases outline_withParagraph hshown with ⟨houtline, hwaiting⟩
    refine ⟨b.withParagraph b.level.paragraph.breakLine, ?_,
      neat_withParagraph hb (hb.here.of_sameShown hshown), .breaks houtline hwaiting ?_⟩
    · change b.addNewline = _
      simp only [addNewline, hafter, Bool.false_eq_true, if_false]
    · cases hcontent : b.level.paragraph.hasContent with
      | true => simp [line, hafter, hcontent, withParagraph, Paragraph.breakLine]
      | false => simp [line, hcontent, withParagraph, Paragraph.breakLine]

theorem steps_marker (hb : b.Neat) {t : Token} {change : Mark → Mark}
    (ht : t.remark? = some change) (hstep : b.step t = b.addMark change) : b.Steps t := by
  unfold addMark at hstep
  cases hcontent : b.level.paragraph.hasContent with
  | true =>
    -- The paragraph before the marker ends here and takes the marks before this one.
    rcases flush_neat hb with ⟨b₁, hflush, hended⟩
    have hempty : ({ b₁ with mark := change b₁.mark } : Builder).level.paragraph = {} :=
      hended.paragraph
    rw [hcontent, if_pos rfl, hflush] at hstep
    refine ⟨_, hstep, ⟨hended.neat.here, hended.neat.outside, hended.neat.containers⟩,
      .marks ht ?_ ?_ ?_⟩
    · rw [outline_of_empty hempty, ← hended.outline]
      rfl
    · rw [waiting_of_empty hempty, ← hended.mark]
    · exact line_of_empty hempty
  | false =>
    -- White space before the marker stays where it is.
    rw [hcontent, if_neg Bool.false_ne_true] at hstep
    refine ⟨_, hstep, ⟨hb.here, hb.outside, hb.containers⟩, .marks ht ?_ ?_ ?_⟩
    · simp [outline, finished, openEntry, hcontent]
    · simp [waiting, hcontent]
    · simp [line, hcontent]

/-! ## Closing containers -/

/-- A container has been closed: what has been written stays, but no mark waits any more. -/
structure Shut (b b' : Builder) : Prop where
  neat : b'.Neat
  paragraph : b'.level.paragraph = {}
  outline : b'.outline = b.outline
  mark : b'.mark = {}

theorem closeFrame_neat (hb : b.Neat) {f : Frame} {fs : List Frame} (h : b.frames = f :: fs) :
    ∃ b', b.closeFrame = .ok b' ∧ Shut b b' := by
  rcases flush_neat hb with ⟨b₁, hflush, hended⟩
  have hframes : b₁.frames = f :: fs := (frames_of_flush hflush).trans h
  have houter : ∀ g ∈ f :: fs, g.outer.paragraph = {} := hframes ▸ hended.neat.outside
  have hcontainers : ∀ g ∈ f :: fs, g.block.isContainer = true :=
    hframes ▸ hended.neat.containers
  have hempty : f.outer.paragraph = {} := houter f (by simp)
  have hcontainer : f.block.isContainer = true := hcontainers f (by simp)
  rw [closeFrame_of_flush hflush, hframes]
  refine ⟨_, rfl, ⟨?_, ?_, ?_⟩, hempty, ?_, rfl⟩
  · change f.outer.paragraph.Exact
    rw [hempty]
    rfl
  · intro g hg
    exact houter g (by simp [hg])
  · intro g hg
    exact hcontainers g (by simp [hg])
  · -- The container stays where it is, and its children stay behind it.
    rw [outline_of_empty hempty, ← hended.outline]
    simp only [finished, hframes, framesOutline, Element.entries_append,
      Element.entries_container hcontainer, List.append_assoc, List.singleton_append]

theorem exists_frame_of_kinds {k : Container} {ks : List Container} (h : b.kinds = k :: ks) :
    ∃ f fs, b.frames = f :: fs := by
  cases hframes : b.frames with
  | nil => simp [kinds, hframes] at h
  | cons f fs => exact ⟨f, fs, rfl⟩

theorem close_neat (hb : b.Neat) {c : Container} (hmem : c ∈ b.kinds) :
    ∃ b', b.close (some c) = .ok b' ∧ Shut b b' := by
  generalize hks : b.kinds = ks at hmem
  induction ks generalizing b with
  | nil => simp at hmem
  | cons k ks ih =>
    rcases exists_frame_of_kinds hks with ⟨f, fs, hframes⟩
    rcases closeFrame_neat hb hframes with ⟨b₁, hclose, hshut⟩
    by_cases hk : k = c
    · subst hk
      exact ⟨b₁, by rw [close_top hks, hclose], hshut⟩
    · -- The container that is meant is further out: the same again, one level up.
      have hrest : c ∈ ks := (List.mem_cons.mp hmem).resolve_left (Ne.symm hk)
      have hks₁ : b₁.kinds = ks := by rw [kinds_of_closeFrame hclose, hks]; rfl
      rcases ih hshut.neat hks₁ hrest with ⟨b', hclose', hshut'⟩
      refine ⟨b', ?_, hshut'.neat, hshut'.paragraph, ?_, hshut'.mark⟩
      · rw [close_below hks hk hrest, hclose]
        exact hclose'
      · rw [hshut'.outline, hshut.outline]

theorem steps_closing (hb : b.Neat) (c : Option Container) (name : Text) :
    b.Steps (.closing c name) := by
  have hidle : (∀ k, c = some k → k ∉ b.kinds) → b.close c = .ok b →
      b.Steps (.closing c name) := by
    intro hnone hclose
    exact ⟨b, hclose, hb, .rests hnone rfl rfl rfl⟩
  cases c with
  | none => exact hidle (by simp) (close_none b)
  | some c =>
    by_cases hmem : c ∈ b.kinds
    · rcases close_neat hb hmem with ⟨b', hclose, hshut⟩
      refine ⟨b', hclose, hshut.neat, .closes hmem hshut.outline ?_ ?_⟩
      · rw [waiting_of_empty hshut.paragraph, hshut.mark]
      · exact line_of_empty hshut.paragraph
    · refine hidle ?_ (close_stray hmem)
      intro k hk
      exact Option.some.inj hk ▸ hmem

/-- A neat builder takes every sound token, stays neat, and does one of the things it can do. -/
theorem step_effect (hb : b.Neat) {t : Token} (ht : t.Sound) : b.Steps t := by
  cases t with
  | text value => exact steps_text hb value
  | newline => exact steps_newline hb
  | reference value => exact steps_item hb rfl rfl ht rfl
  | bold value => exact steps_item hb rfl rfl rfl rfl
  | italic value => exact steps_item hb rfl rfl rfl rfl
  | idMarker id => exact steps_marker hb rfl rfl
  | styleMarker classes => exact steps_marker hb rfl rfl
  | heading level value => exact steps_block hb rfl rfl
  | image as => exact steps_block hb rfl rfl
  | component value as => exact steps_block hb rfl rfl
  | leaf name as => exact steps_block hb rfl rfl
  | opening c name as => exact steps_opening hb c name as
  | closing c name => exact steps_closing hb c name
  | eof => exact ⟨b, rfl, hb, .rests trivial rfl rfl rfl⟩

/-- What every effect preserves is preserved by a pass over sound tokens, which does not fail. -/
theorem run_preserves {P : Builder → Prop}
    (hP : ∀ {b b' : Builder} {t : Token}, Effect b b' t → P b → P b') (hneat : b.Neat) (hb : P b)
    {ts : List Token} (hsound : ∀ t ∈ ts, t.Sound) :
    ∃ b', b.run ts = .ok b' ∧ b'.Neat ∧ P b' := by
  induction ts generalizing b with
  | nil => exact ⟨b, rfl, hneat, hb⟩
  | cons t ts ih =>
    rcases step_effect hneat (hsound t (by simp)) with ⟨b₁, hstep, hneat₁, heffect⟩
    have hlater : ∀ u ∈ ts, u.Sound := fun u hu => hsound u (by simp [hu])
    rcases ih hneat₁ (hP heffect hb) hlater with ⟨b', hrun, hb'⟩
    refine ⟨b', ?_, hb'⟩
    rw [run, hstep]
    exact hrun

/-- The elements at the end are those of the outline. -/
theorem finish_neat (hb : b.Neat) :
    ∃ elements, b.finish = .ok elements ∧ Element.entries elements = b.outline := by
  generalize hks : b.kinds = ks
  induction ks generalizing b with
  | nil =>
    rcases flush_neat hb with ⟨b₁, hflush, hended⟩
    have hframes : b₁.frames = [] := by
      rw [frames_of_flush hflush]
      exact List.map_eq_nil_iff.mp hks
    refine ⟨b₁.level.elements, by rw [finish_nil hks, hflush]; rfl, ?_⟩
    rw [← hended.outline, finished, hframes]
    rfl
  | cons k ks ih =>
    rcases exists_frame_of_kinds hks with ⟨f, fs, hframes⟩
    rcases closeFrame_neat hb hframes with ⟨b₁, hclose, hshut⟩
    have hks₁ : b₁.kinds = ks := by rw [kinds_of_closeFrame hclose, hks]; rfl
    rcases ih hshut.neat hks₁ with ⟨elements, hfinish, hentries⟩
    refine ⟨elements, ?_, by rw [hentries, hshut.outline]⟩
    rw [finish_cons hks, hclose]
    exact hfinish

end Builder

end Notemark.Body
