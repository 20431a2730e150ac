import Notemark.Proofs.TokenList

/-!
# Nesting

Strict reading matches tags by their names, the tree builder matches them by the kind of their
containers, and each has a stack of its own. This module shows that the two stacks run in lockstep
over every body that strict reading accepts:

* `Token.bracket?`: what a token opens or closes,
* `Builder.Tidy`: passes that never have to recover from a wrong closing tag,
* `Element.word`: the brackets of an element, read off the tree,
* `Builder.trail`: the brackets that have been read, kept in the frames of a builder,
* `tidy_of_unwinds`: a pass over nested tokens is tidy and keeps its trail.
-/

namespace Notemark.Body

/-- A container that is opened, with the block it makes, or one that is closed. -/
abbrev TagBracket := Bracket (Container × Block) (Option Container)

def Token.bracket? : Token → Option TagBracket
  | .opening c name as => some (.opened (c, Block.ofOpening c name as))
  | .closing c _ => some (.closed c)
  | _ => none

/-- A closing tag fits the containers of its kind; one without a kind fits none. -/
def SameKind (opened : Container × Block) (closes : Option Container) : Prop :=
  closes = some opened.1

/-! ## Brackets of elements -/

def Head.container? : Head → Option Container
  | box name _ => Container.ofName? name
  | form .. => some .form
  | loop .. => some .each
  | cond _ => some .cond

def Block.container? : Block → Option Container
  | container head _ => head.container?
  | _ => none

namespace Element

mutual

/-- The containers of an element, each as an opening and a closing around its children. -/
def word : Element → List TagBracket
  | mk block _ children =>
    match block.container? with
    | some c => .opened (c, block) :: (words children ++ [.closed (some c)])
    | none => words children

def words : List Element → List TagBracket
  | [] => []
  | e :: es => e.word ++ words es

end

theorem words_append (es es' : List Element) : words (es ++ es') = words es ++ words es' := by
  induction es with
  | nil => rfl
  | cons e es ih => rw [List.cons_append, words, words, ih, List.append_assoc]

theorem words_singleton (e : Element) : words [e] = e.word := by
  rw [words, words, List.append_nil]

/-- A block that is no container and has no children has no brackets. -/
theorem words_plain {block : Block} (h : block.container? = none) (mark : Mark) :
    words [.mk block mark []] = [] := by
  rw [words_singleton, word, h]
  rfl

end Element

/-- The block of a tag remembers the container that its name stands for. -/
theorem container?_ofOpening (c : Container) (as : Attributes) :
    (Block.ofOpening c c.name as).container? = some c := by
  cases c <;> rfl

theorem container?_ofLeaf (name : Text) (as : Attributes) :
    (Block.ofLeaf name as).container? = none := by
  unfold Block.ofLeaf
  split <;> rfl

/-! ## Tidy passes -/

namespace Builder

variable {b b' : Builder}

/-- A pass in which every closing tag closes one container: it is never passed over, and never
takes other containers with it. -/
inductive Tidy : Builder → List Token → Builder → Prop where
  | done (b : Builder) : Tidy b [] b
  | step {b next last : Builder} {t : Token} {ts : List Token} :
      b.step t = .ok next → (∀ c name, t = .closing c name → b.closingDepth? c = some 1) →
        Tidy next ts last → Tidy b (t :: ts) last

theorem Tidy.run_eq {ts : List Token} (h : Tidy b ts b') : b.run ts = .ok b' := by
  induction h with
  | done b => rfl
  | step hstep _ _ ih =>
    rw [run, hstep]
    exact ih

/-- The open containers, innermost first. -/
def opened (b : Builder) : List (Container × Block) := b.frames.map fun f => (f.closes, f.block)

/-- The brackets read before the innermost open container, that container included. -/
def outerTrail : List Frame → List TagBracket
  | [] => []
  | f :: fs =>
    outerTrail fs ++ (Element.words f.outer.elements ++ [.opened (f.closes, f.block)])

/-- All brackets read so far. -/
def trail (b : Builder) : List TagBracket := outerTrail b.frames ++ Element.words b.level.elements

/-- Every frame waits for the kind of closing tag that its block calls for. -/
def Typed (b : Builder) : Prop := ∀ f ∈ b.frames, f.block.container? = some f.closes

/-! ## One step -/

/-- The frame of the innermost open container. -/
theorem frames_of_opened {c : Container} {block : Block} {rest : List (Container × Block)}
    (h : b.opened = (c, block) :: rest) :
    ∃ f fs, b.frames = f :: fs ∧ f.closes = c ∧ (fs.map fun f => (f.closes, f.block)) = rest := by
  rcases List.map_eq_cons_iff.mp h with ⟨f, fs, hframes, hfirst, hrest⟩
  exact ⟨f, fs, hframes, congrArg Prod.fst hfirst, hrest⟩

theorem words_add {block : Block} (h : block.container? = none) :
    Element.words (b.add block).level.elements = Element.words b.level.elements := by
  unfold add
  rw [Element.words_append, Element.words_plain h, List.append_nil]

theorem Flushed.words_eq (h : Flushed b b') :
    Element.words b'.level.elements = Element.words b.level.elements := by
  cases h with
  | nothing _ => rfl
  | paragraph _ => exact words_add (b := b.withParagraph {}) rfl

/-- The open containers and the brackets of the level they enclose stay as they are. -/
def Same (b b' : Builder) : Prop :=
  b'.frames = b.frames ∧ Element.words b'.level.elements = Element.words b.level.elements

theorem Flushed.same (h : Flushed b b') : Same b b' := ⟨h.frames, h.words_eq⟩

theorem same_addBlock (hb : b.Honest) {block : Block} (hblock : block.container? = none)
    (h : b.addBlock block = .ok b') : Same b b' := by
  rcases flush_honest hb with ⟨b₁, hflush, hflushed⟩
  rw [addBlock_of_flush hflush] at h
  rw [← Except.ok.inj h]
  exact ⟨hflushed.frames, (words_add hblock).trans hflushed.words_eq⟩

theorem same_addMark (hb : b.Honest) (change : Mark → Mark) (h : b.addMark change = .ok b') :
    Same b b' := by
  unfold addMark at h
  by_cases hcontent : b.level.paragraph.hasContent = true
  · rcases flush_honest hb with ⟨b₁, hflush, hflushed⟩
    rw [if_pos hcontent, hflush] at h
    rw [← Except.ok.inj h]
    exact hflushed.same
  · rw [if_neg hcontent] at h
    rw [← Except.ok.inj h]
    exact ⟨rfl, rfl⟩

theorem same_addNewline (hb : b.Honest) (h : b.addNewline = .ok b') : Same b b' := by
  unfold addNewline at h
  by_cases hafter : b.level.paragraph.afterNewline = true
  · have hreset : (b.withParagraph { b.level.paragraph with afterNewline := false }).Honest :=
      honest_withParagraph hb hb.here
    rcases flush_honest hreset with ⟨b₁, hflush, hflushed⟩
    simp only [hafter, if_true, hflush] at h
    rw [← Except.ok.inj h]
    exact hflushed.same
  · simp only [hafter, Bool.false_eq_true, if_false] at h
    rw [← Except.ok.inj h]
    exact ⟨rfl, rfl⟩

/-- A token without a bracket leaves the containers alone. -/
theorem same_of_step (hb : b.Honest) {t : Token} (ht : t.bracket? = none)
    (h : b.step t = .ok b') : Same b b' := by
  cases t with
  | opening c name as => simp [Token.bracket?] at ht
  | closing c name => simp [Token.bracket?] at ht
  | newline => exact same_addNewline hb h
  | idMarker id => exact same_addMark hb (fun mark => { mark with id := id }) h
  | styleMarker classes => exact same_addMark hb (fun mark => { mark with style := some classes }) h
  | heading level value => exact same_addBlock hb rfl h
  | image as => exact same_addBlock hb rfl h
  | component value as => exact same_addBlock hb rfl h
  | leaf name as => exact same_addBlock hb (container?_ofLeaf name as) h
  | text value => exact Except.ok.inj h ▸ ⟨rfl, rfl⟩
  | reference value => exact Except.ok.inj h ▸ ⟨rfl, rfl⟩
  | bold value => exact Except.ok.inj h ▸ ⟨rfl, rfl⟩
  | italic value => exact Except.ok.inj h ▸ ⟨rfl, rfl⟩
  | eof => exact Except.ok.inj h ▸ ⟨rfl, rfl⟩

/-- What a step does to the containers: the trail grows by a bracket, and these are open. -/
structure Moves (b b' : Builder) (word : List TagBracket) (stack : List (Container × Block)) :
    Prop where
  trail : b'.trail = b.trail ++ word
  opened : b'.opened = stack
  typed : b'.Typed

theorem Same.moves (h : Same b b') (hb : b.Typed) : Moves b b' [] b.opened where
  trail := by
    unfold Builder.trail
    rw [h.1, h.2, List.append_nil]
  opened := by
    unfold Builder.opened
    rw [h.1]
  typed := by
    unfold Typed
    rw [h.1]
    exact hb

theorem moves_openFrame (hb : b.Honest) (htyped : b.Typed) {c : Container} {block : Block}
    (hblock : block.container? = some c) (h : b.openFrame c block = .ok b') :
    Moves b b' [.opened (c, block)] ((c, block) :: b.opened) := by
  rcases flush_honest hb with ⟨b₁, hflush, hflushed⟩
  have hsame := hflushed.same.moves htyped
  rw [openFrame_of_flush hflush] at h
  rw [← Except.ok.inj h]
  refine ⟨?_, ?_, ?_⟩
  · have htrail : b₁.trail = b.trail := by simpa using hsame.trail
    rw [← htrail]
    simp [trail, outerTrail, Element.words]
  · rw [← hsame.opened]
    rfl
  · intro f hf
    rcases List.mem_cons.mp hf with rfl | hf
    · exact hblock
    · exact hsame.typed f hf

/-- A closing tag of the innermost kind closes that container only. -/
theorem moves_close (hb : b.Honest) (htyped : b.Typed) {c : Container} {block : Block}
    {rest : List (Container × Block)} (hopened : b.opened = (c, block) :: rest)
    (h : b.close (some c) = .ok b') : Moves b b' [.closed (some c)] rest := by
  rcases flush_honest hb with ⟨b₁, hflush, hflushed⟩
  rcases frames_of_opened hopened with ⟨f, fs, hframes, hcloses, hrest⟩
  have htop : f.block.container? = some f.closes := htyped f (by simp [hframes])
  rw [← hcloses, close_of_flush hflush hframes] at h
  rw [← Except.ok.inj h]
  -- The closed frame becomes the last element outside, and its bracket is closed behind it.
  refine ⟨?_, hrest, ?_⟩
  · have hwords := hflushed.words_eq
    rw [← hcloses]
    simp [trail, outerTrail, hframes, Element.words_append, Element.words_singleton,
      Element.word, htop, hwords]
  · intro g hg
    exact htyped g (by simp [hframes, hg])

/-! ## Whole passes -/

/-- A pass over tokens whose brackets close all that is open is tidy, and in the end every bracket
is in the trail. -/
theorem tidy_of_unwinds {ts : List Token} (hb : b.Honest) (htyped : b.Typed)
    (hts : ∀ t ∈ ts, t.Sound) (h : Unwinds SameKind b.opened (ts.filterMap Token.bracket?)) :
    ∃ b', Tidy b ts b' ∧ b'.Honest ∧ b'.frames = [] ∧
      b'.trail = b.trail ++ ts.filterMap Token.bracket? := by
  induction ts generalizing b with
  | nil =>
    have hframes : b.frames = [] := List.map_eq_nil_iff.mp h
    exact ⟨b, .done b, hb, hframes, by simp⟩
  | cons t ts ih =>
    have ht : t.Sound := hts t (by simp)
    have hrest : ∀ u ∈ ts, u.Sound := fun u hu => hts u (by simp [hu])
    rcases step_honest hb ht with ⟨b₁, hstep, hb₁⟩
    -- Whatever the bracket of the token is, the rest of the pass goes on from `b₁`.
    have hgo : ∀ word stack, (t :: ts).filterMap Token.bracket? =
        word ++ ts.filterMap Token.bracket? → Moves b b₁ word stack →
        Unwinds SameKind stack (ts.filterMap Token.bracket?) →
        (∀ c name, t = .closing c name → b.closingDepth? c = some 1) →
        ∃ b', Tidy b (t :: ts) b' ∧ b'.Honest ∧ b'.frames = [] ∧
          b'.trail = b.trail ++ (t :: ts).filterMap Token.bracket? := by
      intro word stack hword hmoves hunwinds hclosing
      rcases ih hb₁ hmoves.typed hrest (hmoves.opened ▸ hunwinds) with
        ⟨b₂, htidy, hb₂, hframes, htrail⟩
      refine ⟨b₂, .step hstep hclosing htidy, hb₂, hframes, ?_⟩
      rw [htrail, hmoves.trail, hword, List.append_assoc]
    cases hbracket : t.bracket? with
    | none =>
      rw [List.filterMap_cons_none hbracket] at h hgo ⊢
      refine hgo [] b.opened rfl ((same_of_step hb hbracket hstep).moves htyped) h ?_
      intro c name hclosing
      simp [hclosing, Token.bracket?] at hbracket
    | some bracket =>
      rw [List.filterMap_cons_some hbracket] at h hgo ⊢
      cases t with
      | opening c name as =>
        rcases Option.some.inj hbracket with rfl
        have hname : name = c.name := ht
        subst hname
        have hmoves := moves_openFrame hb htyped (container?_ofOpening c as) hstep
        refine hgo _ _ rfl hmoves h ?_
        intro c' name' hclosing
        simp at hclosing
      -- The word closes the container on top of the stack, which is the innermost frame.
      | closing closes name =>
        rcases Option.some.inj hbracket with rfl
        rcases h with ⟨⟨c, block⟩, rest, hopened, hkind, hunwinds⟩
        obtain rfl : closes = some c := hkind
        have hmoves := moves_close hb htyped hopened hstep
        refine hgo _ _ rfl hmoves hunwinds ?_
        intro c' name' hclosing
        rcases Token.closing.inj hclosing with ⟨rfl, rfl⟩
        rcases frames_of_opened hopened with ⟨f, fs, hframes, hcloses, -⟩
        rw [← hcloses]
        exact closingDepth?_top hframes
      | _ => simp [Token.bracket?] at hbracket

/-- With nothing open the elements are those of the level. -/
theorem finish_of_frames_nil (hb : b.Honest) (hframes : b.frames = []) :
    ∃ elements, b.finish = .ok elements ∧ Element.words elements = b.trail := by
  rcases flush_honest hb with ⟨b₁, hflush, hflushed⟩
  refine ⟨b₁.level.elements, ?_, ?_⟩
  · unfold finish
    simp [hframes, closeFrames, hflush, bind, Except.bind, pure, Except.pure]
  · rw [hflushed.words_eq]
    simp [trail, hframes, outerTrail]

end Builder

/-! ## Names and kinds -/

/-- The stack of names and the stack of kinds hold the same containers. -/
structure Lockstep (stack : TagStack Container) (opens : List (Container × Block)) : Prop where
  kinds : stack.map (·.kind) = opens.map (·.1)
  names : ∀ tag ∈ stack, tag.name = tag.kind.name

theorem Lockstep.push {stack : TagStack Container} {opens : List (Container × Block)}
    (h : Lockstep stack opens) {tag : OpenTag Container} {block : Block}
    (hname : tag.name = tag.kind.name) : Lockstep (tag :: stack) ((tag.kind, block) :: opens) where
  kinds := by
    rw [List.map_cons, List.map_cons, h.kinds]
  names := by
    intro other hother
    rcases List.mem_cons.mp hother with rfl | hother
    · exact hname
    · exact h.names other hother

/-- Tags that are closed by their names are closed by their kinds. -/
theorem unwinds_kinds {map : SourceMap} {es : List Emitted} (hes : ∀ e ∈ es, e.token.Sound)
    {stack : TagStack Container} {opens : List (Container × Block)} (hlock : Lockstep stack opens)
    (h : Unwinds SameName stack (tagWord map es)) :
    Unwinds SameKind opens ((es.map (·.token)).filterMap Token.bracket?) := by
  induction es generalizing stack opens with
  | nil =>
    have hstack : stack = [] := h
    have hkinds := hlock.kinds
    rw [hstack, List.map_nil] at hkinds
    exact List.map_eq_nil_iff.mp hkinds.symm
  | cons e es ih =>
    have hsound : e.token.Sound := hes e (by simp)
    have hrest : ∀ e' ∈ es, e'.token.Sound := fun e' he' => hes e' (by simp [he'])
    rcases e with ⟨offset, token⟩
    cases token with
    | opening c name as =>
      have hnext : Lockstep (⟨c, name, map.position offset⟩ :: stack)
          ((c, Block.ofOpening c name as) :: opens) := hlock.push hsound
      exact ih hrest hnext h
    | closing closes name =>
      rcases h with ⟨tag, rest, rfl, hname, hunwinds⟩
      cases opens with
      | nil => simpa using hlock.kinds
      | cons first opens =>
        rcases List.cons.inj hlock.kinds with ⟨hkind, hkinds⟩
        -- Both stacks have the same container on top, and the closing tag has its name.
        have hcloses : closes = some first.1 := by
          have hown : tag.name = tag.kind.name := hlock.names tag (by simp)
          have hsame : tag.name = name := hname
          calc closes = Container.ofName? name := hsound
            _ = Container.ofName? tag.kind.name := by rw [← hsame, hown]
            _ = some tag.kind := Container.ofName?_name tag.kind
            _ = some first.1 := congrArg some hkind
        have hnext : Lockstep rest opens := ⟨hkinds, fun t ht => hlock.names t (by simp [ht])⟩
        exact ⟨first, opens, rfl, hcloses, ih hrest hnext hunwinds⟩
    | _ => exact ih hrest hlock h

/-- The tags of an accepted body are balanced. -/
theorem balanced_of_tokenize {body : Text} {ts : List Token}
    (h : tokenize .strict body = .ok ts) : Balanced SameName (bodyTags body) := by
  rw [tokenize_strict_eq] at h
  cases hreview : reviewFrom (SourceMap.ofText (Text.joinLines body)) []
      (readings (Text.joinLines body)) with
  | error e => simp [review, hreview, bind, Except.bind, Except.map] at h
  | ok stack =>
    have hleaves := leaves_of_reviewFrom Leaves.nil hreview
    cases stack with
    | nil =>
      unfold bodyTags
      rw [tagWord_emitted]
      exact Leaves.nil_iff.mp hleaves
    | cons top rest =>
      -- Something is left open, and the review ends with a fault.
      cases hlast : (top :: rest).getLast? with
      | none => simp at hlast
      | some oldest =>
        simp [review, hreview, TagStack.finish, hlast, bind, Except.bind, Except.map] at h

/-- Plain text and the end mark have no brackets. -/
theorem filterMap_bracket? {body : Text} {ts : List Token} (h : TokenList body ts) :
    ts.filterMap Token.bracket? = (untilEof ts).filterMap Token.bracket? ∧
      (untilEof ts).filterMap Token.bracket? =
        ((emitted (readings (Text.joinLines body))).map (·.token)).filterMap Token.bracket? := by
  refine ⟨?_, ?_⟩
  · have hsplit := congrArg (List.filterMap Token.bracket?) h.append_eof
    have hend : [Token.eof].filterMap Token.bracket? = [] := rfl
    rwa [List.filterMap_append, hend, List.append_nil] at hsplit
  · rw [token_emitted, ← h.readings, List.filterMap_filter]
    congr 1
    funext t
    cases t <;> rfl

/-! ## Accepted bodies -/

/-- The containers of an accepted body are nested: every closing tag closes the innermost open
container of its kind, and nothing is left open. Building the tree takes no recovery: each closing
tag closes one frame, none is left at the end, and the containers of the tree are the matched pairs
of tags, in order. -/
theorem accepted_tokens_nest {body : Text} {ts : List Token}
    (h : tokenize .strict body = .ok ts) :
    Balanced SameKind (ts.filterMap Token.bracket?) ∧
      (∀ name, .closing none name ∉ ts) ∧
      ∃ last elements, Builder.Tidy {} (untilEof ts) last ∧ last.frames = [] ∧
        last.finish = .ok elements ∧ parse ts = .ok elements ∧
        Element.words elements = ts.filterMap Token.bracket? := by
  have hlist := tokenList_of_tokenize h
  rcases filterMap_bracket? hlist with ⟨huntil, hemitted⟩
  -- Names decide about acceptance; the builder needs the same fact about kinds.
  have hunwinds : Unwinds SameKind [] ((untilEof ts).filterMap Token.bracket?) := by
    rw [hemitted]
    refine unwinds_kinds ?_ ⟨rfl, by simp⟩ (Unwinds.of_balanced (balanced_of_tokenize h))
    intro e he
    have htoken : e.token ∈ (untilEof ts).filter (!·.isText) := by
      rw [hlist.readings, ← token_emitted]
      exact List.mem_map_of_mem he
    exact hlist.sound e.token (List.mem_filter.mp htoken).1
  rcases Builder.tidy_of_unwinds Builder.honest_start (by simp [Builder.Typed]) hlist.sound
    hunwinds with ⟨last, htidy, hhonest, hframes, htrail⟩
  rcases Builder.finish_of_frames_nil hhonest hframes with ⟨elements, hfinish, hwords⟩
  have hbalanced : Balanced SameKind (ts.filterMap Token.bracket?) := by
    rw [huntil]
    exact Unwinds.iff_balanced.mp hunwinds
  refine ⟨hbalanced, ?_, last, elements, htidy, hframes, hfinish, ?_, ?_⟩
  · intro name hmem
    have hclosed : (.closed none : TagBracket) ∈ ts.filterMap Token.bracket? :=
      List.mem_filterMap.mpr ⟨_, hmem, rfl⟩
    -- A closing tag without a kind would fit no opening tag.
    rcases hbalanced.fits_of_closed hclosed with ⟨first, hfits⟩
    simp [SameKind] at hfits
  · unfold parse
    rw [htidy.run_eq]
    exact hfinish
  · rw [hwords, htrail, huntil]
    rfl

/-- A condition inside a box, with a leaf that counts for nothing. -/
theorem accepted_tokens_nest_condition :
    tokenize .strict ['[', 'd', 'i', 'v', ']', '[', 'i', 'f', ' ', 'x', ']', '[', 'h', 'r', ']',
        '[', '/', 'i', 'f', ']', '[', '/', 'd', 'i', 'v', ']'] =
      .ok [.opening .div ['d', 'i', 'v'] [], .opening .cond ['i', 'f'] [(conditionKey, ['x'])],
        .leaf ['h', 'r'] [], .closing (some .cond) ['i', 'f'],
        .closing (some .div) ['d', 'i', 'v'], .eof] ∧
    Balanced SameKind
      [.opened (.div, .container (.box ['d', 'i', 'v'] []) none),
        .opened (.cond, .container (.cond ['x']) none), .closed (some .cond),
        .closed (some .div)] :=
  have haccepted : tokenize .strict ['[', 'd', 'i', 'v', ']', '[', 'i', 'f', ' ', 'x', ']', '[',
        'h', 'r', ']', '[', '/', 'i', 'f', ']', '[', '/', 'd', 'i', 'v', ']'] =
      .ok [.opening .div ['d', 'i', 'v'] [], .opening .cond ['i', 'f'] [(conditionKey, ['x'])],
        .leaf ['h', 'r'] [], .closing (some .cond) ['i', 'f'],
        .closing (some .div) ['d', 'i', 'v'], .eof] := rfl
  ⟨haccepted, (accepted_tokens_nest haccepted).1⟩

end Notemark.Body
