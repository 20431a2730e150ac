import Notemark.Body.Tree

/-!
# Laws of the tree builder

* `Paragraph.Honest`: a paragraph that counts as having content has some,
* `Token.Sound`: what the tokens of a text satisfy,
* `Builder.Flushed`: all that ending a paragraph can do,
* `Builder.step_honest`: an honest builder takes every sound token, and stays honest,
* `Builder.run_append`: a pass over two token lists, one behind the other.
-/

namespace Notemark.Body

/-! ## Paragraphs -/

namespace Paragraph

/-- Where content is claimed, some item is more than white space. -/
def Honest (p : Paragraph) : Prop :=
  p.hasContent = true → ∃ item ∈ p.items, isBlankText item = false

theorem honest_empty : Honest {} := by
  intro h
  simp at h

theorem honest_addText {p : Paragraph} (hp : p.Honest) (t : Text) : (p.addText t).Honest := by
  unfold addText
  generalize (if p.afterNewline then Text.stripStart t else t) = kept
  by_cases hskip : (p.afterNewline && kept.isEmpty) = true
  · rw [if_pos hskip]
    exact hp
  · rw [if_neg hskip]
    intro hcontent
    -- Content comes from an earlier item or from the new text.
    rcases (Bool.or_eq_true _ _).mp hcontent with hold | hnew
    · rcases hp hold with ⟨item, hmem, hitem⟩
      exact ⟨item, List.mem_append_left _ hmem, hitem⟩
    · refine ⟨.text kept, List.mem_append_right _ (List.mem_singleton_self _), ?_⟩
      simpa [isBlankText] using hnew

theorem honest_addItem (p : Paragraph) {item : Inline} (hitem : isBlankText item = false) :
    (p.addItem item).Honest := by
  intro _
  exact ⟨item, by simp [addItem], hitem⟩

theorem honest_breakLine {p : Paragraph} (hp : p.Honest) : p.breakLine.Honest := by
  intro hcontent
  rcases hp hcontent with ⟨item, hmem, hitem⟩
  refine ⟨item, ?_, hitem⟩
  unfold breakLine
  dsimp only
  split
  · exact hmem
  · split
    · exact hmem
    · exact List.mem_append_left _ hmem

/-- An item that is more than white space survives the trimming. -/
theorem trimmed_ne_nil {items : List Inline} {item : Inline} (hmem : item ∈ items)
    (hitem : isBlankText item = false) : trimmed items ≠ [] := by
  intro hnil
  -- If everything were trimmed, every item would be blank text.
  have hdrop : items.reverse.dropWhile isBlankText = [] := List.reverse_eq_nil_iff.mp hnil
  have hall : items.reverse.takeWhile isBlankText = items.reverse := by
    simpa [hdrop] using List.takeWhile_append_dropWhile (p := isBlankText) (l := items.reverse)
  have hblank : items.reverse.all isBlankText = true := by
    rw [← hall]
    exact List.all_takeWhile
  have hthis := List.all_eq_true.mp hblank item (List.mem_reverse.mpr hmem)
  rw [hitem] at hthis
  exact Bool.false_ne_true hthis

/-- An honest paragraph has its items, or there is nothing to show. -/
theorem flush_of_honest {p : Paragraph} (hp : p.Honest) :
    p.flush = .ok (if p.hasContent then some (trimmed p.items) else none) := by
  unfold flush
  by_cases hcontent : p.hasContent = true
  · rcases hp hcontent with ⟨item, hmem, hitem⟩
    have hne : (trimmed p.items).isEmpty = false := by
      simpa using trimmed_ne_nil hmem hitem
    simp [hcontent, hne]
  · simp [hcontent]

end Paragraph

/-! ## Tokens of texts -/

/-- A reference is more than white space, a container goes by its own name, and a closing tag
closes what its name stands for. -/
def Token.Sound : Token → Prop
  | .reference value => Text.allBlank value = false
  | .opening c name _ => name = c.name
  | .closing c name => c = Container.ofName? name
  | _ => True

namespace Builder

variable {b b' : Builder}

/-! ## Ending a paragraph -/

/-- All that ending a paragraph can do. -/
inductive Flushed (b : Builder) : Builder → Prop where
  | nothing : b.level.paragraph.hasContent = false → Flushed b (b.withParagraph {})
  | paragraph : b.level.paragraph.hasContent = true →
      Flushed b ((b.withParagraph {}).add (.paragraph (Paragraph.trimmed b.level.paragraph.items)))

/-- Every open paragraph is honest, those outside of the open containers included. -/
structure Honest (b : Builder) : Prop where
  here : b.level.paragraph.Honest
  outside : ∀ f ∈ b.frames, f.outer.paragraph.Honest

theorem honest_start : Honest {} where
  here := Paragraph.honest_empty
  outside := by
    intro f hf
    simp at hf

theorem flush_honest (hb : b.Honest) : ∃ b', b.flush = .ok b' ∧ Flushed b b' := by
  have hflush := Paragraph.flush_of_honest hb.here
  unfold flush
  rw [hflush]
  by_cases hcontent : b.level.paragraph.hasContent = true
  · rw [if_pos hcontent]
    exact ⟨_, rfl, .paragraph hcontent⟩
  · rw [if_neg hcontent]
    exact ⟨_, rfl, .nothing (by simpa using hcontent)⟩

theorem Flushed.frames (h : Flushed b b') : b'.frames = b.frames := by
  cases h <;> rfl

theorem Flushed.paragraph_eq (h : Flushed b b') : b'.level.paragraph = {} := by
  cases h <;> rfl

theorem Flushed.honest (hb : b.Honest) (h : Flushed b b') : b'.Honest where
  here := by
    rw [h.paragraph_eq]
    exact Paragraph.honest_empty
  outside := by
    rw [h.frames]
    exact hb.outside

/-! ## What follows the end of a paragraph -/

section AfterFlush

variable {b₁ : Builder}

theorem addBlock_of_flush (h : b.flush = .ok b₁) (block : Block) :
    b.addBlock block = .ok (b₁.add block) := by
  unfold addBlock
  rw [h]
  rfl

theorem openFrame_of_flush (h : b.flush = .ok b₁) (c : Container) (block : Block) :
    b.openFrame c block = .ok ⟨{}, {}, ⟨block, b₁.mark, c, b₁.level⟩ :: b₁.frames⟩ := by
  unfold openFrame
  rw [h]
  rfl

theorem closeFrame_of_flush (h : b.flush = .ok b₁) :
    b.closeFrame =
      .ok (match b₁.frames with
        | [] => b₁
        | f :: fs =>
          { mark := {}
            level := { f.outer with
              elements := f.outer.elements ++ [.mk f.block f.mark b₁.level.elements] }
            frames := fs }) := by
  unfold closeFrame
  rw [h]
  simp only [bind, Except.bind]
  cases b₁.frames <;> rfl

/-- Ending a paragraph leaves the open containers alone. -/
theorem frames_of_flush (h : b.flush = .ok b₁) : b₁.frames = b.frames := by
  unfold flush at h
  cases hfound : b.level.paragraph.flush with
  | error e => simp [hfound, bind, Except.bind] at h
  | ok found =>
    rw [hfound] at h
    cases found with
    | none => exact Except.ok.inj h ▸ rfl
    | some items => exact Except.ok.inj h ▸ rfl

theorem closingDepth?_top {f : Frame} {fs : List Frame} (h : b.frames = f :: fs) :
    b.closingDepth? (some f.closes) = some 1 := by
  simp [closingDepth?, h, List.findIdx?_cons]

/-- A closing tag of the innermost kind closes that container and no other. -/
theorem close_of_flush (h : b.flush = .ok b₁) {f : Frame} {fs : List Frame}
    (hframes : b.frames = f :: fs) :
    b.close (some f.closes) =
      .ok { mark := {}
            level := { f.outer with
              elements := f.outer.elements ++ [.mk f.block f.mark b₁.level.elements] }
            frames := fs } := by
  have hframes₁ : b₁.frames = f :: fs := (frames_of_flush h).trans hframes
  unfold close
  rw [closingDepth?_top hframes]
  simp only [closeFrames, closeFrame_of_flush h, hframes₁]
  rfl

end AfterFlush

/-! ## Honest builders -/

theorem honest_withParagraph (hb : b.Honest) {p : Paragraph} (hp : p.Honest) :
    (b.withParagraph p).Honest where
  here := hp
  outside := hb.outside

theorem addBlock_honest (hb : b.Honest) (block : Block) :
    ∃ b', b.addBlock block = .ok b' ∧ b'.Honest := by
  rcases flush_honest hb with ⟨b₁, hflush, hflushed⟩
  have hhonest := hflushed.honest hb
  exact ⟨_, addBlock_of_flush hflush block, hhonest.here, hhonest.outside⟩

theorem openFrame_honest (hb : b.Honest) (c : Container) (block : Block) :
    ∃ b', b.openFrame c block = .ok b' ∧ b'.Honest := by
  rcases flush_honest hb with ⟨b₁, hflush, hflushed⟩
  have hhonest := hflushed.honest hb
  refine ⟨_, openFrame_of_flush hflush c block, Paragraph.honest_empty, ?_⟩
  intro f hf
  rcases List.mem_cons.mp hf with rfl | hf
  · exact hhonest.here
  · exact hhonest.outside f hf

theorem closeFrame_honest (hb : b.Honest) : ∃ b', b.closeFrame = .ok b' ∧ b'.Honest := by
  rcases flush_honest hb with ⟨b₁, hflush, hflushed⟩
  have hhonest := hflushed.honest hb
  rw [closeFrame_of_flush hflush]
  cases hframes : b₁.frames with
  | nil => exact ⟨_, rfl, hhonest⟩
  | cons f fs =>
    have houter : ∀ g ∈ f :: fs, g.outer.paragraph.Honest := hframes ▸ hhonest.outside
    exact ⟨_, rfl, houter f (by simp), fun g hg => houter g (by simp [hg])⟩

theorem closeFrames_honest (n : Nat) (hb : b.Honest) :
    ∃ b', closeFrames n b = .ok b' ∧ b'.Honest := by
  induction n generalizing b with
  | zero => exact ⟨b, rfl, hb⟩
  | succ n ih =>
    rcases closeFrame_honest hb with ⟨b₁, hclose, hb₁⟩
    rcases ih hb₁ with ⟨b₂, hrest, hb₂⟩
    refine ⟨b₂, ?_, hb₂⟩
    rw [closeFrames, hclose]
    exact hrest

theorem addMark_honest (hb : b.Honest) (change : Mark → Mark) :
    ∃ b', b.addMark change = .ok b' ∧ b'.Honest := by
  unfold addMark
  by_cases hcontent : b.level.paragraph.hasContent = true
  · rcases flush_honest hb with ⟨b₁, hflush, hb₁⟩
    have hhonest := hb₁.honest hb
    rw [if_pos hcontent, hflush]
    exact ⟨_, rfl, hhonest.here, hhonest.outside⟩
  · rw [if_neg hcontent]
    exact ⟨_, rfl, hb.here, hb.outside⟩

theorem addNewline_honest (hb : b.Honest) : ∃ b', b.addNewline = .ok b' ∧ b'.Honest := by
  unfold addNewline
  by_cases hafter : b.level.paragraph.afterNewline = true
  · simp only [hafter, if_true]
    -- The flag does not count for honesty.
    have hreset : (b.withParagraph { b.level.paragraph with afterNewline := false }).Honest :=
      honest_withParagraph hb hb.here
    rcases flush_honest hreset with ⟨b₁, hflush, hb₁⟩
    exact ⟨b₁, hflush, hb₁.honest hreset⟩
  · simp only [hafter, Bool.false_eq_true, if_false]
    exact ⟨_, rfl, honest_withParagraph hb (Paragraph.honest_breakLine hb.here)⟩

/-- An honest builder takes every sound token, and stays honest. -/
theorem step_honest (hb : b.Honest) {t : Token} (ht : t.Sound) :
    ∃ b', b.step t = .ok b' ∧ b'.Honest := by
  cases t with
  | text value => exact ⟨_, rfl, honest_withParagraph hb (Paragraph.honest_addText hb.here value)⟩
  | newline => exact addNewline_honest hb
  | reference value =>
    have hitem : Paragraph.isBlankText (.text value) = false := ht
    exact ⟨_, rfl, honest_withParagraph hb (Paragraph.honest_addItem _ hitem)⟩
  | bold value => exact ⟨_, rfl, honest_withParagraph hb (Paragraph.honest_addItem _ rfl)⟩
  | italic value => exact ⟨_, rfl, honest_withParagraph hb (Paragraph.honest_addItem _ rfl)⟩
  | idMarker id => exact addMark_honest hb fun mark => { mark with id := id }
  | styleMarker classes => exact addMark_honest hb fun mark => { mark with style := some classes }
  | heading level value => exact addBlock_honest hb _
  | image as => exact addBlock_honest hb _
  | component value as => exact addBlock_honest hb _
  | leaf name as => exact addBlock_honest hb _
  | opening c name as => exact openFrame_honest hb c _
  | closing c name =>
    change ∃ b', b.close c = .ok b' ∧ b'.Honest
    unfold close
    cases b.closingDepth? c with
    | none => exact ⟨b, rfl, hb⟩
    | some depth => exact closeFrames_honest depth hb
  | eof => exact ⟨b, rfl, hb⟩

/-! ## Passes -/

theorem run_append (b : Builder) (ts us : List Token) :
    b.run (ts ++ us) = b.run ts >>= fun b' => b'.run us := by
  induction ts generalizing b with
  | nil => rfl
  | cons t ts ih =>
    rw [List.cons_append, run, run]
    cases b.step t with
    | error e => rfl
    | ok b₁ => exact ih b₁

theorem run_of_step {t : Token} (h : b.step t = .ok b') (ts : List Token) :
    b.run (t :: ts) = b'.run ts := by
  rw [run, h]
  rfl

theorem run_append_of_run {ts : List Token} (h : b.run ts = .ok b') (us : List Token) :
    b.run (ts ++ us) = b'.run us := by
  rw [run_append, h]
  rfl

end Builder

end Notemark.Body
