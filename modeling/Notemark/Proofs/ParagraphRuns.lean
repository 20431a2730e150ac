import Mathlib.Data.List.Chain
import Mathlib.Data.List.Forall2
import Notemark.Proofs.Outline

/-!
# Paragraphs and lines

Where a body has nothing but text, emphasis and references, its paragraphs are the longest runs of
lines that are not blank.

* `linesOf`, `runsOf`: the lines of a token list and the runs of them,
* `Gathered`: items with the lines that they come from,
* `Paragraph.Waits`, `Paragraph.Ends`: the open paragraph before a line and behind it,
* `Builder.finish_lines`: what the rest of the lines comes to,
* `parse_paragraph_per_run`: one paragraph per run, with the items of the run.
-/

namespace Notemark.Body

/-! ## Lines and runs -/

namespace Token

/-- Text that is nothing but white space. -/
def isBlank : Token → Bool
  | .text value => Text.allBlank value
  | _ => false

/-- Text, emphasis, and references that are more than white space. -/
def isInline : Token → Bool
  | .text _ | .bold _ | .italic _ => true
  | .reference value => !Text.allBlank value
  | _ => false

end Token

/-- The tokens of a line, and its number. -/
abbrev SourceLine := List Token × Nat

def SourceLine.isBlank (line : SourceLine) : Bool := line.1.all Token.isBlank

/-- The lines of a token list, numbered. -/
def linesOf (ts : List Token) : List SourceLine := (ts.splitOn .newline).zipIdx

/-- The runs that lines come to, if a run has begun before. -/
def runsFrom (run lines : List SourceLine) : List (List SourceLine) :=
  ((lines.splitOnP SourceLine.isBlank).modifyHead (run ++ ·)).filter (!·.isEmpty)

/-- The longest runs of lines that are not blank. -/
def runsOf (ts : List Token) : List (List SourceLine) :=
  ((linesOf ts).splitOnP SourceLine.isBlank).filter (!·.isEmpty)

section Runs

variable {line : SourceLine} {run lines : List SourceLine}

theorem runsFrom_start (lines : List SourceLine) :
    runsFrom [] lines = (lines.splitOnP SourceLine.isBlank).filter (!·.isEmpty) := by
  change List.filter _ (List.modifyHead id _) = _
  rw [List.modifyHead_id, id]

theorem runsFrom_nil (run : List SourceLine) : runsFrom run [] = [run].filter (!·.isEmpty) := by
  simp [runsFrom]

/-- A blank line ends a run. -/
theorem runsFrom_blank (h : line.isBlank = true) (run lines : List SourceLine) :
    runsFrom run (line :: lines) = [run].filter (!·.isEmpty) ++ runsFrom [] lines := by
  rw [runsFrom_start, runsFrom, List.splitOnP_cons_eq_if_modifyHead, if_pos h,
    List.modifyHead_cons, List.append_nil, ← List.filter_append]
  rfl

/-- Any other line belongs to it. -/
theorem runsFrom_ink (h : line.isBlank = false) (run lines : List SourceLine) :
    runsFrom run (line :: lines) = runsFrom (run ++ [line]) lines := by
  rw [runsFrom, runsFrom, List.splitOnP_cons_eq_if_modifyHead, h, if_neg (by simp),
    List.modifyHead_modifyHead]
  congr 2
  funext l
  simp

end Runs

/-! ## Items and their lines -/

/-- What the lines of a run say, each token with the number of its line. -/
def inkOf (run : List SourceLine) : List (Token × Nat) :=
  run.flatMap fun line => (line.1.filter (!·.isBlank)).map (·, line.2)

/-- An item and the number of the line that it comes from. -/
abbrev Sourced := Inline × Nat

/-- Items that say what is given, joined by spaces where the line changes. -/
structure Gathered (lines : List SourceLine) (ink : List (Token × Nat)) (content : List Sourced) :
    Prop where
  /-- What is more than white space is what is said, in order and from the same lines. -/
  told : List.Forall₂ (fun t item => t.1.Writes item.1 ∧ item.2 = t.2) ink
    (content.filter (!Paragraph.isBlankText ·.1))
  /-- White space is written on its line, or stands for the end of it. -/
  blanks : ∀ item ∈ content, Paragraph.isBlankText item.1 = true →
    ∃ line ∈ lines, line.2 = item.2 ∧
      (item.1 = .text [' '] ∨ ∃ value, .text value ∈ line.1 ∧ item.1 = .text value)
  ordered : content.Pairwise (·.2 ≤ ·.2)
  joined : content.IsChain fun a b => a.2 = b.2 ∨ Paragraph.endsInSpace a.1 = true

/-- The content of the paragraph of a run. -/
structure Lists (lines run : List SourceLine) (content : List Sourced) : Prop
    extends Gathered lines (inkOf run) content where
  nonempty : content ≠ []
  last : ∀ item ∈ content.getLast?, Paragraph.isBlankText item.1 = false

/-- A paragraph with a content. -/
def paragraphOf (content : List Sourced) : Element := .mk (.paragraph (content.map (·.1))) {} []

namespace Gathered

variable {lines : List SourceLine} {ink : List (Token × Nat)} {content rest : List Sourced}

theorem nil (lines : List SourceLine) : Gathered lines [] [] where
  told := .nil
  blanks := by simp
  ordered := .nil
  joined := .nil

/-- Items of one line behind the items of lines up to it. -/
theorem append (h : Gathered lines ink content) {line : SourceLine} (hline : line ∈ lines)
    (hbefore : ∀ item ∈ content, item.2 ≤ line.2)
    (hlast : ∀ item ∈ content.getLast?, item.2 = line.2 ∨ Paragraph.endsInSpace item.1 = true)
    (ts : List Token) (added : List Inline)
    (htold : List.Forall₂ Token.Writes ts (added.filter (!Paragraph.isBlankText ·)))
    (hblanks : ∀ item ∈ added, Paragraph.isBlankText item = true →
      item = .text [' '] ∨ ∃ value, .text value ∈ line.1 ∧ item = .text value) :
    Gathered lines (ink ++ ts.map (·, line.2)) (content ++ added.map (·, line.2)) where
  told := by
    rw [List.filter_append, List.filter_map]
    refine List.rel_append h.told ?_
    rw [List.forall₂_map_left_iff, List.forall₂_map_right_iff]
    exact htold.imp fun t item hwrites => ⟨hwrites, rfl⟩
  blanks := by
    intro item hitem hblank
    rcases List.mem_append.mp hitem with hitem | hitem
    · exact h.blanks item hitem hblank
    · rcases List.mem_map.mp hitem with ⟨item, hadded, rfl⟩
      exact ⟨line, hline, rfl, hblanks item hadded hblank⟩
  ordered := by
    refine List.pairwise_append.mpr ⟨h.ordered, ?_, ?_⟩
    · exact List.pairwise_map.mpr (List.pairwise_of_forall fun _ _ => Nat.le_refl _)
    · intro a ha b hb
      rcases List.mem_map.mp hb with ⟨item, -, rfl⟩
      exact hbefore a ha
  joined := by
    refine List.isChain_append.mpr ⟨h.joined, ?_, ?_⟩
    · apply List.Pairwise.isChain
      exact List.pairwise_map.mpr (List.pairwise_of_forall fun _ _ => Or.inl rfl)
    · intro a ha b hb
      rw [List.head?_map] at hb
      rcases Option.map_eq_some_iff.mp hb with ⟨item, -, rfl⟩
      exact hlast a ha

/-- White space at the end may be left out. -/
theorem of_append (h : Gathered lines ink (content ++ rest))
    (hrest : ∀ item ∈ rest, Paragraph.isBlankText item.1 = true) : Gathered lines ink content where
  told := by
    have hnone : rest.filter (!Paragraph.isBlankText ·.1) = [] := by
      rw [List.filter_eq_nil_iff]
      intro item hitem
      simp [hrest item hitem]
    have htold := h.told
    rwa [List.filter_append, hnone, List.append_nil] at htold
  blanks := fun item hitem => h.blanks item (List.mem_append_left _ hitem)
  ordered := (List.pairwise_append.mp h.ordered).1
  joined := (List.isChain_append.mp h.joined).1

end Gathered

/-! ## One line -/

namespace Paragraph

variable {p : Paragraph} {l : List Token}

/-- What a token of a line adds to the paragraph. -/
def take (p : Paragraph) : Token → Paragraph
  | .text value => p.addText value
  | .reference value => p.addItem (.text value)
  | .bold value => p.addItem (.strong value)
  | .italic value => p.addItem (.em value)
  | _ => p

/-- Blank text is dropped at the beginning of a line; all else becomes an item. -/
theorem take_cases (p : Paragraph) {t : Token} (h : t.isInline = true) :
    (t.isBlank = false ∧
      ∃ item, t.Writes item ∧ isBlankText item = false ∧ p.take t = p.addItem item) ∨
    ∃ value, t = .text value ∧ Text.allBlank value = true ∧
      p.take t = if p.afterNewline then p else { p with items := p.items ++ [.text value] } := by
  cases t with
  | text value =>
    cases hblank : Text.allBlank value with
    | true =>
      refine Or.inr ⟨value, rfl, hblank, ?_⟩
      rw [take, addText, Text.stripStart_of_allBlank hblank]
      cases p.afterNewline with
      | true => rfl
      | false => simp [hblank]
    | false =>
      rcases addText_ink p hblank with ⟨kept, hkept, hink, hadd⟩
      exact Or.inl ⟨hblank, .text kept, hkept.imp (congrArg _) (congrArg _), hink, hadd⟩
  | reference value =>
    exact Or.inl ⟨rfl, .text value, rfl, by simpa [Token.isInline, isBlankText] using h, rfl⟩
  | bold value => exact Or.inl ⟨rfl, .strong value, rfl, rfl, rfl⟩
  | italic value => exact Or.inl ⟨rfl, .em value, rfl, rfl, rfl⟩
  | _ => simp [Token.isInline] at h

/-- What the tokens of a line add to a paragraph. -/
structure Adds (p : Paragraph) (l : List Token) (added : List Inline) (p' : Paragraph) : Prop where
  items : p'.items = p.items ++ added
  told : List.Forall₂ Token.Writes (l.filter (!·.isBlank)) (added.filter (!isBlankText ·))
  blanks : ∀ item ∈ added, isBlankText item = true → ∃ value, .text value ∈ l ∧ item = .text value
  hasContent : p'.hasContent = (p.hasContent || !l.all Token.isBlank)
  afterNewline : p'.afterNewline = (p.afterNewline && l.all Token.isBlank)
  same : p.afterNewline = true → l.all Token.isBlank = true → p' = p

theorem adds_nil (p : Paragraph) : Adds p [] [] p where
  items := (List.append_nil _).symm
  told := .nil
  blanks := by simp
  hasContent := by simp
  afterNewline := by simp
  same := fun _ _ => rfl

theorem Adds.ink {t : Token} {item : Inline} {added : List Inline} {p' : Paragraph}
    (h : Adds (p.addItem item) l added p') (ht : t.isBlank = false) (hwrites : t.Writes item)
    (hitem : isBlankText item = false) : Adds p (t :: l) (item :: added) p' where
  items := by simp [h.items, addItem]
  told := by
    rw [List.filter_cons_of_pos (by simp [ht]), List.filter_cons_of_pos (by simp [hitem])]
    exact .cons hwrites h.told
  blanks := by
    intro x hx hblank
    rcases List.mem_cons.mp hx with rfl | hx
    · simp [hitem] at hblank
    · rcases h.blanks x hx hblank with ⟨value, hvalue, rfl⟩
      exact ⟨value, List.mem_cons_of_mem _ hvalue, rfl⟩
  hasContent := by simp [h.hasContent, addItem, ht]
  afterNewline := by simp [h.afterNewline, addItem, ht]
  same := by simp [ht]

/-- Blank text that does not begin a line stays. -/
theorem Adds.blank {value : Text} {added : List Inline} {p' : Paragraph}
    (h : Adds { p with items := p.items ++ [.text value] } l added p')
    (hafter : p.afterNewline = false) (hblank : Text.allBlank value = true) :
    Adds p (.text value :: l) (.text value :: added) p' where
  items := by simp [h.items]
  told := by
    rw [List.filter_cons_of_neg (by simp [Token.isBlank, hblank]),
      List.filter_cons_of_neg (by simp [isBlankText, hblank])]
    exact h.told
  blanks := by
    intro x hx hxblank
    rcases List.mem_cons.mp hx with rfl | hx
    · exact ⟨value, List.mem_cons_self, rfl⟩
    · rcases h.blanks x hx hxblank with ⟨other, hother, rfl⟩
      exact ⟨other, List.mem_cons_of_mem _ hother, rfl⟩
  hasContent := by simp [h.hasContent, Token.isBlank, hblank]
  afterNewline := by simp [h.afterNewline, hafter]
  same := by simp [hafter]

/-- Blank text that begins a line is dropped. -/
theorem Adds.indent {value : Text} {added : List Inline} {p' : Paragraph} (h : Adds p l added p')
    (hblank : Text.allBlank value = true) : Adds p (.text value :: l) added p' where
  items := h.items
  told := by
    rw [List.filter_cons_of_neg (by simp [Token.isBlank, hblank])]
    exact h.told
  blanks := by
    intro x hx hxblank
    rcases h.blanks x hx hxblank with ⟨other, hother, rfl⟩
    exact ⟨other, List.mem_cons_of_mem _ hother, rfl⟩
  hasContent := by simp [h.hasContent, Token.isBlank, hblank]
  afterNewline := by simp [h.afterNewline, Token.isBlank, hblank]
  same := fun hafter hall => h.same hafter (by simpa [Token.isBlank, hblank] using hall)

theorem exists_adds (p : Paragraph) (h : ∀ t ∈ l, t.isInline = true) :
    ∃ added, Adds p l added (l.foldl take p) := by
  induction l generalizing p with
  | nil => exact ⟨[], adds_nil p⟩
  | cons t l ih =>
    have hl : ∀ u ∈ l, u.isInline = true := fun u hu => h u (List.mem_cons_of_mem t hu)
    rw [List.foldl_cons]
    rcases take_cases p (h t List.mem_cons_self) with
      ⟨ht, item, hwrites, hitem, htake⟩ | ⟨value, rfl, hblank, htake⟩
    · rw [htake]
      rcases ih (p.addItem item) hl with ⟨added, hadds⟩
      exact ⟨item :: added, hadds.ink ht hwrites hitem⟩
    · rw [htake]
      cases hafter : p.afterNewline with
      | true =>
        rcases ih p hl with ⟨added, hadds⟩
        exact ⟨added, hadds.indent hblank⟩
      | false =>
        rcases ih { p with items := p.items ++ [.text value] } hl with ⟨added, hadds⟩
        rw [hafter] at hadds
        exact ⟨.text value :: added, Adds.blank (by simpa [hafter] using hadds) hafter hblank⟩

/-! ## The open paragraph -/

/-- The items of a paragraph say what a run of lines says, and it has content if there is a run. -/
structure Collects (lines run : List SourceLine) (content : List Sourced) (p : Paragraph) :
    Prop where
  items : p.items = content.map (·.1)
  hasContent : p.hasContent = !run.isEmpty
  gathered : Gathered lines (inkOf run) content
  inked : ∀ line ∈ run, line.isBlank = false

/-- The open paragraph before a line. A run goes on only behind a line break, which is a space. -/
structure Waits (lines run : List SourceLine) (n : Nat) (content : List Sourced) (p : Paragraph) :
    Prop extends Collects lines run content p where
  before : ∀ item ∈ content, item.2 < n
  fresh : p.afterNewline = false → content = [] ∧ run = []
  spaced : ∀ item ∈ content.getLast?, endsInSpace item.1 = true

/-- The open paragraph behind a line to which something was added. -/
structure Ends (lines run : List SourceLine) (n : Nat) (content : List Sourced) (p : Paragraph) :
    Prop extends Collects lines run content p where
  afterNewline : p.afterNewline = false
  upTo : ∀ item ∈ content, item.2 ≤ n
  last : ∀ item ∈ content.getLast?, item.2 = n

section Open

variable {lines run : List SourceLine} {line : SourceLine} {content : List Sourced}

theorem waits_start (lines : List SourceLine) (n : Nat) : Waits lines [] n [] {} where
  items := rfl
  hasContent := rfl
  gathered := .nil lines
  inked := by simp
  before := by simp
  fresh := fun _ => ⟨rfl, rfl⟩
  spaced := by simp

theorem inkOf_append_singleton (run : List SourceLine) (line : SourceLine) :
    inkOf (run ++ [line]) = inkOf run ++ (line.1.filter (!·.isBlank)).map (·, line.2) := by
  simp [inkOf]

/-- A line is blank if it says nothing. -/
theorem filter_isBlank_eq_nil_iff : line.1.filter (!·.isBlank) = [] ↔ line.isBlank = true := by
  simp [SourceLine.isBlank, List.filter_eq_nil_iff]

/-- A blank line behind a line break leaves the paragraph as it is; any other line adds to it. -/
theorem Waits.take_line (h : Waits lines run line.2 content p) (hline : line ∈ lines)
    (htokens : ∀ t ∈ line.1, t.isInline = true) :
    (line.isBlank = true ∧ p.afterNewline = true ∧ line.1.foldl take p = p) ∨
    (line.isBlank = true → run = []) ∧
      ∃ content', Ends lines (if line.isBlank then run else run ++ [line]) line.2 content'
        (line.1.foldl take p) := by
  rcases exists_adds p htokens with ⟨added, hadds⟩
  by_cases hsame : line.isBlank = true ∧ p.afterNewline = true
  · exact Or.inl ⟨hsame.1, hsame.2, hadds.same hsame.2 hsame.1⟩
  have hfresh : line.isBlank = true → content = [] ∧ run = [] :=
    fun hblank => h.fresh (by simpa [hblank] using hsame)
  refine Or.inr ⟨fun hblank => (hfresh hblank).2, content ++ added.map (·, line.2), ?_⟩
  have hink : inkOf (if line.isBlank then run else run ++ [line]) =
      inkOf run ++ (line.1.filter (!·.isBlank)).map (·, line.2) := by
    split
    · next hblank => rw [filter_isBlank_eq_nil_iff.mpr hblank, List.map_nil, List.append_nil]
    · exact inkOf_append_singleton run line
  -- A line adds nothing only if it is blank, and then nothing stands before it.
  have hnothing : added = [] → content = [] := by
    rintro rfl
    exact (hfresh (filter_isBlank_eq_nil_iff.mp (List.forall₂_nil_right_iff.mp hadds.told))).1
  constructor
  · constructor
    · simp [hadds.items, h.items, Function.comp_def]
    · rw [hadds.hasContent, h.hasContent]
      cases hblank : line.isBlank with
      | true => simp [show line.1.all Token.isBlank = true from hblank]
      | false => simp [show line.1.all Token.isBlank = false from hblank]
    · rw [hink]
      exact h.gathered.append hline (fun item hitem => Nat.le_of_lt (h.before item hitem))
        (fun item hitem => Or.inr (h.spaced item hitem)) _ added hadds.told
        fun item hitem hblank => Or.inr (hadds.blanks item hitem hblank)
    · split
      · exact h.inked
      · next hblank =>
        intro other hother
        rcases List.mem_append.mp hother with hother | hother
        · exact h.inked other hother
        · rw [List.mem_singleton.mp hother]
          simpa using hblank
  · rw [hadds.afterNewline, Bool.and_comm]
    simpa [SourceLine.isBlank] using hsame
  · intro item hitem
    rcases List.mem_append.mp hitem with hitem | hitem
    · exact Nat.le_of_lt (h.before item hitem)
    · rcases List.mem_map.mp hitem with ⟨x, -, rfl⟩
      exact Nat.le_refl _
  · intro item hitem
    rcases added.eq_nil_or_concat with hnil | ⟨front, x, rfl⟩
    · rw [hnil, hnothing hnil] at hitem
      simp at hitem
    · simp at hitem
      rw [← hitem]

/-- A line break is a space between lines. -/
theorem Ends.breakLine (h : Ends lines run line.2 content p) (hline : line ∈ lines) :
    ∃ content', Waits lines run (line.2 + 1) content' p.breakLine := by
  have hlast : p.items.getLast? = content.getLast?.map (·.1) := by rw [h.items, List.getLast?_map]
  by_cases hspaced : ∀ item ∈ content.getLast?, endsInSpace item.1 = true
  · -- The line ends in a space of its own, or there is nothing yet.
    have hitems : p.breakLine.items = p.items := by
      rw [Paragraph.breakLine, hlast]
      cases hget : content.getLast? with
      | none => rfl
      | some item => simp [hspaced item hget]
    exact ⟨content, ⟨hitems.trans h.items, h.hasContent, h.gathered, h.inked⟩,
      fun item hitem => Nat.lt_succ_of_le (h.upTo item hitem), by simp [Paragraph.breakLine],
      hspaced⟩
  · simp only [not_forall] at hspaced
    rcases hspaced with ⟨item, hget, hitem⟩
    have hitems : p.breakLine.items = p.items ++ [.text [' ']] := by
      rw [Paragraph.breakLine, hlast, hget]
      simp [hitem]
    have hgathered := h.gathered.append hline h.upTo (fun x hx => Or.inl (h.last x hx)) []
      [.text [' ']] .nil fun x hx _ => Or.inl (List.mem_singleton.mp hx)
    refine ⟨content ++ [(.text [' '], line.2)], ⟨?_, h.hasContent, ?_, h.inked⟩, ?_,
      by simp [Paragraph.breakLine], ?_⟩
    · rw [hitems, h.items]
      simp
    · simpa using hgathered
    · intro x hx
      rcases List.mem_append.mp hx with hx | hx
      · exact Nat.lt_succ_of_le (h.upTo x hx)
      · rw [List.mem_singleton.mp hx]
        exact Nat.lt_succ_self _
    · simp [endsInSpace]

/-! ## Ending it -/

theorem last_trimmed (items : List Inline) :
    ∀ item ∈ (trimmed items).getLast?, isBlankText item = false := by
  intro item hitem
  rw [trimmed, List.getLast?_reverse] at hitem
  have hhead := List.head?_dropWhile_not isBlankText items.reverse
  rwa [hitem] at hhead

/-- A run that has begun says something. -/
theorem Collects.honest (h : Collects lines run content p) : p.Honest := by
  intro hcontent
  cases run with
  | nil => simp [h.hasContent] at hcontent
  | cons line run =>
    have hline : line.1.filter (!·.isBlank) ≠ [] := by
      rw [Ne, filter_isBlank_eq_nil_iff]
      simp [h.inked line List.mem_cons_self]
    have hink : inkOf (line :: run) ≠ [] := by simp [inkOf, hline]
    have hitems : content.filter (!isBlankText ·.1) ≠ [] := by
      intro hnil
      have htold := h.gathered.told
      rw [hnil] at htold
      exact hink (List.forall₂_nil_right_iff.mp htold)
    rcases List.exists_mem_of_ne_nil _ hitems with ⟨item, hitem⟩
    rw [List.mem_filter] at hitem
    refine ⟨item.1, ?_, by simpa using hitem.2⟩
    rw [h.items]
    exact List.mem_map_of_mem hitem.1

/-- What is left after trimming is the content of the run. -/
theorem Collects.lists (h : Collects lines run content p) (hrun : run ≠ []) :
    ∃ content', content'.map (·.1) = trimmed p.items ∧ Lists lines run content' := by
  have hcontent : p.hasContent = true := by simpa [h.hasContent] using hrun
  rcases h.honest hcontent with ⟨item, hitem, hink⟩
  rcases exists_eq_trimmed_append p.items with ⟨blanks, hsplit, hblanks⟩
  rcases List.map_eq_append_iff.mp (h.items.symm.trans hsplit) with
    ⟨content', rest, rfl, htrimmed, rfl⟩
  refine ⟨content', htrimmed, h.gathered.of_append ?_, ?_, ?_⟩
  · intro x hx
    exact hblanks x.1 (List.mem_map_of_mem hx)
  · rintro rfl
    exact trimmed_ne_nil hitem hink htrimmed.symm
  · intro x hx
    refine last_trimmed p.items x.1 ?_
    rw [← htrimmed, List.getLast?_map, hx]
    rfl

end Open

end Paragraph

/-! ## All lines -/

namespace Builder

variable {lines run : List SourceLine} {content : List Sourced} {p : Paragraph}

/-- A builder outside of all containers. -/
def outside (es : List Element) (p : Paragraph) : Builder := { level := ⟨es, p⟩ }

theorem run_line (es : List Element) (p : Paragraph) {l : List Token}
    (h : ∀ t ∈ l, t.isInline = true) :
    (outside es p).run l = .ok (outside es (l.foldl Paragraph.take p)) := by
  induction l generalizing p with
  | nil => rfl
  | cons t l ih =>
    have hstep : (outside es p).step t = .ok (outside es (p.take t)) := by
      have ht := h t List.mem_cons_self
      cases t with
      | text value => rfl
      | reference value => rfl
      | bold value => rfl
      | italic value => rfl
      | _ => simp [Token.isInline] at ht
    rw [run, hstep]
    exact ih (p.take t) fun u hu => h u (List.mem_cons_of_mem t hu)

/-- Ending a paragraph gives one element if there is a run, and none if not. -/
theorem flush_collects (es : List Element) (h : Paragraph.Collects lines run content p) :
    ∃ contents, (outside es p).flush = .ok (outside (es ++ contents.map paragraphOf) {}) ∧
      List.Forall₂ (Lists lines) ([run].filter (!·.isEmpty)) contents := by
  have hflush := Paragraph.flush_of_honest h.honest
  rw [h.hasContent] at hflush
  cases run with
  | nil =>
    refine ⟨[], ?_, .nil⟩
    change (p.flush >>= _) = _
    rw [hflush, List.map_nil, List.append_nil]
    rfl
  | cons line run =>
    rcases h.lists (List.cons_ne_nil line run) with ⟨content', htrimmed, hlists⟩
    refine ⟨[content'], ?_, .cons hlists .nil⟩
    change (p.flush >>= _) = _
    rw [hflush, ← htrimmed]
    rfl

theorem finish_outside (es : List Element) (p : Paragraph) :
    (outside es p).finish = (outside es p).flush.map (·.level.elements) := by
  change ((outside es p).flush >>= fun b => pure b.level.elements) = _
  cases (outside es p).flush with
  | error e => rfl
  | ok b => rfl

/-- What a line does to the runs, unless it is blank and a run has begun. -/
theorem runsFrom_line {line : SourceLine} (h : line.isBlank = true → run = [])
    (later : List SourceLine) :
    runsFrom run (line :: later) =
      runsFrom (if line.isBlank then run else run ++ [line]) later := by
  split
  · next hblank =>
    rw [runsFrom_blank hblank, h hblank]
    rfl
  · next hink => exact runsFrom_ink (by simpa using hink) run later

/-- A line and the line break behind it: a blank line ends the run that has begun. -/
theorem run_line_newline (es : List Element) {line : SourceLine}
    (h : Paragraph.Waits lines run line.2 content p) (hline : line ∈ lines)
    (htokens : ∀ t ∈ line.1, t.isInline = true) :
    ∃ contents done run' content' p',
      (outside es p).run (line.1 ++ [.newline]) =
        .ok (outside (es ++ contents.map paragraphOf) p') ∧
      Paragraph.Waits lines run' (line.2 + 1) content' p' ∧
      List.Forall₂ (Lists lines) done contents ∧
      ∀ later, runsFrom run (line :: later) = done ++ runsFrom run' later := by
  rw [run_append, run_line es p htokens]
  rcases h.take_line hline htokens with ⟨hblank, hafter, hsame⟩ | ⟨hrun, content', hends⟩
  · -- The second line break in a row ends the paragraph.
    have hcollects : Paragraph.Collects lines run content { p with afterNewline := false } :=
      ⟨h.items, h.hasContent, h.gathered, h.inked⟩
    rcases flush_collects es hcollects with ⟨contents, hflush, hlists⟩
    refine ⟨contents, _, [], [], {}, ?_, Paragraph.waits_start lines _, hlists,
      runsFrom_blank hblank run⟩
    have hnewline : (outside es p).addNewline =
        (outside es { p with afterNewline := false }).flush := if_pos hafter
    rw [hsame]
    change ((outside es p).addNewline >>= pure) = _
    rw [hnewline, hflush]
    rfl
  · rcases hends.breakLine hline with ⟨content'', hwaits⟩
    refine ⟨[], [], _, content'', _, ?_, hwaits, .nil, runsFrom_line hrun⟩
    have hnewline : (outside es (line.1.foldl Paragraph.take p)).addNewline =
        .ok (outside es (line.1.foldl Paragraph.take p).breakLine) :=
      if_neg (by simp [outside, hends.afterNewline])
    change ((outside es (line.1.foldl Paragraph.take p)).addNewline >>= pure) = _
    rw [hnewline, List.map_nil, List.append_nil]
    rfl

/-- The last line ends the paragraph. -/
theorem finish_line (es : List Element) {line : SourceLine}
    (h : Paragraph.Waits lines run line.2 content p) (hline : line ∈ lines)
    (htokens : ∀ t ∈ line.1, t.isInline = true) :
    ∃ contents, ((outside es p).run line.1 >>= finish) = .ok (es ++ contents.map paragraphOf) ∧
      List.Forall₂ (Lists lines) (runsFrom run [line]) contents := by
  rw [run_line es p htokens]
  change ∃ contents, (outside es (line.1.foldl Paragraph.take p)).finish = _ ∧ _
  rw [finish_outside]
  rcases h.take_line hline htokens with ⟨hblank, hafter, hsame⟩ | ⟨hrun, content', hends⟩
  · rcases flush_collects es h.toCollects with ⟨contents, hflush, hlists⟩
    refine ⟨contents, by rw [hsame, hflush]; rfl, ?_⟩
    rw [runsFrom_blank hblank, runsFrom_nil]
    simpa using hlists
  · rcases flush_collects es hends.toCollects with ⟨contents, hflush, hlists⟩
    refine ⟨contents, by rw [hflush]; rfl, ?_⟩
    rwa [runsFrom_line hrun, runsFrom_nil]

/-- What lines come to, given the open paragraph before them. -/
theorem finish_lines {ls : List (List Token)} (hne : ls ≠ []) {n : Nat} (es : List Element)
    (htokens : ∀ l ∈ ls, ∀ t ∈ l, t.isInline = true) (hlines : ∀ line ∈ ls.zipIdx n, line ∈ lines)
    (h : Paragraph.Waits lines run n content p) :
    ∃ contents,
      ((outside es p).run ([.newline].intercalate ls) >>= finish) =
        .ok (es ++ contents.map paragraphOf) ∧
      List.Forall₂ (Lists lines) (runsFrom run (ls.zipIdx n)) contents := by
  -- The invariant is the open paragraph with the run that it collects: each line either goes on
  -- with the run or hands it over as an element.
  induction ls generalizing n es p run content with
  | nil => exact absurd rfl hne
  | cons l ls ih =>
    have hline : (l, n) ∈ lines := hlines _ (by simp)
    have hl := htokens l List.mem_cons_self
    cases ls with
    | nil =>
      rw [List.intercalate_singleton]
      exact finish_line es h hline hl
    | cons l' ls =>
      rcases run_line_newline es h hline hl with
        ⟨contents, done, run', content', p', hrun, hwaits, hdone, hruns⟩
      rcases ih (List.cons_ne_nil l' ls) (es ++ contents.map paragraphOf)
        (fun k hk => htokens k (List.mem_cons_of_mem l hk))
        (fun line hmem => hlines line (by rw [List.zipIdx_cons]; exact List.mem_cons_of_mem _ hmem))
        hwaits with ⟨later, hlater, hlists⟩
      refine ⟨contents ++ later, ?_, ?_⟩
      · rw [List.intercalate_cons_cons, run_append, hrun, List.map_append, ← List.append_assoc]
        exact hlater
      · rw [List.zipIdx_cons, hruns]
        exact List.rel_append hdone hlists

end Builder

/-! ## Token lists -/

theorem inline_of_mem_splitOn {ts : List Token} (h : ∀ t ∈ ts, t = .newline ∨ t.isInline = true) :
    ∀ l ∈ ts.splitOn .newline, ∀ t ∈ l, t.isInline = true := by
  induction ts with
  | nil => simp
  | cons t ts ih =>
    have hts := ih fun u hu => h u (List.mem_cons_of_mem t hu)
    rw [List.splitOn_cons_eq_if_modifyHead]
    split
    · intro l hl
      rcases List.mem_cons.mp hl with rfl | hl
      · simp
      · exact hts l hl
    · next hnewline =>
      have ht : t.isInline = true :=
        (h t List.mem_cons_self).resolve_left (by simpa using hnewline)
      rcases List.exists_cons_of_ne_nil (List.splitOn_ne_nil .newline ts) with
        ⟨first, later, hsplit⟩
      rw [hsplit] at hts
      rw [hsplit, List.modifyHead_cons]
      intro l hl
      rcases List.mem_cons.mp hl with rfl | hl
      · exact List.forall_mem_cons.mpr ⟨ht, hts first List.mem_cons_self⟩
      · exact hts l (List.mem_cons_of_mem first hl)

/-- Tokens of nothing but text, emphasis, references and line breaks have one paragraph for each of
the longest runs of lines that are not blank. Its content is not empty, does not end in white space,
and says what the lines of the run say; where it goes over to another line there is a space. -/
theorem parse_paragraph_per_run (ts : List Token)
    (h : ∀ t ∈ ts, t = .newline ∨ t.isInline = true) :
    ∃ contents, parse ts = .ok (contents.map paragraphOf) ∧
      parse (ts ++ [.eof]) = .ok (contents.map paragraphOf) ∧
      List.Forall₂ (Lists (linesOf ts)) (runsOf ts) contents := by
  have heof : .eof ∉ ts := by
    intro hmem
    simpa [Token.isInline] using h _ hmem
  rcases Builder.finish_lines (List.splitOn_ne_nil _ ts) [] (inline_of_mem_splitOn h)
    (fun _ hmem => hmem) (Paragraph.waits_start (linesOf ts) 0) with ⟨contents, hfinish, hlists⟩
  rw [List.intercalate_splitOn, List.nil_append] at hfinish
  refine ⟨contents, ?_, ?_, ?_⟩
  · rw [parse, untilEof_eq_self heof]
    exact hfinish
  · rw [parse, untilEof_append_eof heof]
    exact hfinish
  · rwa [runsOf, ← runsFrom_start]

/-- Two runs: the first begins behind a blank line and ends before two of them. -/
def proseTokens : List Token :=
  [.text [' '], .newline, .text [' ', 'a'], .newline, .bold ['b'], .newline, .text ['\t'], .newline,
    .newline, .text ['c', ' '], .newline, .text [' '], .italic ['d']]

theorem parse_paragraph_per_run_prose :
    ∃ one other, parse proseTokens = .ok [paragraphOf one, paragraphOf other] ∧
      Lists (linesOf proseTokens)
        [([.text [' ', 'a']], 1), ([.bold ['b']], 2)] one ∧
      Lists (linesOf proseTokens)
        [([.text ['c', ' ']], 5), ([.text [' '], .italic ['d']], 6)] other := by
  rcases parse_paragraph_per_run proseTokens (by decide) with ⟨contents, hparse, -, hlists⟩
  have hruns : runsOf proseTokens =
      [[([.text [' ', 'a']], 1), ([.bold ['b']], 2)],
        [([.text ['c', ' ']], 5), ([.text [' '], .italic ['d']], 6)]] := by decide
  rw [hruns] at hlists
  rcases hlists with _ | ⟨hone, _ | ⟨hother, _ | _⟩⟩
  exact ⟨_, _, hparse, hone, hother⟩

end Notemark.Body
