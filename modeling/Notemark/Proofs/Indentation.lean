import Mathlib.Algebra.Ring.Parity
import Mathlib.Data.List.DropRight
import Notemark.Proofs.Positions
import Notemark.Proofs.Runs

/-!
# Indentation

The text of a new line is meant to lose its indentation. The tree builder keeps one flag for this,
which the first line break of a row sets and the second one takes back. This module holds

* `Margin`: what the flag depends on, computed from the tokens alone; `marginAfter` is the margin
  after some tokens,
* `Builder.Keeps`: a builder that is where a margin says; `Builder.keeps_run` is about whole passes,
* `Paragraph.added`: the items that a text adds to the open paragraph,
* `Unindented`: what they are meant to be like,
* `Shows`: some paragraph of the outline begins with an item,
* `indentation_dropped_iff`: a text right behind a line break loses its indentation exactly if the
  number of line breaks in a row is odd.
-/

namespace Notemark.Body

/-! ## Margins -/

/-- The open containers, innermost first, whether a paragraph has begun, and how many line breaks
stand in a row. -/
structure Margin where
  kinds : List Container := []
  begun : Bool := false
  breaks : Nat := 0
  deriving Repr, DecidableEq

namespace Margin

/-- The token ends a row of line breaks. White space does not, nor does a tag that closes nothing,
nor a marker before the paragraph begins. -/
def endedBy (m : Margin) : Token → Bool
  | .text value => !Text.allBlank value
  | .newline | .eof => false
  | .idMarker _ | .styleMarker _ => m.begun
  | .closing none _ => false
  | .closing (some c) _ => c ∈ m.kinds
  | _ => true

/-- One token more. The second line break of a row ends the paragraph, and so does every second one
that follows. -/
def step (m : Margin) : Token → Margin
  | .newline => { m with begun := m.begun && m.breaks % 2 == 0, breaks := m.breaks + 1 }
  | t => if m.endedBy t then ⟨t.openBehind m.kinds, t.hasInk, 0⟩ else m

end Margin

def marginAfter (ts : List Token) : Margin := ts.foldl Margin.step {}

/-! ## The open paragraph -/

namespace Builder

variable {b b' b₁ : Builder} {t : Token} {m : Margin}

theorem paragraph_of_flush (h : b.flush = .ok b₁) : b₁.level.paragraph = {} := by
  rcases bind_eq_ok_iff.mp h with ⟨found, -, hadd⟩
  cases found with
  | none => exact Except.ok.inj hadd ▸ rfl
  | some items => exact Except.ok.inj hadd ▸ rfl

/-- Around the open containers no paragraph is open. -/
def Apart (b : Builder) : Prop := ∀ f ∈ b.frames, f.outer.paragraph = {}

theorem closeFrame_apart (hb : b.Apart) {k : Container} {ks : List Container}
    (hkinds : b.kinds = k :: ks) (h : b.closeFrame = .ok b') :
    b'.level.paragraph = {} ∧ b'.Apart := by
  rcases exists_frame_of_kinds hkinds with ⟨f, fs, hframes⟩
  rw [Apart, hframes, List.forall_mem_cons] at hb
  rcases bind_eq_ok_iff.mp h with ⟨b₁, hflush, hclose⟩
  dsimp only at hclose
  rw [(frames_of_flush hflush).trans hframes] at hclose
  rw [← Except.ok.inj hclose]
  exact hb

theorem close_apart (hb : b.Apart) {c : Container} (hmem : c ∈ b.kinds)
    (h : b.close (some c) = .ok b') : b'.level.paragraph = {} ∧ b'.Apart := by
  generalize hks : b.kinds = ks at hmem
  induction ks generalizing b with
  | nil => simp at hmem
  | cons k ks ih =>
    by_cases hk : k = c
    · subst hk
      rw [close_top hks] at h
      exact closeFrame_apart hb hks h
    · -- The container that is meant is further out: the same again, one level up.
      have hrest : c ∈ ks := (List.mem_cons.mp hmem).resolve_left (Ne.symm hk)
      rw [close_below hks hk hrest] at h
      rcases bind_eq_ok_iff.mp h with ⟨b₁, hclose, hlater⟩
      have hks₁ : b₁.kinds = ks := by rw [kinds_of_closeFrame hclose, hks]; rfl
      exact ih (closeFrame_apart hb hks hclose).2 hlater hks₁ hrest

/-- The builder is where the margin says. -/
structure Keeps (m : Margin) (b : Builder) : Prop where
  apart : b.Apart
  kinds : b.kinds = m.kinds
  begun : b.level.paragraph.hasContent = m.begun
  flag : b.level.paragraph.afterNewline = (m.breaks % 2 == 1)

theorem keeps_start : Keeps {} {} where
  apart := fun _ hf => absurd hf List.not_mem_nil
  kinds := rfl
  begun := rfl
  flag := rfl

/-! ## One token more -/

/-- What a token that ends the row leaves: no paragraph, or one that it has written into. -/
structure Begins (t : Token) (b' : Builder) : Prop where
  apart : b'.Apart
  begun : b'.level.paragraph.hasContent = t.hasInk
  flag : b'.level.paragraph.afterNewline = false

theorem begins_of_empty (happart : b'.Apart) (hempty : b'.level.paragraph = {})
    (hink : t.hasInk = false) : Begins t b' :=
  ⟨happart, by rw [hempty, hink], by rw [hempty]⟩

theorem Apart.flush (hb : b.Apart) (h : b.flush = .ok b₁) : b₁.Apart := by
  rw [Apart, frames_of_flush h]
  exact hb

theorem begins_of_flush (hb : b.Apart) (hflush : b.flush = .ok b₁) (hframes : b'.frames = b₁.frames)
    (hparagraph : b'.level.paragraph = b₁.level.paragraph) (hink : t.hasInk = false) :
    Begins t b' := by
  refine begins_of_empty ?_ (hparagraph.trans (paragraph_of_flush hflush)) hink
  rw [Apart, hframes]
  exact hb.flush hflush

theorem begins_block (hb : b.Apart) {block : Block} (hink : t.hasInk = false)
    (h : b.addBlock block = .ok b') : Begins t b' := by
  rcases bind_eq_ok_iff.mp h with ⟨b₁, hflush, hadd⟩
  rw [← Except.ok.inj hadd]
  exact begins_of_flush hb hflush rfl rfl hink

theorem begins_mark (hb : b.Apart) (change : Mark → Mark) (hink : t.hasInk = false)
    (hcontent : b.level.paragraph.hasContent = true) (h : b.addMark change = .ok b') :
    Begins t b' := by
  unfold addMark at h
  rw [hcontent, if_pos rfl] at h
  rcases bind_eq_ok_iff.mp h with ⟨b₁, hflush, hmark⟩
  rw [← Except.ok.inj hmark]
  exact begins_of_flush hb hflush rfl rfl hink

theorem Keeps.begins (hm : Keeps m b) (hended : m.endedBy t = true) (h : b.step t = .ok b') :
    Begins t b' := by
  cases t with
  | text value =>
    have hblank : Text.allBlank value = false := by simpa [Margin.endedBy] using hended
    rcases Paragraph.addText_ink b.level.paragraph hblank with ⟨kept, -, -, hadd⟩
    rw [← Except.ok.inj h]
    refine ⟨hm.apart, ?_, ?_⟩
    · simp [withParagraph, hadd, Paragraph.addItem, Token.hasInk, hblank]
    · simp [withParagraph, hadd, Paragraph.addItem]
  | newline => simp [Margin.endedBy] at hended
  | eof => simp [Margin.endedBy] at hended
  | reference value => exact Except.ok.inj h ▸ ⟨hm.apart, rfl, rfl⟩
  | bold value => exact Except.ok.inj h ▸ ⟨hm.apart, rfl, rfl⟩
  | italic value => exact Except.ok.inj h ▸ ⟨hm.apart, rfl, rfl⟩
  | idMarker id =>
    have hadd : b.addMark (fun mark => { mark with id := id }) = .ok b' := h
    exact begins_mark hm.apart _ rfl (hm.begun.trans hended) hadd
  | styleMarker classes =>
    have hadd : b.addMark (fun mark => { mark with style := some classes }) = .ok b' := h
    exact begins_mark hm.apart _ rfl (hm.begun.trans hended) hadd
  | heading level value => exact begins_block hm.apart rfl h
  | image as => exact begins_block hm.apart rfl h
  | component value as => exact begins_block hm.apart rfl h
  | leaf name as => exact begins_block hm.apart rfl h
  | opening c name as =>
    have hopen : b.openFrame c (.ofOpening c name as) = .ok b' := h
    rcases bind_eq_ok_iff.mp hopen with ⟨b₁, hflush, hframe⟩
    rw [← Except.ok.inj hframe]
    refine begins_of_empty ?_ rfl rfl
    exact List.forall_mem_cons.mpr ⟨paragraph_of_flush hflush, hm.apart.flush hflush⟩
  | closing c name =>
    cases c with
    | none => simp [Margin.endedBy] at hended
    | some c =>
      have hmem : c ∈ b.kinds := by simpa [hm.kinds, Margin.endedBy] using hended
      rcases close_apart hm.apart hmem h with ⟨hempty, happart⟩
      exact begins_of_empty happart hempty rfl

/-- A token that does not end the row, and is no line break, changes nothing. -/
theorem Keeps.rests (hm : Keeps m b) (hended : m.endedBy t = false) (hne : t ≠ .newline)
    (h : b.step t = .ok b') : Keeps m b' := by
  have hmark : ∀ change : Mark → Mark, m.begun = false → b.addMark change = .ok b' →
      Keeps m b' := by
    intro change hbegun hadd
    unfold addMark at hadd
    rw [hm.begun, hbegun, if_neg Bool.false_ne_true] at hadd
    rw [← Except.ok.inj hadd]
    exact ⟨hm.apart, hm.kinds, hm.begun, hm.flag⟩
  cases t with
  | text value =>
    have hblank : Text.allBlank value = true := by simpa [Margin.endedBy] using hended
    rcases Paragraph.addText_blank b.level.paragraph hblank with ⟨hshown, hflag⟩
    rw [← Except.ok.inj h]
    exact ⟨hm.apart, hm.kinds, hshown.hasContent.trans hm.begun, hflag.trans hm.flag⟩
  | newline => exact absurd rfl hne
  | eof => exact Except.ok.inj h ▸ hm
  | idMarker id => exact hmark (fun mark => { mark with id := id }) hended h
  | styleMarker classes => exact hmark (fun mark => { mark with style := some classes }) hended h
  | closing c name =>
    cases c with
    | none => exact Except.ok.inj h ▸ hm
    | some c =>
      have hmem : c ∉ b.kinds := by simpa [hm.kinds, Margin.endedBy] using hended
      have hclose : b.close (some c) = .ok b' := h
      rw [close_stray hmem] at hclose
      exact Except.ok.inj hclose ▸ hm
  | _ => simp [Margin.endedBy] at hended

/-- The first line break of a row sets the flag, and the second one takes it back. -/
theorem Keeps.newline (hm : Keeps m b) (h : b.addNewline = .ok b') :
    Keeps (m.step .newline) b' := by
  unfold addNewline at h
  dsimp only at h
  -- An even row has left the flag down, so that this break sets it; an odd one is taken back.
  rcases Nat.mod_two_eq_zero_or_one m.breaks with heven | hodd
  · have hflag : b.level.paragraph.afterNewline = false := by simp [hm.flag, heven]
    rw [hflag, if_neg Bool.false_ne_true] at h
    rw [← Except.ok.inj h]
    refine ⟨hm.apart, hm.kinds, ?_, ?_⟩
    · simp [withParagraph, Paragraph.breakLine, hm.begun, Margin.step, heven]
    · have hnext : (m.breaks + 1) % 2 = 1 := by omega
      simp [withParagraph, Paragraph.breakLine, Margin.step, hnext]
  · have hflag : b.level.paragraph.afterNewline = true := by simp [hm.flag, hodd]
    rw [hflag, if_pos rfl] at h
    refine ⟨?_, ?_, ?_, ?_⟩
    · exact Apart.flush hm.apart h
    · exact (kinds_of_flush h).trans hm.kinds
    · simp [paragraph_of_flush h, Margin.step, hodd]
    · have hnext : (m.breaks + 1) % 2 = 0 := by omega
      simp [paragraph_of_flush h, Margin.step, hnext]

theorem keeps_step (hm : Keeps m b) (h : b.step t = .ok b') : Keeps (m.step t) b' := by
  by_cases hne : t = .newline
  · subst hne
    exact hm.newline h
  · have hstep : m.step t = if m.endedBy t then ⟨t.openBehind m.kinds, t.hasInk, 0⟩ else m := by
      cases t with
      | newline => exact absurd rfl hne
      | _ => rfl
    rw [hstep]
    cases hended : m.endedBy t with
    | true =>
      rcases hm.begins hended h with ⟨happart, hbegun, hflag⟩
      exact ⟨happart, by rw [kinds_step h, hm.kinds]; rfl, hbegun, hflag⟩
    | false => exact hm.rests hended hne h

/-- Along a whole pass the builder is where the margin of the tokens says. -/
theorem keeps_run (hm : Keeps m b) {ts : List Token} (h : b.run ts = .ok b') :
    Keeps (ts.foldl Margin.step m) b' := by
  induction ts generalizing b m with
  | nil => exact Except.ok.inj h ▸ hm
  | cons t ts ih =>
    rcases bind_eq_ok_iff.mp h with ⟨b₁, hstep, hlater⟩
    exact ih (keeps_step hm hstep) hlater

end Builder

/-! ## The text of a line -/

/-- The items that a text adds to a paragraph. -/
def Paragraph.added (p : Paragraph) (value : Text) : List Inline :=
  (p.addText value).items.drop p.items.length

/-- Indentation is not content: what is added begins with ink, and white space adds nothing. -/
structure Unindented (value : Text) (added : List Inline) : Prop where
  begins : ∀ t, .text t ∈ added → ∀ c, t.head? = some c → Text.isBlank c = false
  nothing : Text.allBlank value = true → added = []

/-- The tokens that are left of a text without its indentation. -/
def unindented (value : Text) : List Token :=
  if Text.allBlank value then [] else [.text (Text.stripStart value)]

section Lines

variable {p : Paragraph} {value : Text}

theorem head?_stripStart {c : Char} (h : (Text.stripStart value).head? = some c) :
    Text.isBlank c = false := by
  have hhead := List.head?_dropWhile_not Text.isBlank value
  unfold Text.stripStart at h
  rw [h] at hhead
  simpa using hhead

theorem isEmpty_stripStart : (Text.stripStart value).isEmpty = Text.allBlank value := by
  cases hblank : Text.allBlank value with
  | true => rw [Text.stripStart_of_allBlank hblank, List.isEmpty_nil]
  | false =>
    rw [List.isEmpty_eq_false_iff]
    intro hnil
    rw [Text.allBlank_of_dropWhile hnil] at hblank
    exact Bool.noConfusion hblank

theorem Paragraph.added_flagged (h : p.afterNewline = true) :
    p.added value = if Text.allBlank value then [] else [.text (Text.stripStart value)] := by
  unfold added addText
  simp only [h, if_true, Bool.true_and, isEmpty_stripStart]
  split
  · simp
  · simp

theorem Paragraph.added_unflagged (h : p.afterNewline = false) :
    p.added value = [.text value] := by
  simp [added, addText, h]

/-- With the flag nothing is left to be dropped; without it only a text that begins with ink has
nothing to lose. -/
theorem Paragraph.unindented_added_iff :
    Unindented value (p.added value) ↔
      p.afterNewline = true ∨ ∃ c, value.head? = some c ∧ Text.isBlank c = false := by
  cases hflag : p.afterNewline with
  | true =>
    refine iff_of_true ?_ (Or.inl rfl)
    rw [added_flagged hflag]
    cases hblank : Text.allBlank value with
    | true => exact ⟨by simp, fun _ => rfl⟩
    | false =>
      refine ⟨?_, fun h => absurd (hblank.symm.trans h) Bool.false_ne_true⟩
      intro t ht c hc
      obtain rfl : t = Text.stripStart value := by simpa using ht
      exact head?_stripStart hc
  | false =>
    rw [added_unflagged hflag]
    constructor
    · intro h
      -- Even an empty text is added as an item here.
      cases value with
      | nil => exact absurd (h.nothing rfl) (List.cons_ne_nil _ _)
      | cons c cs => exact Or.inr ⟨c, rfl, h.begins _ List.mem_cons_self c rfl⟩
    · rintro (hfalse | ⟨c, hhead, hc⟩)
      · exact absurd hfalse Bool.false_ne_true
      · refine ⟨?_, ?_⟩
        · intro t ht d hd
          obtain rfl : t = value := by simpa using ht
          obtain rfl : c = d := Option.some.inj (hhead.symm.trans hd)
          exact hc
        · intro hblank
          have hmem : c ∈ value := List.mem_of_mem_head? hhead
          exact absurd (hc.symm.trans (List.all_eq_true.mp hblank c hmem)) Bool.false_ne_true

/-- To a flagged paragraph the text is the same with and without its indentation. -/
theorem Builder.run_unindented {b : Builder} (h : b.level.paragraph.afterNewline = true)
    (ts : List Token) : b.run (.text value :: ts) = b.run (unindented value ++ ts) := by
  have hstrip : Text.stripStart (Text.stripStart value) = Text.stripStart value :=
    List.dropWhile_idempotent Text.isBlank value
  unfold unindented
  cases hblank : Text.allBlank value with
  | true =>
    have hadd : b.level.paragraph.addText value = b.level.paragraph := by
      simp [Paragraph.addText, h, Text.stripStart_of_allBlank hblank]
    have hstep : b.step (.text value) = .ok b := by
      rw [step, hadd]
      rfl
    rw [run_of_step hstep, if_pos rfl, List.nil_append]
  | false =>
    have hadd : b.level.paragraph.addText value =
        b.level.paragraph.addText (Text.stripStart value) := by
      simp only [Paragraph.addText, h, if_true, hstrip]
    rw [if_neg Bool.false_ne_true, List.singleton_append, run, run, step, step, hadd]

end Lines

/-! ## Lines of a token list -/

/-- Some paragraph begins with the item. -/
def Shows (item : Inline) (outline : List Entry) : Prop :=
  ∃ items mark, (.paragraph (item :: items), mark) ∈ outline

section Tokens

variable {b b' : Builder} {item : Inline} {t : Token} {ts : List Token}

/-- What a paragraph begins with stays, whatever comes. -/
theorem Builder.Effect.shows (h : Effect b b' t) (hb : Shows item b.outline) :
    Shows item b'.outline := by
  rcases hb with ⟨items, mark, hmem⟩
  cases h with
  | block _ houtline _ _ =>
    rw [houtline]
    exact ⟨items, mark, List.mem_append_left _ hmem⟩
  | begins _ _ _ _ houtline _ _ =>
    rw [houtline]
    exact ⟨items, mark, List.mem_append_left _ hmem⟩
  | goesOn _ _ _ _ hbefore hafter _ _ =>
    rw [hbefore] at hmem
    rw [hafter]
    rcases List.mem_append.mp hmem with hfront | hlast
    · exact ⟨items, mark, List.mem_append_left _ hfront⟩
    · obtain ⟨rfl, rfl⟩ : item :: items = _ ∧ mark = _ := by simpa using hlast
      exact ⟨_, mark, List.mem_append_right _ List.mem_cons_self⟩
  | marks _ houtline _ _ => exact ⟨items, mark, houtline ▸ hmem⟩
  | closes _ houtline _ _ => exact ⟨items, mark, houtline ▸ hmem⟩
  | breaks houtline _ _ => exact ⟨items, mark, houtline ▸ hmem⟩
  | rests _ houtline _ _ => exact ⟨items, mark, houtline ▸ hmem⟩

/-- Every token with ink adds an item. -/
theorem Builder.step_of_hasInk (hsound : t.Sound) (hink : t.hasInk = true) :
    ∃ item, Paragraph.isBlankText item = false ∧
      b.step t = .ok (b.withParagraph (b.level.paragraph.addItem item)) := by
  cases t with
  | text value =>
    have hblank : Text.allBlank value = false := by simpa [Token.hasInk] using hink
    rcases Paragraph.addText_ink b.level.paragraph hblank with ⟨kept, -, hkept, hadd⟩
    exact ⟨.text kept, hkept, by rw [step, hadd]⟩
  | reference value => exact ⟨.text value, hsound, rfl⟩
  | bold value => exact ⟨.strong value, rfl, rfl⟩
  | italic value => exact ⟨.em value, rfl, rfl⟩
  | _ => simp [Token.hasInk] at hink

/-- The first item of a paragraph is shown as soon as something has ink, be it another one. -/
theorem Builder.shows_of_hasInk (hneat : b.Neat) (hsound : t.Sound) (hink : t.hasInk = true)
    (hstep : b.step t = .ok b') (hfirst : b'.level.paragraph.items.head? = some item) :
    b'.Neat ∧ Shows item b'.outline := by
  rcases step_effect hneat hsound with ⟨b₁, hstep₁, hneat₁, -⟩
  obtain rfl : b₁ = b' := Except.ok.inj (hstep₁.symm.trans hstep)
  rcases step_of_hasInk (b := b) hsound hink with ⟨last, hlast, hadd⟩
  obtain rfl : b₁ = _ := Except.ok.inj (hstep.symm.trans hadd)
  refine ⟨hneat₁, ?_⟩
  rcases List.head?_eq_some_iff.mp hfirst with ⟨items, hitems⟩
  have hall : b.level.paragraph.items ++ [last] = item :: items := hitems
  rw [outline_addItem hlast, hall]
  exact ⟨items, b.mark, List.mem_append_right _ List.mem_cons_self⟩

/-- A text that begins a paragraph is its first item, unless nothing with ink follows. -/
theorem Builder.run_first {value : Text} (hneat : b.Neat) (hempty : b.level.paragraph = {})
    (hsound : ∀ t ∈ ts, t.Sound)
    (hink : Text.allBlank value = false ∨ ∃ t, ts.head? = some t ∧ t.hasInk = true) :
    ∃ b', b.run (.text value :: ts) = .ok b' ∧ b'.Neat ∧ Shows (.text value) b'.outline := by
  rcases step_effect hneat (t := .text value) trivial with ⟨b₁, hstep, hneat₁, -⟩
  have hfirst : b₁.level.paragraph.items = [.text value] := by
    rw [← Except.ok.inj hstep]
    simp [withParagraph, hempty, Paragraph.addText]
  rw [run_of_step hstep]
  -- White space alone is no paragraph yet; the token behind it makes it one.
  rcases hink with hblank | ⟨t, hhead, hink⟩
  · have hink : (Token.text value).hasInk = true := by simp [Token.hasInk, hblank]
    have hhead : b₁.level.paragraph.items.head? = some (.text value) := by rw [hfirst]; rfl
    have hshows := (shows_of_hasInk hneat (t := .text value) trivial hink hstep hhead).2
    exact run_preserves Effect.shows hneat₁ hshows hsound
  · rcases List.head?_eq_some_iff.mp hhead with ⟨later, rfl⟩
    have ht : t.Sound := hsound t List.mem_cons_self
    rcases step_of_hasInk (b := b₁) ht hink with ⟨item, -, hnext⟩
    have hhead : (b₁.level.paragraph.addItem item).items.head? = some (.text value) := by
      simp [Paragraph.addItem, hfirst]
    rcases shows_of_hasInk hneat₁ ht hink hnext hhead with ⟨hneat₂, hshows⟩
    rw [run_of_step hnext]
    exact run_preserves Effect.shows hneat₂ hshows fun u hu => hsound u (by simp [hu])

/-- Behind a list that has been read, only what the builder makes of the rest matters. -/
theorem parse_append_congr (hrun : Builder.run {} ts = .ok b) {us vs : List Token}
    (h : b.run (untilEof us) = b.run (untilEof vs)) : parse (ts ++ us) = parse (ts ++ vs) := by
  unfold parse untilEof
  rw [List.takeWhile_append, List.takeWhile_append]
  -- Either the end mark comes before the rest, which is then never read, or it does not.
  split
  · have hus := Builder.run_append_of_run hrun (untilEof us)
    have hvs := Builder.run_append_of_run hrun (untilEof vs)
    unfold untilEof at h hus hvs
    rw [hus, hvs, h]
  · rfl

theorem untilEof_append (heof : .eof ∉ ts) (us : List Token) :
    untilEof (ts ++ us) = ts ++ untilEof us := by
  refine List.takeWhile_append_of_pos fun t ht => ?_
  have hne : t ≠ .eof := fun h => heof (h ▸ ht)
  simpa using hne

theorem parse_append (heof : .eof ∉ ts) (hrun : Builder.run {} ts = .ok b) (us : List Token) :
    parse (ts ++ us) = b.run (untilEof us) >>= fun b' => b'.finish := by
  rw [parse, untilEof_append heof, Builder.run_append_of_run hrun]

end Tokens

/-! ## Behind a line break -/

section Behind

variable {b : Builder} {before : List Token}

/-- What comes right behind a line break finds the flag set exactly if the row is odd. -/
theorem Builder.flag_behind_newline (hrun : Builder.run {} (before ++ [.newline]) = .ok b) :
    b.level.paragraph.afterNewline = true ↔ Odd (marginAfter (before ++ [.newline])).breaks := by
  rw [(keeps_run keeps_start hrun).flag, beq_iff_eq]
  exact Nat.odd_iff.symm

/-- Behind an even row there is no paragraph: the last line break has just ended it. -/
theorem Builder.paragraph_behind_newline
    (hrun : Builder.run {} (before ++ [.newline]) = .ok b)
    (heven : Even (marginAfter (before ++ [.newline])).breaks) : b.level.paragraph = {} := by
  rw [run_append] at hrun
  rcases bind_eq_ok_iff.mp hrun with ⟨b₀, hbefore, hlast⟩
  rcases bind_eq_ok_iff.mp hlast with ⟨b₁, hnewline, hend⟩
  obtain rfl : b₁ = b := Except.ok.inj hend
  -- The row before the last line break was odd, so the flag was up and the break a second one.
  have hodd : (marginAfter before).breaks % 2 = 1 := by
    rw [marginAfter, List.foldl_append] at heven
    have hnext : Even ((marginAfter before).breaks + 1) := heven
    rw [Nat.even_add_one, Nat.not_even_iff] at hnext
    exact hnext
  have hflag : b₀.level.paragraph.afterNewline = true := by
    rw [(keeps_run keeps_start hbefore).flag, beq_iff_eq]
    exact hodd
  have hflush : b₀.addNewline = .ok b₁ := hnewline
  unfold addNewline at hflush
  dsimp only at hflush
  rw [hflag, if_pos rfl] at hflush
  exact paragraph_of_flush hflush

/-- Behind an odd row of line breaks the text might as well have been written without its
indentation. -/
theorem parse_unindented (hrun : Builder.run {} (before ++ [.newline]) = .ok b)
    (hflag : b.level.paragraph.afterNewline = true) (value : Text) (after : List Token) :
    parse (before ++ .newline :: .text value :: after) =
      parse (before ++ .newline :: (unindented value ++ after)) := by
  have heof : .eof ∉ unindented value := by
    unfold unindented
    split <;> simp
  have hsame : b.run (.text value :: untilEof after) =
      b.run (unindented value ++ untilEof after) := Builder.run_unindented hflag _
  rw [List.append_cons before _ (_ :: _), List.append_cons before _ (_ ++ _)]
  refine parse_append_congr hrun ?_
  rw [untilEof_append heof, ← hsame, untilEof_cons (by simp)]

/-- Behind an even row the text begins a paragraph as it is. -/
theorem parse_indented (hrun : Builder.run {} (before ++ [.newline]) = .ok b)
    (heven : Even (marginAfter (before ++ [.newline])).breaks) {value : Text} {after : List Token}
    (heof : .eof ∉ before) (hsound : ∀ t ∈ before ++ after, t.Sound)
    (hink : Text.allBlank value = false ∨ ∃ t, after.head? = some t ∧ t.hasInk = true) :
    ∃ elements, parse (before ++ .newline :: .text value :: after) = .ok elements ∧
      Shows (.text value) (Element.entries elements) := by
  have hempty : b.level.paragraph = {} := Builder.paragraph_behind_newline hrun heven
  have hbefore : ∀ t ∈ before ++ [.newline], t.Sound := by
    intro t ht
    rcases List.mem_append.mp ht with ht | ht
    · exact hsound t (List.mem_append_left _ ht)
    · rw [List.mem_singleton.mp ht]
      trivial
  have hafter : ∀ t ∈ untilEof after, t.Sound := fun t ht =>
    hsound t (List.mem_append_right _ ((List.takeWhile_sublist _).mem ht))
  have hneat : b.Neat := by
    rcases Builder.run_preserves (P := fun _ => True) (fun _ _ => trivial) Builder.neat_start
      trivial hbefore with ⟨b₁, hrun₁, hneat₁, -⟩
    exact Except.ok.inj (hrun₁.symm.trans hrun) ▸ hneat₁
  have hnext : Text.allBlank value = false ∨
      ∃ t, (untilEof after).head? = some t ∧ t.hasInk = true := by
    refine hink.imp_right ?_
    rintro ⟨t, hhead, ht⟩
    rcases List.head?_eq_some_iff.mp hhead with ⟨later, rfl⟩
    have hne : t ≠ .eof := by
      rintro rfl
      simp [Token.hasInk] at ht
    exact ⟨t, by rw [untilEof_cons hne]; rfl, ht⟩
  rcases Builder.run_first hneat hempty hafter hnext with ⟨b', hrun', hneat', hshows⟩
  rcases Builder.finish_neat hneat' with ⟨elements, hfinish, hentries⟩
  refine ⟨elements, ?_, hentries ▸ hshows⟩
  have heofs : .eof ∉ before ++ [.newline] := by simpa using heof
  rw [List.append_cons, parse_append heofs hrun, untilEof_cons (by simp), hrun']
  exact hfinish

end Behind

/-- Indentation is not content behind an odd number of line breaks in a row, and there it could have
been left out. Behind an even number the flag is down: the text is added with all its indentation,
which is then what a paragraph begins with. -/
theorem indentation_dropped_iff (before after : List Token) (value : Text) {b : Builder}
    (hrun : Builder.run {} (before ++ [.newline]) = .ok b) :
    let breaks := (marginAfter (before ++ [.newline])).breaks
    let added := b.level.paragraph.added value
    let parsed := parse (before ++ .newline :: .text value :: after)
    (Unindented value added ↔ Odd breaks ∨ ∃ c, value.head? = some c ∧ Text.isBlank c = false) ∧
      (Odd breaks → parsed = parse (before ++ .newline :: (unindented value ++ after))) ∧
      (Even breaks → added = [.text value] ∧
        (.eof ∉ before → (∀ t ∈ before ++ after, t.Sound) →
          (Text.allBlank value = false ∨ ∃ t, after.head? = some t ∧ t.hasInk = true) →
          ∃ elements, parsed = .ok elements ∧
            Shows (.text value) (Element.entries elements))) := by
  intro breaks added parsed
  have hflag := Builder.flag_behind_newline hrun
  refine ⟨?_, ?_, ?_⟩
  · rw [← hflag]
    exact Paragraph.unindented_added_iff
  · intro hodd
    exact parse_unindented hrun (hflag.mpr hodd) value after
  · intro heven
    refine ⟨?_, parse_indented hrun heven⟩
    have hdown : b.level.paragraph.afterNewline = false := by
      rw [Bool.eq_false_iff, ne_eq, hflag]
      exact Nat.not_odd_iff_even.mpr heven
    exact Paragraph.added_unflagged hdown

/-- A third line break, the first two with white space between them: the flag is up again, and the
line loses its indentation. -/
theorem indentation_dropped_third :
    let before : List Token := [.text ['a'], .newline, .text [' '], .newline]
    Odd (marginAfter (before ++ [.newline])).breaks ∧
      parse (before ++ [.newline, .text [' ', 'b'], .bold ['c']]) =
        parse (before ++ [.newline, .text ['b'], .bold ['c']]) := by
  intro before
  have hodd : Odd (marginAfter (before ++ [.newline])).breaks := by decide
  exact ⟨hodd, (indentation_dropped_iff before [.bold ['c']] [' ', 'b'] rfl).2.1 hodd⟩

/-- Two line breaks: the second paragraph begins with its indentation. -/
theorem indentation_kept_paragraph :
    let before : List Token := [.text ['a'], .newline]
    let value : Text := [' ', ' ', 'b']
    tokenize .lenient "a\n\n  b".toList = .ok (before ++ [.newline, .text value, .eof]) ∧
      parse (before ++ [.newline, .text value, .eof]) =
        .ok [.mk (.paragraph [.text ['a']]) {} [], .mk (.paragraph [.text value]) {} []] ∧
      ∀ b, Builder.run {} (before ++ [.newline]) = .ok b →
        ¬ Unindented value (b.level.paragraph.added value) := by
  refine ⟨by decide, rfl, ?_⟩
  rintro b hrun h
  rw [← Except.ok.inj hrun] at h
  exact absurd (h.begins [' ', ' ', 'b'] List.mem_cons_self ' ' rfl) (by decide)

end Notemark.Body
