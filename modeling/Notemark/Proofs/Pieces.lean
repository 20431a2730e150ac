import Notemark.Proofs.BlockTree
import Notemark.Proofs.ScanLoop

/-!
# Pieces of printed text

Every piece of a printed text is read as one reading, which follows all rules of strict reading
and has the token of the piece:

* `Piece.reading`, `Piece.token`: what a piece is to be read as,
* `Reading.OwnLine`: a reading that is found wherever its text stands on a line of its own,
* `Piece.Fits`: all that is known about a piece; `Piece.fits` proves it for every piece.
-/

namespace Notemark.Body

/-! ## What a piece is to be read as -/

/-- The attributes of the token of an opening tag. -/
def Opener.attributes : Opener → Attributes
  | box _ attributes => attributes.entries
  | form event attributes => attributes.entries ++ [(eventKey, event.text)]
  | loop source loopVariable => [(sourceKey, source.text), (variableKey, loopVariable.text)]
  | cond condition => [(conditionKey, condition.text)]

def Line.reading : Line → Reading
  | heading level title => .heading (level + 1) (' ' :: title.text)
  | leaf name attributes => .tag (name.name ++ attributeText attributes.entries)
  | image description source => .image description.text source.text
  | component name argument => .tag ('#' :: (name.name ++ spaced argument.text))

def Line.token : Line → Token
  | heading level title => .heading (some (level + 1 : Nat)) title.text
  | leaf name attributes => .leaf name.name attributes.entries
  | image description source => .image [(srcKey, source.text), (altKey, description.text)]
  | component name argument =>
    .component ('#' :: name.name) [(aliasKey, '#' :: name.name), (argumentKey, argument.text)]

namespace Piece

def reading : Piece → Reading
  | newline => .newline
  | line l => l.reading
  | text p => .text p.text none
  | opening o => .tag o.inner
  | closing c => .tag ('/' :: c.name)

def token : Piece → Token
  | newline => .newline
  | line l => l.token
  | text p => .text p.text
  | opening o => .opening o.container o.container.name o.attributes
  | closing c => .closing (some c) c.name

end Piece

/-! ## Readings on lines of their own -/

/-- Nothing else stands on the rest of the line. -/
def EndOfLine (t : Text) : Prop := t = [] ∨ t.head? = some '\n'

theorem EndOfLine.cases {t : Text} (h : EndOfLine t) : t = [] ∨ ∃ later, t = '\n' :: later :=
  h.imp_right fun hnewline => List.head?_eq_some_iff.mp hnewline

/-- The reading is found wherever its text stands on a line of its own. -/
def Reading.OwnLine (r : Reading) : Prop :=
  ∀ k t, k.fresh = true → EndOfLine t → readAt k (r.span ++ t) = r

theorem ownLine_newline : Reading.newline.OwnLine := fun _ _ _ _ => rfl

theorem ownLine_tag {inner : Text} (h : Transparent inner) : (Reading.tag inner).OwnLine :=
  fun k _ _ _ => readAt_tag k h

theorem lineLength_append {a t : Text} (ha : '\n' ∉ a) (ht : EndOfLine t) :
    Text.lineLength (a ++ t) = a.length := by
  unfold Text.lineLength
  rcases ht.cases with rfl | ⟨later, rfl⟩
  · rw [List.append_nil, Text.distance_eq_none_iff.mpr ha]
    rfl
  · rw [Text.distance_append_cons ha]
    rfl

/-- At the start of a line number signs begin a heading, if a blank or the end of the line
follows. -/
theorem readAt_heading {k : Cursor} {level : Nat} {rest t : Text} (hfresh : k.fresh = true)
    (hlevel : 1 ≤ level ∧ level ≤ 6) (hline : '\n' ∉ rest)
    (hrest : ∀ c, rest.head? = some c → Text.isIndent c = true) (ht : EndOfLine t) :
    readAt k ((Reading.heading level rest).span ++ t) = .heading level rest := by
  -- The signs stop before a space, a tab, a line break or the end of the text.
  have hstop : rest ++ t = [] ∨ ∃ c cs, rest ++ t = c :: cs ∧ c ≠ '#' ∧
      (c == ' ' || c == '\t' || c == '\n') = true := by
    cases rest with
    | nil =>
      refine ht.cases.imp_right ?_
      rintro ⟨later, rfl⟩
      exact ⟨'\n', later, rfl, by decide, rfl⟩
    | cons c cs =>
      have hc : c = ' ' ∨ c = '\t' := by simpa [Text.isIndent] using hrest c rfl
      refine Or.inr ⟨c, cs ++ t, rfl, ?_⟩
      rcases hc with rfl | rfl
      · exact ⟨by decide, rfl⟩
      · exact ⟨by decide, rfl⟩
  have htake : (List.replicate level '#' ++ (rest ++ t)).takeWhile (· == '#') =
      List.replicate level '#' := by
    rw [List.takeWhile_append_of_pos (by simp)]
    rcases hstop with hnil | ⟨c, cs, hcons, hc, -⟩
    · simp [hnil]
    · simp [hcons, hc]
  have hdrop : (List.replicate level '#' ++ (rest ++ t)).drop level = rest ++ t := by
    rw [List.drop_append_of_le_length (by simp), List.drop_eq_nil_of_le (by simp),
      List.nil_append]
  have hread : readAt k (List.replicate level '#' ++ (rest ++ t)) =
      readHeading k (List.replicate level '#' ++ (rest ++ t)) := by
    obtain ⟨n, rfl⟩ : ∃ n, level = n + 1 := ⟨level - 1, by omega⟩
    exact if_pos hfresh
  rw [Reading.span, List.append_assoc, hread, readHeading, htake, List.length_replicate,
    hdrop]
  refine (if_pos ?_).trans ?_
  · rw [Bool.and_eq_true]
    refine ⟨decide_eq_true hlevel.2, ?_⟩
    rcases hstop with hnil | ⟨c, cs, hcons, -, hc⟩
    · rw [hnil]
      rfl
    · rw [hcons]
      exact hc
  · rw [lineLength_append hline ht, List.take_left]

theorem ownLine_heading (level : Fin 6) (title : Title) :
    (Line.heading level title).reading.OwnLine := by
  intro k t hfresh ht
  refine readAt_heading hfresh ⟨Nat.succ_pos _, level.isLt⟩ ?_ ?_ ht
  · simpa using title.line
  · intro c hc
    rw [← Option.some.inj hc]
    rfl

/-! ## Plain text -/

/-- Behind text without square brackets no tag begins on the line. -/
theorem head?_append_ne {a t : Text} (ha : ∀ c ∈ a, c ≠ '[') (ht : EndOfLine t) :
    (a ++ t).head? ≠ some '[' := by
  intro hhead
  cases a with
  | nil =>
    rcases ht with rfl | hnewline
    · simp at hhead
    · rw [List.nil_append, hnewline] at hhead
      exact absurd (Option.some.inj hhead) (by decide)
  | cons c cs => exact ha c (by simp) (Option.some.inj hhead)

/-- A plain run goes on to the end of its line, if nothing begins on it. -/
theorem runTail_append {a t : Text} (ha : ∀ c ∈ a, c ≠ '\n' ∧ c ≠ '[' ∧ c ≠ '{' ∧ c ≠ '*')
    (ht : EndOfLine t) : runTail false (a ++ t) = a := by
  induction a with
  | nil =>
    rcases ht.cases with rfl | ⟨later, rfl⟩
    · rfl
    · rfl
  | cons c cs ih =>
    obtain ⟨hnewline, hsquare, hbrace, hstar⟩ := ha c (by simp)
    have hcs : ∀ d ∈ cs, d ≠ '\n' ∧ d ≠ '[' ∧ d ≠ '{' ∧ d ≠ '*' := fun d hd => ha d (by simp [hd])
    have himage : ((cs ++ t).head? == some '[') = false :=
      beq_eq_false_iff_ne.mpr (head?_append_ne (fun d hd => (hcs d hd).2.1) ht)
    rw [List.cons_append, runTail, himage]
    simp [hnewline, hsquare, hbrace, hstar, ih hcs]

theorem ownLine_text (p : PlainText) : (Reading.text p.text none).OwnLine := by
  intro k t _ ht
  rcases p with ⟨text, hne, hstripped, hplain⟩
  cases text with
  | nil => exact absurd rfl hne
  | cons c cs =>
    obtain ⟨hnewline, -, hsquare, hbrace, hstar, hsign⟩ := hplain c (by simp)
    have hcs : ∀ d ∈ cs, d ≠ '\n' ∧ d ≠ '[' ∧ d ≠ '{' ∧ d ≠ '*' := by
      intro d hd
      obtain ⟨h₁, -, h₂, h₃, h₄, -⟩ := hplain d (by simp [hd])
      exact ⟨h₁, h₂, h₃, h₄⟩
    have hindent : Text.isIndent c = false := by
      have hblank := Text.not_blank_head hstripped
      cases hindent : Text.isIndent c with
      | false => rfl
      | true =>
        rw [Text.isBlank_of_isIndent hindent] at hblank
        exact hblank
    have himage : (cs ++ t).head? ≠ some '[' := head?_append_ne (fun d hd => (hcs d hd).2.1) ht
    have hplainRun : plainRun k (c :: cs ++ t) = c :: cs := by
      rw [List.cons_append, plainRun, hindent, Bool.false_and, runTail_append hcs ht]
    -- The first character begins none of the constructs.
    have hread : readAt k (c :: cs ++ t) = plain k (c :: cs ++ t) none := by
      unfold readAt
      split
      · next heq => exact absurd (List.cons.inj heq).1 hnewline
      · next heq => exact absurd (List.cons.inj heq).1 hsign
      · next heq => exact absurd (List.cons.inj heq).1 hbrace
      · next heq => exact absurd (List.cons.inj heq).1 hbrace
      · next heq => exact absurd (congrArg List.head? (List.cons.inj heq).2) himage
      · next heq => exact absurd (List.cons.inj heq).1 hsquare
      · next heq => exact absurd (List.cons.inj heq).1 hstar
      · next heq => exact absurd (List.cons.inj heq).1 hstar
      · rfl
    have hspan : (Reading.text (c :: cs) none).span ++ t = c :: cs ++ t := rfl
    rw [hspan, hread, plain, hplainRun]

/-! ## Images -/

theorem takeWhile_append_cons {a t : Text} {c : Char} {p : Char → Bool}
    (ha : ∀ d ∈ a, p d = true) (hc : p c = false) : (a ++ c :: t).takeWhile p = a := by
  rw [List.takeWhile_append_of_pos ha]
  simp [hc]

theorem ownLine_image (description : ImageDescription) (source : ImageSource) :
    (Reading.image description.text source.text).OwnLine := by
  intro k t _ _
  have htext : (Reading.image description.text source.text).span ++ t =
      '!' :: '[' :: (description.text ++ ']' :: ('(' :: (source.text ++ ')' :: t))) := by
    simp [Reading.span]
  have hdescription : ∀ c ∈ description.text, (c != ']' && c != '\n') = true := by
    intro c hc
    rcases description.plain c hc with ⟨hsquare, hnewline, -⟩
    simp [hsquare, hnewline]
  have hsource : ∀ c ∈ source.text, (c != ')' && c != '\n') = true := by
    intro c hc
    rcases source.plain c hc with ⟨hround, hnewline, -⟩
    simp [hround, hnewline]
  have hparts : imageParts? ((Reading.image description.text source.text).span ++ t) =
      some (description.text, source.text) := by
    rw [htext]
    unfold imageParts?
    simp only [List.drop_succ_cons, List.drop_zero]
    rw [takeWhile_append_cons hdescription (by decide), List.drop_left]
    simp only
    rw [takeWhile_append_cons hsource (by decide), List.drop_left]
    rfl
  rw [htext] at hparts ⊢
  unfold readAt
  simp only [hparts]

/-! ## Tags -/

/-- All that is needed of the text between the brackets of a tag. -/
structure GoodTag (inner : Text) (tag : Tag) : Prop where
  transparent : Transparent inner
  quotes : openQuote? inner = none
  ofInner : Tag.ofInner inner = tag
  check : ∀ map start, checkTag map start tag = .ok ()
  noReturn : '\r' ∉ inner

/-- Text that has neither quotes nor brackets nor carriage returns. -/
def Simple (t : Text) : Prop := ∀ c ∈ t, c ≠ '"' ∧ c ≠ ']' ∧ c ≠ '\r'

section Simple

variable {a b : Text}

theorem Simple.append (ha : Simple a) (hb : Simple b) : Simple (a ++ b) := by
  intro c hc
  rcases List.mem_append.mp hc with hc | hc
  · exact ha c hc
  · exact hb c hc

theorem Simple.cons {c : Char} (hc : c ≠ '"' ∧ c ≠ ']' ∧ c ≠ '\r') (hb : Simple b) :
    Simple (c :: b) := by
  intro d hd
  rcases List.mem_cons.mp hd with rfl | hd
  · exact hc
  · exact hb d hd

theorem simple_of_elementChars (h : ∀ c ∈ a, isElementChar c = true) : Simple a := by
  intro c hc
  rcases ne_of_isElementChar (h c hc) with ⟨hquote, hsquare, -, -, hreturn, -⟩
  exact ⟨hquote, hsquare, hreturn⟩

theorem simple_of_isName (h : isName Char.isAlpha isElementChar a = true) : Simple a :=
  simple_of_elementChars (elementChars_of_isName h)

theorem Simple.transparent (h : Simple a) : Transparent a :=
  transparent_plain fun c hc => ⟨(h c hc).1, (h c hc).2.1⟩

theorem Simple.quotes (h : Simple a) : openQuote? a = none :=
  openQuote?_of_notMem fun hmem => (h _ hmem).1 rfl

theorem Simple.noReturn (h : Simple a) : '\r' ∉ a := fun hmem => (h _ hmem).2.2 rfl

/-- A tag without attributes. -/
theorem Simple.goodTag {tag : Tag} (h : Simple a) (htag : Tag.ofInner a = tag)
    (hcheck : ∀ map start, checkTag map start tag = .ok ()) : GoodTag a tag :=
  ⟨h.transparent, h.quotes, htag, hcheck, h.noReturn⟩

/-- A tag with attributes behind a text of the characters of names. -/
theorem goodTag_attributes {tag : Tag} {as : Attributes} (ha : Simple a) (hslash : '\\' ∉ a)
    (has : Writable as) (htag : Tag.ofInner (a ++ attributeText as) = tag)
    (hcheck : ∀ map start, checkTag map start tag = .ok ()) :
    GoodTag (a ++ attributeText as) tag where
  transparent := ha.transparent.append (transparent_attributeText has)
  quotes := by
    have hsilent : Silent a := silent_plain fun c hc => ⟨(ha c hc).1, fun h => hslash (h ▸ hc)⟩
    exact openQuote?_of_silent (hsilent.append (silent_attributeText has))
  ofInner := htag
  check := hcheck
  noReturn := by
    intro hmem
    rcases List.mem_append.mp hmem with hmem | hmem
    · exact ha.noReturn hmem
    · exact cr_notMem_attributeText has hmem

end Simple

theorem attributeText_start (as : Attributes) :
    attributeText as = [] ∨ (attributeText as).head? = some ' ' := by
  cases as with
  | nil => exact Or.inl rfl
  | cons a as => exact Or.inr rfl

theorem LeafName.ofName_eq (n : LeafName) : TagKind.ofName n.name = .leaf := by
  have hnone : Container.ofName? n.name = none := by
    refine List.find?_eq_none.mpr ?_
    intro c _ hc
    have hsame : c.name = n.name := by simpa using hc
    exact n.notContainer c hsame.symm
  unfold TagKind.ofName
  rw [hnone]
  exact if_neg n.notJson

theorem goodTag_closing (c : Container) : GoodTag ('/' :: c.name) (.closing c.name) := by
  refine ((simple_of_isName c.isName_name).cons (by decide)).goodTag
    (Tag.ofInner_closing c.isName_name) ?_
  intro map start
  rw [checkTag, checkElementName c.isName_name]
  rfl

theorem goodTag_component (name : Alias) (argument : Argument) :
    GoodTag ('#' :: (name.name ++ spaced argument.text)) (.component name.name argument.text) := by
  have hargument : Simple (spaced argument.text) := by
    unfold spaced
    split
    · intro c hc
      simp at hc
    · refine Simple.cons (by decide) ?_
      intro c hc
      rcases argument.plain c hc with ⟨hsquare, hquote, hreturn⟩
      exact ⟨hquote, hsquare, hreturn⟩
  refine (((simple_of_isName name.valid).append hargument).cons (by decide)).goodTag
    (Tag.ofInner_component name.valid argument.stripped) ?_
  intro map start
  rw [checkTag, checkElementName name.valid]
  rfl

theorem goodTag_leaf (name : LeafName) (attributes : AttributeList) :
    GoodTag (name.name ++ attributeText attributes.entries)
      (.opening name.name (.plain (writtenItems name.name.length attributes.entries))) := by
  refine goodTag_attributes (simple_of_isName name.valid)
    (backslash_notMem_of_elementChars (elementChars_of_isName name.valid)) attributes.writable ?_ ?_
  · rw [Tag.ofInner_opening name.valid (attributeText_start _), name.ofName_eq, Clause.ofText]
    · rw [readAll_attributeText _ attributes.writable]
    all_goals simp
  · intro map start
    rw [checkTag, checkElementName name.valid]
    exact checkAttributes_writtenItems map (start + 1) _ attributes.writable

/-! ## Opening tags of containers -/

/-- The clause of an opening tag, as it is read back. -/
structure Opener.Reads (o : Opener) (clause : Clause) : Prop where
  goodTag : GoodTag o.inner (.opening o.container.name clause)
  attributes : clause.attributes = o.attributes

theorem reads_box (kind : BoxKind) (attributes : AttributeList) :
    (Opener.box kind attributes).Reads
      (.plain (writtenItems kind.container.name.length attributes.entries)) where
  goodTag := by
    refine goodTag_attributes (simple_of_isName kind.container.isName_name)
      (backslash_notMem_of_elementChars kind.container.name_chars) attributes.writable ?_ ?_
    · rw [Tag.ofInner_opening kind.container.isName_name (attributeText_start _),
        TagKind.ofName_name]
      have hclause : Clause.ofText (.container kind.container) kind.container.name.length
          (attributeText attributes.entries) =
          .plain (Attribute.readAll kind.container.name.length
            (attributeText attributes.entries)) := by
        cases kind <;> rfl
      rw [hclause, readAll_attributeText _ attributes.writable]
      rfl
    · intro map start
      rw [checkTag, Opener.container, checkElementName kind.container.isName_name]
      exact checkAttributes_writtenItems map (start + 1) _ attributes.writable
  attributes := toAttributes_writtenItems _ attributes.writable

theorem EventName.chars (e : EventName) : ∀ c ∈ e.name, isElementChar c = true :=
  isElementChar_of_isName (fun _ => isElementChar_of_isEventHead)
    (fun _ => isElementChar_of_isEventChar) e.valid

theorem checkEvent (e : EventName) : Check.event e.text = .ok () := by
  have hblank : Text.allBlank e.text = false := rfl
  have hname : matchesName isEventHead isEventChar (e.text.drop 1) = true := by
    simp [matchesName, EventName.text, e.valid]
  have hsign : e.text.head? = some '@' := rfl
  simp only [Check.event, hblank, hsign, hname, Bool.false_eq_true, ne_eq, not_true_eq_false,
    if_false, if_true]

theorem reads_form (event : EventName) (attributes : AttributeList) :
    ∃ clause, (Opener.form event attributes).Reads clause := by
  rcases Clause.ofForm_event Container.form.name.length event.chars attributes.writable with
    ⟨from_, hclause⟩
  have hsplit : (Opener.form event attributes).inner =
      (Container.form.name ++ ' ' :: event.text) ++ attributeText attributes.entries := by
    simp [Opener.inner]
  have hsimple : Simple (Container.form.name ++ ' ' :: event.text) :=
    (simple_of_isName Container.form.isName_name).append
      (.cons (by decide) (.cons (by decide) (simple_of_elementChars event.chars)))
  have hslash : '\\' ∉ Container.form.name ++ ' ' :: event.text := by
    have hevent := backslash_notMem_of_elementChars event.chars
    have hform := backslash_notMem_of_elementChars Container.form.name_chars
    simp [EventName.text, hevent, hform]
  refine ⟨.form event.text (writtenItems from_ attributes.entries), ?_, ?_⟩
  · rw [hsplit]
    refine goodTag_attributes hsimple hslash attributes.writable ?_ ?_
    · rw [List.append_assoc, Tag.ofInner_opening Container.form.isName_name (Or.inr rfl),
        TagKind.ofName_name]
      exact congrArg _ hclause
    · intro map start
      have hform := checkElementName Container.form.isName_name
      simp only [checkTag, Opener.container, hform, checkClause, checkEvent event]
      exact checkAttributes_writtenItems map (start + 1) _ attributes.writable
  -- The event is stored under a key that no attribute has.
  · have hfresh : eventKey ∉ attributes.entries.map (·.1) := by
      intro hmem
      rcases List.mem_map.mp hmem with ⟨a, ha, hname⟩
      exact (attributes.writable.reserved a ha).2 hname
    rw [Clause.attributes, toAttributes_writtenItems _ attributes.writable,
      set_of_notMem event.text hfresh]
    rfl

/-- The characters of a loop variable are those of names, and the dollar sign. -/
theorem LoopVariable.chars (v : LoopVariable) : ∀ c ∈ v.text, isElementChar c = true ∨ c = '$' := by
  have hchar : ∀ c, isLoopChar c = true → isElementChar c = true ∨ c = '$' := by
    intro c hc
    simp only [isLoopChar, Bool.or_eq_true, beq_iff_eq] at hc
    rcases hc with (hc | rfl) | rfl
    · exact Or.inl (by simp [isElementChar, hc])
    · exact Or.inl rfl
    · exact Or.inr rfl
  have hhead : ∀ c, isLoopHead c = true → isElementChar c = true ∨ c = '$' := by
    intro c hc
    simp only [isLoopHead, Bool.or_eq_true, beq_iff_eq] at hc
    rcases hc with (hc | rfl) | rfl
    · exact Or.inl (isElementChar_of_isAlpha hc)
    · exact Or.inl rfl
    · exact Or.inr rfl
  have hname : ∀ c ∈ v.name, isElementChar c = true ∨ c = '$' := by
    have hvalid := v.valid
    cases hn : v.name with
    | nil => simp
    | cons d ds =>
      rw [hn, isName, Bool.and_eq_true, List.all_eq_true] at hvalid
      intro c hc
      rcases List.mem_cons.mp hc with rfl | hc
      · exact hhead c hvalid.1
      · exact hchar c (hvalid.2 c hc)
  intro c hc
  unfold LoopVariable.text at hc
  split at hc
  · rcases List.mem_cons.mp hc with rfl | hc
    · exact Or.inr rfl
    · exact hname c hc
  · exact hname c hc

theorem LoopVariable.ne_nil (v : LoopVariable) : v.text ≠ [] := by
  unfold LoopVariable.text
  split
  · simp
  · exact ne_nil_of_isName v.valid

theorem LoopVariable.not_blank (v : LoopVariable) : ∀ c ∈ v.text, Text.isBlank c = false := by
  intro c hc
  rcases v.chars c hc with hc | rfl
  · exact not_blank_of_isElementChar hc
  · decide

theorem LoopVariable.simple (v : LoopVariable) : Simple v.text := by
  intro c hc
  rcases v.chars c hc with hc | rfl
  · rcases ne_of_isElementChar hc with ⟨hquote, hsquare, -, -, hreturn, -⟩
    exact ⟨hquote, hsquare, hreturn⟩
  · decide

theorem checkLoop (source : LoopSource) (v : LoopVariable) :
    Check.loop source.text v.text = .ok () := by
  have hblank : Text.allBlank v.text = false :=
    Text.allBlank_eq_false_of_strip (Text.strip_of_not_blank v.not_blank) v.ne_nil
  have hbare : (if v.text.head? = some '$' then v.text.drop 1 else v.text) = v.name := by
    unfold LoopVariable.text
    cases hdollar : v.dollar with
    | true => simp
    | false => simp [v.bare hdollar]
  have hname : matchesName isLoopHead isLoopChar v.name = true := by
    simp [matchesName, v.valid]
  simp only [Check.loop, hbare, hname, hblank]
  simp [LoopSource.text]

theorem LoopSource.not_blank (s : LoopSource) : ∀ c ∈ s.text, Text.isBlank c = false := by
  intro c hc
  rcases List.mem_cons.mp hc with rfl | hc
  · decide
  · exact (s.plain c hc).1

theorem LoopSource.simple (s : LoopSource) : Simple s.text := by
  refine Simple.cons (by decide) ?_
  intro c hc
  rcases s.plain c hc with ⟨hblank, hsquare, hquote⟩
  refine ⟨hquote, hsquare, ?_⟩
  rintro rfl
  exact absurd hblank (by decide)

theorem reads_loop (source : LoopSource) (v : LoopVariable) :
    (Opener.loop source v).Reads (.each source.text v.text) where
  goodTag := by
    have hsimple : Simple (Opener.loop source v).inner :=
      (simple_of_isName Container.each.isName_name).append
        (.cons (by decide) (source.simple.append
          (.cons (by decide) (.cons (by decide) (.cons (by decide)
            (.cons (by decide) v.simple))))))
    refine hsimple.goodTag ?_ ?_
    · have hstrip := Text.strip_of_not_blank v.not_blank
      rw [Opener.inner, Tag.ofInner_opening Container.each.isName_name (Or.inr rfl),
        TagKind.ofName_name]
      exact congrArg _ (Clause.ofEach_as rfl source.not_blank hstrip v.ne_nil)
    · intro map start
      have heach := checkElementName Container.each.isName_name
      simp only [checkTag, Opener.container, heach, checkClause, checkLoop source v]
      rfl
  attributes := rfl

theorem reads_cond (condition : Condition) :
    (Opener.cond condition).Reads (.cond condition.text) where
  goodTag := by
    have hcondition : Simple condition.text := by
      intro c hc
      rcases condition.plain c hc with ⟨hsquare, hquote, hreturn⟩
      exact ⟨hquote, hsquare, hreturn⟩
    have hsimple : Simple (Opener.cond condition).inner :=
      (simple_of_isName Container.cond.isName_name).append (.cons (by decide) hcondition)
    refine hsimple.goodTag ?_ ?_
    · have hstrip : Text.strip (' ' :: condition.text) = condition.text := by
        rw [Text.strip_cons_blank (by decide), condition.stripped]
      rw [Opener.inner, Tag.ofInner_opening Container.cond.isName_name (Or.inr rfl),
        TagKind.ofName_name, Clause.ofText, hstrip]
      rfl
    · intro map start
      have hcond := checkElementName Container.cond.isName_name
      have hsense : Check.condition condition.text = .ok () := by
        rcases condition.notPair with ⟨hbraces, hsquares, hrounds⟩
        simp [Check.condition, condition.stripped, condition.ne_nil, hbraces, hsquares, hrounds]
      simp only [checkTag, Opener.container, hcond, checkClause, hsense]
      rfl
  attributes := rfl

/-- Every opening tag is read back. -/
theorem Opener.exists_reads (o : Opener) : ∃ clause, o.Reads clause := by
  cases o with
  | box kind attributes => exact ⟨_, reads_box kind attributes⟩
  | form event attributes => exact reads_form event attributes
  | loop source loopVariable => exact ⟨_, reads_loop source loopVariable⟩
  | cond condition => exact ⟨_, reads_cond condition⟩

/-! ## All pieces -/

/-- What is known about a piece: its text is read as its reading, which strict reading accepts and
which has the token of the piece. Plain text has its token only at the end of its line. -/
structure Piece.Fits (p : Piece) : Prop where
  span : p.reading.span = p.print
  ownLine : p.reading.OwnLine
  check : ∀ map offset, Placed.check map ⟨offset, p.reading⟩ = .ok ()
  token : p.reading.token? = if p.token.isText then none else some p.token
  settled : Text.Settled p.print

/-- A good tag is a good piece. -/
theorem fits_of_goodTag {p : Piece} {inner : Text} {tag : Tag} (h : GoodTag inner tag)
    (hreading : p.reading = .tag inner) (hprint : p.print = bracketed inner)
    (htoken : tag.token = p.token) (htext : p.token.isText = false) : p.Fits where
  span := by
    rw [hreading, hprint]
    rfl
  ownLine := by
    rw [hreading]
    exact ownLine_tag h.transparent
  check := by
    intro map offset
    rw [hreading]
    simp only [Placed.check, checkQuotes, h.quotes, h.ofInner]
    exact h.check map offset
  token := by
    rw [hreading, htext, Reading.token?, h.ofInner, htoken]
    rfl
  settled := by
    rw [hprint]
    refine Text.settled_of_notMem ?_
    simp [bracketed, h.noReturn]

theorem fits_heading (level : Fin 6) (title : Title) :
    (Piece.line (.heading level title)).Fits where
  span := rfl
  ownLine := ownLine_heading level title
  check := fun _ _ => rfl
  token := by
    have hstrip : Text.strip (' ' :: title.text) = title.text := by
      rw [Text.strip_cons_blank (by decide), title.stripped]
    simp [Piece.reading, Line.reading, Reading.token?, hstrip, Piece.token, Line.token,
      Token.isText]
  settled := by
    have hsigns : '\r' ∉ List.replicate (level.val + 1) '#' ++ [' '] := by
      simp
    -- A title may hold carriage returns, but it does not end in one.
    have htitle : Text.Settled title.text := by
      refine Text.settled_of_line title.line ?_
      intro hlast
      exact absurd (Text.not_blank_of_getLast? title.stripped hlast) (by decide)
    have hprint : (Piece.line (.heading level title)).print =
        (List.replicate (level.val + 1) '#' ++ [' ']) ++ title.text := by
      simp [Piece.print, Line.print]
    rw [hprint]
    exact (Text.settled_of_notMem hsigns).append htitle

theorem fits_image (description : ImageDescription) (source : ImageSource) :
    (Piece.line (.image description source)).Fits where
  span := rfl
  ownLine := ownLine_image description source
  check := fun _ _ => rfl
  token := by
    simp [Piece.reading, Line.reading, Reading.token?, source.stripped, Piece.token, Line.token,
      Token.isText]
  settled := by
    have hdescription : '\r' ∉ description.text := fun hmem => (description.plain _ hmem).2.2 rfl
    have hsource : '\r' ∉ source.text := fun hmem => (source.plain _ hmem).2.2 rfl
    refine Text.settled_of_notMem ?_
    simp [Piece.print, Line.print, hdescription, hsource]

theorem fits_text (p : PlainText) : (Piece.text p).Fits where
  span := rfl
  ownLine := ownLine_text p
  check := fun _ _ => rfl
  token := rfl
  settled := Text.settled_of_notMem fun hmem => (p.plain _ hmem).2.1 rfl

theorem fits_newline : Piece.newline.Fits where
  span := rfl
  ownLine := ownLine_newline
  check := fun _ _ => rfl
  token := rfl
  settled := Text.settled_of_notMem (by decide)

/-- Every piece is read back. -/
theorem Piece.fits (p : Piece) : p.Fits := by
  cases p with
  | newline => exact fits_newline
  | text p => exact fits_text p
  | opening o =>
    rcases o.exists_reads with ⟨clause, hreads⟩
    refine fits_of_goodTag hreads.goodTag rfl rfl ?_ rfl
    simp only [Tag.token, TagKind.ofName_name, hreads.attributes, Piece.token]
  | closing c =>
    refine fits_of_goodTag (goodTag_closing c) rfl rfl ?_ rfl
    cases c <;> rfl
  | line l =>
    cases l with
    | heading level title => exact fits_heading level title
    | image description source => exact fits_image description source
    | leaf name attributes =>
      refine fits_of_goodTag (goodTag_leaf name attributes) rfl rfl ?_ rfl
      simp only [Tag.token, name.ofName_eq, Clause.attributes,
        toAttributes_writtenItems _ attributes.writable, Piece.token, Line.token]
    | component name argument =>
      exact fits_of_goodTag (goodTag_component name argument) rfl rfl rfl rfl

end Notemark.Body
