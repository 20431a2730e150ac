import Notemark.Proofs.Breaches
import Notemark.Proofs.Rules

/-!
# The places of faults

Strict reading reports a fault with a line and a column. This module says which construct stands
there:

* `lineColumn`: the position behind a text, counted from its line feeds alone,
* `position_ofText`: the line starts of a text lead to the same positions,
* `OpensRun`: a quote that opens a quoted run without an end,
* `Blames`: the construct for which a fault is reported, and the offset that belongs to it,
* `Fault.Marks`, `Blames.located`: what stands at that offset,
* `strict_error_points`: every error is reported at the construct that caused it.
-/

namespace Notemark.Body

/-! ## Positions -/

/-- The position behind a text: one line more than it has line feeds, one column more than there
are characters after the last of them. -/
def lineColumn (before : Text) : Position :=
  ⟨before.count '\n' + 1, (before.reverse.takeWhile (· != '\n')).length + 1⟩

section Position

variable {t : Text} {o : Nat}

theorem lineColumn_newline (t : Text) :
    lineColumn (t ++ ['\n']) = ⟨(lineColumn t).line + 1, 1⟩ := by
  simp [lineColumn]

theorem lineColumn_other {c : Char} (hc : c ≠ '\n') (t : Text) :
    lineColumn (t ++ [c]) = ⟨(lineColumn t).line, (lineColumn t).column + 1⟩ := by
  simp [lineColumn, hc]

theorem lt_of_mem_startsAfter {base start : Nat} (h : start ∈ SourceMap.startsAfter base t) :
    base < start := by
  induction t generalizing base with
  | nil => simp [SourceMap.startsAfter] at h
  | cons c cs ih =>
    unfold SourceMap.startsAfter at h
    split at h
    · rcases List.mem_cons.mp h with rfl | h
      · exact Nat.lt_succ_self base
      · exact Nat.lt_of_succ_lt (ih h)
    · exact Nat.lt_of_succ_lt (ih h)

/-- On the way along the line starts the last one passed is that of the current line. -/
theorem positionFrom_startsAfter {line start : Nat} (passed : Text) (hstart : start ≤ passed.length)
    (hpassed : lineColumn passed = ⟨line, passed.length - start + 1⟩) (ho : passed.length ≤ o)
    (hlen : o ≤ passed.length + t.length) :
    SourceMap.positionFrom line start o (SourceMap.startsAfter passed.length t) =
      lineColumn (passed ++ t.take (o - passed.length)) := by
  induction t generalizing line start passed with
  | nil =>
    obtain rfl : o = passed.length := Nat.le_antisymm hlen ho
    simp [SourceMap.startsAfter, SourceMap.positionFrom, hpassed]
  | cons c cs ih =>
    rcases Nat.eq_or_lt_of_le ho with rfl | hlt
    · -- All starts that are left lie beyond the offset.
      rw [Nat.sub_self, List.take_zero, List.append_nil, hpassed]
      cases hstarts : SourceMap.startsAfter passed.length (c :: cs) with
      | nil => rfl
      | cons next later =>
        have hnext : passed.length < next :=
          lt_of_mem_startsAfter (hstarts ▸ List.mem_cons_self)
        exact if_neg (Nat.not_le_of_lt hnext)
    · have hlength : (passed ++ [c]).length = passed.length + 1 := by simp
      have htake : passed ++ (c :: cs).take (o - passed.length) =
          (passed ++ [c]) ++ cs.take (o - (passed ++ [c]).length) := by
        obtain ⟨n, hn⟩ : ∃ n, o - passed.length = n + 1 := ⟨o - passed.length - 1, by omega⟩
        have hn' : o - (passed ++ [c]).length = n := by omega
        rw [hn, hn', List.take_succ_cons, List.append_assoc, List.singleton_append]
      rw [htake]
      unfold SourceMap.startsAfter
      by_cases hc : c = '\n'
      · rw [if_pos hc, ← hlength]
        unfold SourceMap.positionFrom
        rw [if_pos (by omega)]
        refine ih (passed ++ [c]) (Nat.le_refl _) ?_ (by omega) (by simp at hlen ⊢; omega)
        rw [hc, lineColumn_newline, hpassed, Nat.sub_self]
      · rw [if_neg hc, ← hlength]
        refine ih (passed ++ [c]) (by omega) ?_ (by omega) (by simp at hlen ⊢; omega)
        rw [lineColumn_other hc, hpassed, hlength]
        have hcolumn : passed.length - start + 1 + 1 = passed.length + 1 - start + 1 := by omega
        rw [hcolumn]

/-- The position of an offset is that behind the text before it. -/
theorem position_ofText (ho : o ≤ t.length) :
    (SourceMap.ofText t).position o = lineColumn (t.take o) := by
  have hinside : ¬ (SourceMap.ofText t).finish ≤ o := Nat.not_le_of_lt (Nat.lt_succ_of_le ho)
  unfold SourceMap.position
  rw [if_neg hinside]
  exact positionFrom_startsAfter [] (Nat.zero_le 0) rfl (Nat.zero_le o) (by simpa using ho)

example : (SourceMap.ofText ['a', 'b', '\n', 'c', 'd']).position 3 = ⟨2, 1⟩ := by decide

end Position

/-! ## Open quotes -/

/-- How many quotes of a text count, which are those without a backslash before them. -/
def liveQuotes (before : Option Char) : Text → Nat
  | [] => 0
  | c :: cs => (if c = '"' ∧ before ≠ some '\\' then 1 else 0) + liveQuotes (some c) cs

/-- The quote at the index counts and opens a quoted run: all quotes before it are paired, and none
that counts follows. -/
def OpensRun (t : Text) (index : Nat) : Prop :=
  ∃ before after, t = before ++ '"' :: after ∧ before.length = index ∧
    before.getLast? ≠ some '\\' ∧ 2 ∣ liveQuotes none before ∧ liveQuotes (some '"') after = 0

section Quotes

variable {t : Text} {index i : Nat} {previous : Option Char} {opened : Option Nat}

/-- A quote that counts opens a run, or ends the one that is open. -/
theorem openQuoteFrom_live {c : Char} {cs : Text} (hc : c = '"' ∧ previous ≠ some '\\') :
    openQuoteFrom index previous opened (c :: cs) =
      openQuoteFrom (index + 1) (some c) (if opened.isSome then none else some index) cs := by
  have hlive : (c == '"' && previous != some '\\') = true := by simpa using hc
  simp only [openQuoteFrom, hlive, if_true]
  cases opened <;> rfl

theorem openQuoteFrom_other {c : Char} {cs : Text} (hc : ¬ (c = '"' ∧ previous ≠ some '\\')) :
    openQuoteFrom index previous opened (c :: cs) =
      openQuoteFrom (index + 1) (some c) opened cs := by
  have hlive : ¬ (c == '"' && previous != some '\\') = true := by simpa using hc
  simp only [openQuoteFrom, if_neg hlive]

theorem getLast?_cons_or (c : Char) (t : Text) (previous : Option Char) :
    (c :: t).getLast?.or previous = t.getLast?.or (some c) := by
  rw [List.getLast?_cons]
  cases t.getLast? <;> rfl

/-- Either the quote that was open stays open, or a later one is opened. In the second case the
quotes up to there, together with the open one, are paired. -/
theorem openQuoteFrom_eq_some (h : openQuoteFrom index previous opened t = some i) :
    (opened = some i ∧ liveQuotes previous t = 0) ∨
    ∃ before after, t = before ++ '"' :: after ∧ index + before.length = i ∧
      before.getLast?.or previous ≠ some '\\' ∧
      2 ∣ liveQuotes previous before + (if opened.isSome then 1 else 0) ∧
      liveQuotes (some '"') after = 0 := by
  induction t generalizing index previous opened with
  | nil => exact Or.inl ⟨h, rfl⟩
  | cons c cs ih =>
    by_cases hc : c = '"' ∧ previous ≠ some '\\'
    · rw [openQuoteFrom_live hc] at h
      rcases ih h with ⟨hopened, hnone⟩ | ⟨before, after, rfl, hi, hlast, heven, hafter⟩
      · -- Nothing is opened later, so it is this quote that stays open.
        cases opened with
        | some j => simp at hopened
        | none =>
          have hindex : index = i := by simpa using hopened
          refine Or.inr ⟨[], cs, by rw [hc.1]; rfl, hindex, hc.2, ?_, hc.1 ▸ hnone⟩
          simp [liveQuotes]
      · refine Or.inr ⟨c :: before, after, rfl, ?_, ?_, ?_, hafter⟩
        · rw [← hi, List.length_cons]
          omega
        · rwa [getLast?_cons_or]
        · rw [liveQuotes, if_pos hc]
          cases opened <;> simp at heven ⊢ <;> omega
    · rw [openQuoteFrom_other hc] at h
      rcases ih h with ⟨hopened, hnone⟩ | ⟨before, after, rfl, hi, hlast, heven, hafter⟩
      · exact Or.inl ⟨hopened, by rw [liveQuotes, if_neg hc, hnone]⟩
      · refine Or.inr ⟨c :: before, after, rfl, ?_, ?_, ?_, hafter⟩
        · rw [← hi, List.length_cons]
          omega
        · rwa [getLast?_cons_or]
        · rwa [liveQuotes, if_neg hc, Nat.zero_add]

theorem opensRun_of_openQuote? (h : openQuote? t = some i) : OpensRun t i := by
  rcases openQuoteFrom_eq_some h with ⟨hnone, -⟩ | ⟨before, after, ht, hi, hlast, heven, hafter⟩
  · simp at hnone
  · exact ⟨before, after, ht, by simpa using hi, by simpa using hlast, by simpa using heven, hafter⟩

end Quotes

/-! ## Constructs at fault -/

/-- What is wrong with the clause of a tag, apart from its attributes. -/
def Clause.Breaks (fault : Fault) : Clause → Prop
  | plain _ => False
  | form event _ => Check.event event = .error fault
  | each source loopVariable => Check.loop source loopVariable = .error fault
  | cond condition => Check.condition condition = .error fault
  | json shown => Check.jsonVariable shown = .error fault

/-- What is wrong with the name of a tag or with its clause. -/
def Tag.Breaks (fault : Fault) : Tag → Prop
  | closing name | component name _ => Check.elementName name = .error fault
  | opening name clause => Check.elementName name = .error fault ∨ clause.Breaks fault

/-- A construct that begins at the offset is broken. -/
def BrokenAt (content : Text) (offset : Nat) (breach : Breach) : Prop :=
  (∃ run, ⟨offset, .text run (some breach)⟩ ∈ readings content) ∧
    breach.Fits (content.drop offset)

/-- The container tags and closing tags among readings of the content. -/
def tagsOf (content : Text) (ps : List Placed) : List (Bracket (OpenTag Container) ClosingTag) :=
  ps.filterMap (Placed.bracket? (SourceMap.ofText content))

/-- The construct for which a fault is reported, and the offset that the report points to. -/
inductive Blames (content : Text) : Fault → Nat → Prop where
  /-- The bracket of a tag whose name or clause is wrong. -/
  | tag {o : Nat} {inner : Text} {fault : Fault} : ⟨o, .tag inner⟩ ∈ readings content →
      (Tag.ofInner inner).Breaks fault → Blames content fault o
  /-- The first character of an attribute. -/
  | attributeItem {o start : Nat} {inner tagName lead list name : Text} {clause : Clause}
      {value : Option Text} {quoted : Bool} {fault : Fault} :
      ⟨start, .tag inner⟩ ∈ readings content → Tag.ofInner inner = .opening tagName clause →
        inner = tagName ++ (lead ++ list) → clause.Lead lead →
          Attribute.StandsIn (start + 1 + (tagName.length + lead.length)) list
            (.pair name value quoted o) →
          Check.attributeItem name value quoted = .error fault → Blames content fault o
  /-- A quote in a tag. -/
  | tagQuote {start index : Nat} {inner : Text} : ⟨start, .tag inner⟩ ∈ readings content →
      OpensRun inner index → Blames content .unclosedQuote (start + 1 + index)
  /-- A quote in a style marker. -/
  | styleQuote {start index : Nat} {line : Text} : BrokenAt content start (.styleMarker line) →
      OpensRun line index → Blames content .unclosedQuote (start + index)
  /-- The bracket of a tag that has no end. -/
  | element {o : Nat} : BrokenAt content o .tag → Blames content .unclosedElement o
  /-- The brace of a marker that has no end. -/
  | idMarker {o : Nat} : BrokenAt content o .idMarker → Blames content .unterminatedIdMarker o
  /-- The brace of a marker without an id. -/
  | emptyId {o : Nat} {inner : Text} : ⟨o, .idMarker inner⟩ ∈ readings content →
      Text.allBlank inner = true → Blames content .emptyIdMarker o
  /-- The brace of a style marker. -/
  | style {o : Nat} {line : Text} : BrokenAt content o (.styleMarker line) →
      content[o + styleHead.length]? = some '"' → Blames content .malformedStyleMarker o
  /-- The place where the quote of a style marker is missing. -/
  | unquotedClass {start : Nat} {line : Text} : BrokenAt content start (.styleMarker line) →
      content[start + styleHead.length]? ≠ some '"' →
        Blames content .unquotedClass (start + styleHead.length)
  /-- The brace of a reference that is not closed on its line. -/
  | reference {o : Nat} {line : Text} : BrokenAt content o (.reference line) →
      Blames content (.unbalancedReference line) o
  /-- The bracket of a closing tag where nothing is open. -/
  | unmatched {o : Nat} {before after : List Placed} {inner name : Text} :
      readings content = before ++ ⟨o, .tag inner⟩ :: after → Tag.ofInner inner = .closing name →
        Balanced SameName (tagsOf content before) → Blames content (.unmatchedClosingTag name) o
  /-- The bracket of a closing tag where another tag has to be closed first. -/
  | mismatched {o : Nat} {before after : List Placed} {inner name : Text}
      {outer : List (OpenTag Container)} {innermost : OpenTag Container} :
      readings content = before ++ ⟨o, .tag inner⟩ :: after → Tag.ofInner inner = .closing name →
        Leaves SameName (tagsOf content before) (outer ++ [innermost]) → innermost.name ≠ name →
          Blames content (.mismatchedTag name innermost.name innermost.position) o
  /-- The bracket of a container tag that is still open at the end. -/
  | unclosed {o : Nat} {before after : List Placed} {inner name : Text} {clause : Clause}
      {others : List (OpenTag Container)} :
      readings content = before ++ ⟨o, .tag inner⟩ :: after →
        Tag.ofInner inner = .opening name clause → (TagKind.ofName name).isContainer = true →
          Balanced SameName (tagsOf content before) →
            Leaves SameName (tagsOf content after) others → Blames content (.unclosedTag name) o

/-! ## Characters at fault -/

/-- What a fault of each kind points to, given the text before the offset and the text from there
on: a bracket, a brace, a quote, the name of an attribute, or the end of `styleHead`. -/
def Fault.Marks (before after : Text) : Fault → Prop
  | unmatchedClosingTag _ | mismatchedTag .. | unclosedTag _ | emptyElementName
  | elementNameNewline _ | invalidElementName _ | emptyCondition | invalidCondition _
  | invalidLoopSource _ | missingLoopVariable | invalidLoopVariable _ | missingFormEvent
  | invalidFormEvent _ | invalidEventName _ | emptyJsonVariable | unclosedElement =>
    after.head? = some '['
  | emptyIdMarker | emptyReference | unbalancedReference _ | unterminatedIdMarker
  | malformedStyleMarker => after.head? = some '{'
  | unclosedQuote => after.head? = some '"'
  | invalidAttributeName name | unquotedAttribute name => after ≠ [] ∧ name <+: after
  | unquotedClass => styleHead <:+ before ∧ after.head? ≠ some '"'

/-- Whatever fault the verdict finds, it points to the right thing. -/
def Marked (before after : Text) (verdict : Except Fault Unit) : Prop :=
  ∀ fault, verdict = .error fault → fault.Marks before after

section Marked

variable {before after : Text} {verdict verdict' : Except Fault Unit} {fault : Fault}

theorem Marked.ok : Marked before after (.ok ()) := fun _ h => by simp at h

theorem Marked.error (h : fault.Marks before after) : Marked before after (.error fault) := by
  intro fault' hfault
  exact Except.error.inj hfault ▸ h

theorem Marked.ite {p : Prop} [Decidable p] (h : Marked before after verdict)
    (h' : Marked before after verdict') :
    Marked before after (if p then verdict else verdict') := by
  split
  · exact h
  · exact h'

theorem marked_elementName (h : after.head? = some '[') (name : Text) :
    Marked before after (Check.elementName name) :=
  .ite (.error h) (.ite (.error h) (.ite .ok (.error h)))

theorem marked_event (h : after.head? = some '[') (event : Text) :
    Marked before after (Check.event event) :=
  .ite (.error h) (.ite (.error h) (.ite .ok (.error h)))

theorem marked_loop (h : after.head? = some '[') (source loopVariable : Text) :
    Marked before after (Check.loop source loopVariable) :=
  .ite (.error h) (.ite (.error h) (.ite .ok (.error h)))

theorem marked_condition (h : after.head? = some '[') (condition : Text) :
    Marked before after (Check.condition condition) :=
  .ite (.error h) (.ite (.error h) .ok)

theorem marked_jsonVariable (h : after.head? = some '[') (shown : Text) :
    Marked before after (Check.jsonVariable shown) :=
  .ite (.error h) .ok

theorem marked_attributeItem {name : Text} (hne : after ≠ []) (hname : name <+: after)
    (value : Option Text) (quoted : Bool) :
    Marked before after (Check.attributeItem name value quoted) :=
  .ite (.error ⟨hne, hname⟩) (.ite (.error ⟨hne, hname⟩) .ok)

theorem Tag.Breaks.marks {tag : Tag} (h : tag.Breaks fault) (hhead : after.head? = some '[') :
    fault.Marks before after := by
  cases tag with
  | closing name => exact marked_elementName hhead name fault h
  | component name argument => exact marked_elementName hhead name fault h
  | opening name clause =>
    rcases h with h | h
    · exact marked_elementName hhead name fault h
    · cases clause with
      | plain items => exact h.elim
      | form event items => exact marked_event hhead event fault h
      | each source loopVariable => exact marked_loop hhead source loopVariable fault h
      | cond condition => exact marked_condition hhead condition fault h
      | json shown => exact marked_jsonVariable hhead shown fault h

end Marked

/-! ## Offsets of constructs -/

section Offsets

variable {content inner : Text} {o start : Nat}

/-- What follows the beginning of a text that stands in the content. -/
theorem prefix_drop {a b : Text} (h : a ++ b <+: content.drop start) :
    b <+: content.drop (start + a.length) := by
  rcases h with ⟨later, hlater⟩
  refine ⟨later, ?_⟩
  rw [← List.drop_drop, ← hlater, List.append_assoc, List.drop_left]

theorem head?_of_stands {a t : Text} {c : Char} (h : c :: a <+: t) : t.head? = some c := by
  rcases h with ⟨later, rfl⟩
  rfl

/-- A tag stands at the offset of its reading, and its text behind the bracket. -/
theorem tag_stands (h : ⟨start, .tag inner⟩ ∈ readings content) :
    '[' :: (inner ++ [']']) <+: content.drop start := by
  rcases covers_of_mem_readings h with ⟨-, later, hlater⟩
  exact ⟨later, hlater.symm⟩

theorem inner_stands (h : ⟨start, .tag inner⟩ ∈ readings content) :
    inner <+: content.drop (start + 1) := by
  have hrest : inner ++ [']'] <+: content.drop (start + 1) :=
    prefix_drop (a := ['[']) (tag_stands h)
  exact (List.prefix_append inner [']']).trans hrest

theorem head?_tag (h : ⟨start, .tag inner⟩ ∈ readings content) :
    (content.drop start).head? = some '[' :=
  head?_of_stands (tag_stands h)

theorem head?_idMarker (h : ⟨start, .idMarker inner⟩ ∈ readings content) :
    (content.drop start).head? = some '{' := by
  rcases covers_of_mem_readings h with ⟨-, later, hlater⟩
  rw [hlater]
  rfl

/-- The character that opens a broken construct. -/
def Breach.opener : Breach → Char
  | tag => '['
  | idMarker | styleMarker _ | reference _ => '{'

theorem BrokenAt.head? {breach : Breach} (h : BrokenAt content o breach) :
    (content.drop o).head? = some breach.opener := by
  have hfits := h.2
  cases breach with
  | tag => exact hfits.1
  | idMarker => exact head?_of_stands hfits.1
  | styleMarker line => exact head?_of_stands hfits.1
  | reference line =>
    rcases cons_of_isReference hfits.1 with ⟨c, t, ht, -, -⟩
    rw [ht]
    rfl

theorem BrokenAt.line_stands {line : Text} (h : BrokenAt content o (.styleMarker line)) :
    line <+: content.drop o := by
  rw [h.2.2.2]
  exact List.take_prefix _ _

/-- An open quote of a text that stands in the content. -/
theorem OpensRun.head? {t : Text} {index : Nat} (h : OpensRun t index)
    (ht : t <+: content.drop start) : (content.drop (start + index)).head? = some '"' := by
  rcases h with ⟨before, after, rfl, rfl, -⟩
  exact head?_of_stands (prefix_drop ht)

/-- An attribute begins at its offset, with its name if it has one. -/
theorem prefix_of_standsIn {list name : Text} {value : Option Text} {quoted : Bool}
    (h : Attribute.StandsIn start list (.pair name value quoted o))
    (hlist : list <+: content.drop start) :
    content.drop o ≠ [] ∧ name <+: content.drop o := by
  rcases h with ⟨upTo, rest, rfl, hends, -⟩
  cases hends with
  | @pair before _ w _ _ hbefore hname hwritten hne =>
    have hitem : name ++ w <+: content.drop (start + before.length) :=
      prefix_drop ((List.prefix_append _ rest).trans hlist)
    refine ⟨fun hnil => hne ?_, (List.prefix_append name w).trans hitem⟩
    rw [hnil] at hitem
    exact List.prefix_nil.mp hitem

end Offsets

namespace Blames

variable {content : Text} {o : Nat} {fault : Fault}

theorem mem_of_split {before after : List Placed} {p : Placed}
    (h : readings content = before ++ p :: after) : p ∈ readings content := by
  rw [h]
  exact List.mem_append_right before List.mem_cons_self

/-- A fault that points to a character of the content lies inside it. -/
theorem located_of_head? {c : Char} (hhead : (content.drop o).head? = some c)
    (hmarks : (content.drop o).head? = some c → fault.Marks (content.take o) (content.drop o)) :
    o ≤ content.length ∧ fault.Marks (content.take o) (content.drop o) := by
  rw [List.head?_drop] at hhead
  refine ⟨Nat.le_of_lt (List.getElem?_eq_some_iff.mp hhead).1, hmarks ?_⟩
  rwa [List.head?_drop]

/-- The offset lies in the content, and there stands what the fault points to. -/
theorem located (h : Blames content fault o) :
    o ≤ content.length ∧ fault.Marks (content.take o) (content.drop o) := by
  cases h with
  | tag hmem hbreaks => exact located_of_head? (head?_tag hmem) hbreaks.marks
  | @attributeItem _ start inner tagName lead list name clause value quoted _
      hmem _ hinner _ hstands hcheck =>
    have hlist : list <+: content.drop (start + 1 + (tagName.length + lead.length)) := by
      have hprefix := inner_stands hmem
      rw [hinner, ← List.append_assoc] at hprefix
      rw [← List.length_append]
      exact prefix_drop hprefix
    rcases prefix_of_standsIn hstands hlist with ⟨hne, hname⟩
    refine ⟨?_, marked_attributeItem hne hname value quoted fault hcheck⟩
    exact Nat.le_of_not_le fun hle => hne (List.drop_eq_nil_iff.mpr hle)
  | tagQuote hmem hopens => exact located_of_head? (hopens.head? (inner_stands hmem)) id
  | styleQuote hbroken hopens => exact located_of_head? (hopens.head? hbroken.line_stands) id
  | element hbroken => exact located_of_head? hbroken.head? id
  | idMarker hbroken => exact located_of_head? hbroken.head? id
  | emptyId hmem _ => exact located_of_head? (head?_idMarker hmem) id
  | style hbroken _ => exact located_of_head? hbroken.head? id
  | @unquotedClass start line hbroken hquote =>
    -- This is the one place that may be the end of the content.
    rcases hbroken.2.1 with ⟨later, hlater⟩
    have hlen := congrArg List.length hlater
    rw [List.length_append, List.length_drop] at hlen
    have hinside : 0 < styleHead.length := by decide
    refine ⟨by omega, ⟨content.take start, ?_⟩, by rwa [List.head?_drop]⟩
    rw [List.take_add, ← hlater, List.take_left]
  | reference hbroken => exact located_of_head? hbroken.head? id
  | unmatched hsplit _ _ => exact located_of_head? (head?_tag (mem_of_split hsplit)) id
  | mismatched hsplit _ _ _ => exact located_of_head? (head?_tag (mem_of_split hsplit)) id
  | unclosed hsplit _ _ _ _ => exact located_of_head? (head?_tag (mem_of_split hsplit)) id

end Blames

/-! ## The rules of a reading -/

section References

variable {depth : Nat} {raw t : Text}

/-- As long as no beginning closes more than is open, the depth is counted to the end. -/
theorem braceDepth_eq (h : ∀ before after, t = before ++ after →
    before.count '}' ≤ before.count '{' + depth) :
    braceDepth depth t = ((depth + t.count '{' : Nat) : Int) - (t.count '}' : Nat) := by
  induction t generalizing depth with
  | nil => simp [braceDepth]
  | cons c cs ih =>
    -- The first character changes the depth, and the rest goes on from there.
    have hstep : ∀ depth' : Nat, [c].count '}' + depth' = [c].count '{' + depth →
        braceDepth depth (c :: cs) = braceDepth depth' cs →
          braceDepth depth (c :: cs) =
            ((depth + (c :: cs).count '{' : Nat) : Int) - ((c :: cs).count '}' : Nat) := by
      intro depth' hdepth hread
      rw [hread, ih, count_cons_split c '{' cs, count_cons_split c '}' cs]
      · omega
      · intro before after hall
        have hle := h (c :: before) after (by rw [hall]; rfl)
        rw [count_cons_split c '}' before, count_cons_split c '{' before] at hle
        omega
    by_cases hopen : c = '{'
    · subst hopen
      have hpositive : ¬ ((depth : Int) + 1 < 0) := by omega
      refine hstep (depth + 1) (by simp; omega) ?_
      simp [braceDepth, hpositive]
    · by_cases hclose : c = '}'
      · subst hclose
        obtain ⟨d, rfl⟩ : ∃ d, depth = d + 1 := by
          have hpositive : 1 ≤ depth := by simpa using h ['}'] cs rfl
          exact ⟨depth - 1, by omega⟩
        have hdepth : ((d + 1 : Nat) : Int) - 1 = d := by omega
        have hnot : ¬ ((d : Int) < 0) := by omega
        refine hstep d (by simp; omega) ?_
        simp only [braceDepth, if_neg hopen, if_true, hdepth, if_neg hnot]
      · have hnot : ¬ ((depth : Int) < 0) := by omega
        have hcounts : [c].count '}' = 0 ∧ [c].count '{' = 0 := by simp [hopen, hclose]
        refine hstep depth (by omega) ?_
        simp only [braceDepth, if_neg hopen, if_neg hclose, if_neg hnot]

/-- Something stands between the braces of a reference, so only their balance can be wrong. -/
theorem check_reference_eq {c : Char} {u : Text} (hraw : raw = '{' :: c :: u)
    (hblank : Text.isBlank c = false) (hbrace : c ≠ '}') :
    Check.reference raw =
      if braceDepth 0 raw ≠ 0 then .error (.unbalancedReference raw) else .ok () := by
  have hinner : ¬ Text.allBlank (if raw.getLast? = some '}' then (raw.drop 1).dropLast
      else raw.drop 1) = true := by
    subst hraw
    split
    · next hlast =>
      cases u with
      | nil => exact absurd (by simpa using hlast) hbrace
      | cons d ds => simp [Text.allBlank, hblank]
    · simp [Text.allBlank, hblank]
  exact if_neg hinner

/-- A reference that is closed on its line breaks no rule. -/
theorem check_reference_closed (h : (Reading.reference raw).Fits t) :
    Check.reference raw = .ok () := by
  rcases enclosed_of_fits h with ⟨henclosed, c, u, hraw, hblank, hbrace⟩
  have hle : ∀ before after, raw = before ++ after →
      before.count '}' ≤ before.count '{' + 0 := by
    intro before after hsplit
    by_cases hbefore : before = []
    · simp [hbefore]
    by_cases hafter : after = []
    · rw [hafter, List.append_nil] at hsplit
      rw [← hsplit, henclosed.balanced]
      exact Nat.le_refl _
    · exact Nat.le_of_lt (henclosed.nested before after hsplit hbefore hafter)
  have hdepth : braceDepth 0 raw = 0 := by
    refine (braceDepth_eq hle).trans ?_
    rw [henclosed.balanced]
    omega
  rw [check_reference_eq hraw hblank hbrace, hdepth]
  rfl

theorem lineLength_cons {c : Char} (hc : c ≠ '\n') (t : Text) :
    Text.lineLength (c :: t) = Text.lineLength t + 1 := by
  have hstep : Text.distance '\n' (c :: t) = (Text.distance '\n' t).map (· + 1) := if_neg hc
  unfold Text.lineLength
  rw [hstep]
  cases Text.distance '\n' t <;> rfl

/-- A reference that is not closed can only be refused for its braces. -/
theorem check_reference_broken {line : Text} (h : (Breach.reference line).Fits t) {fault : Fault}
    (hfault : Check.reference line = .error fault) : fault = .unbalancedReference line := by
  rcases h with ⟨href, -, hline⟩
  rcases cons_of_isReference href with ⟨c, u, rfl, hblank, hbrace⟩
  have hnewline : c ≠ '\n' := by
    rintro rfl
    simp [Text.isBlank_newline] at hblank
  rw [lineLength_cons (by decide), lineLength_cons hnewline, List.take_succ_cons,
    List.take_succ_cons] at hline
  rw [check_reference_eq hline hblank hbrace] at hfault
  split at hfault
  · exact (Except.error.inj hfault).symm
  · simp at hfault

end References

section Rules

variable {content inner : Text} {start : Nat} {r : Rule} {fault : Fault}

theorem quoteRule_eq_error {offset : Nat} {t : Text}
    (h : (quoteRule offset t).verdict = .error fault) :
    fault = .unclosedQuote ∧
      ∃ index, OpensRun t index ∧ (quoteRule offset t).offset = offset + index := by
  unfold quoteRule at h ⊢
  cases hquote : openQuote? t with
  | none => simp [hquote] at h
  | some index =>
    simp only [hquote] at h ⊢
    exact ⟨(Except.error.inj h).symm, index, opensRun_of_openQuote? hquote, rfl⟩

theorem breaks_of_ownRules {clause : Clause} (hr : r ∈ clause.ownRules start)
    (h : r.verdict = .error fault) : r.offset = start ∧ clause.Breaks fault := by
  have hone : ∀ {verdict : Except Fault Unit}, r ∈ [(⟨start, verdict⟩ : Rule)] →
      r.offset = start ∧ verdict = .error fault := by
    intro verdict hmem
    rcases List.mem_singleton.mp hmem with rfl
    exact ⟨rfl, h⟩
  cases clause with
  | plain items => simp [Clause.ownRules] at hr
  | form event items => exact hone hr
  | each source loopVariable => exact hone hr
  | cond condition => exact hone hr
  | json shown => exact hone hr

/-- A broken rule of a tag is reported at its bracket, or at the attribute that breaks it. -/
theorem blames_of_tagRule (hmem : ⟨start, .tag inner⟩ ∈ readings content)
    (hr : r ∈ (Tag.ofInner inner).rules start) (h : r.verdict = .error fault) :
    Blames content fault r.offset := by
  cases htag : Tag.ofInner inner with
  | closing name =>
    rw [htag] at hr
    rcases List.mem_singleton.mp hr with rfl
    exact .tag hmem (htag ▸ h)
  | component name argument =>
    rw [htag] at hr
    rcases List.mem_singleton.mp hr with rfl
    exact .tag hmem (htag ▸ h)
  | opening name clause =>
    rw [htag] at hr
    -- The name is judged first, then the clause itself, then its attributes.
    rcases List.mem_cons.mp hr with rfl | hr
    · exact .tag hmem (htag ▸ Or.inl h)
    · rcases List.mem_append.mp hr with hr | hr
      · rcases breaks_of_ownRules hr h with ⟨hoffset, hbreaks⟩
        rw [hoffset]
        exact .tag hmem (htag ▸ Or.inr hbreaks)
      · rcases List.mem_flatMap.mp hr with ⟨item, hitem, hr⟩
        cases item with
        | literal value => simp [Attribute.rules] at hr
        | pair n value quoted offset =>
          rcases List.mem_singleton.mp hr with rfl
          rcases Tag.standsIn_of_mem_items htag hitem with ⟨lead, list, hinner, hlead, hstands⟩
          exact .attributeItem hmem htag hinner hlead (hstands.shift (start + 1)) h

/-- Whether a quote follows the beginning of a style marker can be seen on its line. -/
theorem head?_line_iff {t : Text} (h : styleHead <+: t) :
    ((t.take (Text.lineLength t)).drop styleHead.length).head? = some '"' ↔
      t[styleHead.length]? = some '"' := by
  rw [List.head?_drop]
  constructor
  · intro hquote
    rcases List.getElem?_eq_some_iff.mp hquote with ⟨hlt, hget⟩
    rw [List.length_take] at hlt
    rwa [List.getElem?_take_of_lt (by omega)] at hquote
  · intro hquote
    rcases h with ⟨later, rfl⟩
    rw [List.getElem?_append_right (Nat.le_refl _), Nat.sub_self] at hquote
    cases later with
    | nil => simp at hquote
    | cons c cs =>
      obtain rfl : c = '"' := by simpa using hquote
      have hline : styleHead.length < Text.lineLength (styleHead ++ '"' :: cs) := by
        simp [styleHead, lineLength_cons]
      rw [List.getElem?_take_of_lt hline, List.getElem?_append_right (Nat.le_refl _), Nat.sub_self]
      rfl

/-- A broken construct is reported where it begins, apart from its quotes. -/
theorem blames_of_breachRule {breach : Breach} (hbroken : BrokenAt content start breach)
    (hr : r ∈ breach.rules start) (h : r.verdict = .error fault) :
    Blames content fault r.offset := by
  cases breach with
  | idMarker =>
    rcases List.mem_singleton.mp hr with rfl
    exact Except.error.inj h ▸ .idMarker hbroken
  | tag =>
    rcases List.mem_singleton.mp hr with rfl
    exact Except.error.inj h ▸ .element hbroken
  | reference line =>
    rcases List.mem_singleton.mp hr with rfl
    rw [check_reference_broken hbroken.2 h]
    exact .reference hbroken
  | styleMarker line =>
    rcases hbroken.2 with ⟨hhead, -, hline⟩
    have hquote := head?_line_iff hhead
    rw [← hline, List.getElem?_drop] at hquote
    unfold Breach.rules at hr
    dsimp only at hr
    split at hr
    · next hno =>
      rcases List.mem_singleton.mp hr with rfl
      exact Except.error.inj h ▸ .unquotedClass hbroken fun hyes => hno (hquote.mpr hyes)
    · next hyes =>
      rcases List.mem_cons.mp hr with rfl | hr
      · rcases quoteRule_eq_error h with ⟨rfl, index, hopens, hoffset⟩
        rw [hoffset]
        exact .styleQuote hbroken hopens
      · rcases List.mem_singleton.mp hr with rfl
        refine Except.error.inj h ▸ .style hbroken (hquote.mp ?_)
        simpa using hyes

/-- A broken rule is reported at the construct that breaks it. -/
theorem blames_of_rule {p : Placed} (hp : p ∈ readings content) (hr : r ∈ p.rules)
    (h : r.verdict = .error fault) : Blames content fault r.offset := by
  have hfits := fits_of_mem_readings hp
  rcases p with ⟨start, reading⟩
  cases reading with
  | idMarker inner =>
    rcases List.mem_singleton.mp hr with rfl
    dsimp only at h
    split at h
    · next hempty =>
      refine Except.error.inj h ▸ .emptyId hp (Text.allBlank_of_strip ?_)
      simpa using hempty
    · simp at h
  | reference raw =>
    rcases List.mem_singleton.mp hr with rfl
    dsimp only at h
    rw [check_reference_closed hfits] at h
    simp at h
  | tag inner =>
    rcases List.mem_cons.mp hr with rfl | hr
    · rcases quoteRule_eq_error h with ⟨rfl, index, hopens, hoffset⟩
      rw [hoffset]
      exact .tagQuote hp hopens
    · exact blames_of_tagRule hp hr h
  | text run breach =>
    cases breach with
    | none => simp [Placed.rules] at hr
    | some breach => exact blames_of_breachRule ⟨⟨run, hp⟩, hfits⟩ hr h
  | _ => simp [Placed.rules] at hr

end Rules

/-! ## The balance of tags -/

section Offences

variable {content : Text} {map : SourceMap} {p : Placed} {e : ScanError}

/-- Only tags count for the balance. -/
theorem tag_of_bracket? {b : Bracket (OpenTag Container) ClosingTag}
    (h : p.bracket? map = some b) :
    ∃ inner, p = ⟨p.offset, .tag inner⟩ ∧
      Emitted.tag? map ⟨p.offset, (Tag.ofInner inner).token⟩ = some b := by
  rcases p with ⟨offset, reading⟩
  cases reading with
  | tag inner => exact ⟨inner, rfl, h⟩
  | idMarker inner =>
    simp only [Placed.bracket?, Reading.token?] at h
    split at h <;> simp [Emitted.tag?] at h
  | _ => simp [Placed.bracket?, Reading.token?, Emitted.tag?] at h

theorem bracket?_eq_closed {name : Text} {position : Position}
    (h : p.bracket? map = some (.closed (name, position))) :
    ∃ inner, p = ⟨p.offset, .tag inner⟩ ∧ Tag.ofInner inner = .closing name ∧
      position = map.position p.offset := by
  rcases tag_of_bracket? h with ⟨inner, hp, htag⟩
  refine ⟨inner, hp, ?_⟩
  cases hinner : Tag.ofInner inner with
  | closing name' =>
    rw [hinner] at htag
    simp only [Tag.token, Emitted.tag?, Option.some.injEq, Bracket.closed.injEq,
      Prod.mk.injEq] at htag
    exact ⟨by rw [htag.1], htag.2.symm⟩
  | component name' argument => simp [hinner, Tag.token, Emitted.tag?] at htag
  | opening name' clause =>
    rw [hinner] at htag
    cases hkind : TagKind.ofName name' <;> simp [Tag.token, hkind, Emitted.tag?] at htag

theorem bracket?_eq_opened {tag : OpenTag Container}
    (h : p.bracket? map = some (.opened tag)) :
    ∃ inner clause, p = ⟨p.offset, .tag inner⟩ ∧ Tag.ofInner inner = .opening tag.name clause ∧
      (TagKind.ofName tag.name).isContainer = true ∧ tag.position = map.position p.offset := by
  rcases tag_of_bracket? h with ⟨inner, hp, htag⟩
  cases hinner : Tag.ofInner inner with
  | closing name => simp [hinner, Tag.token, Emitted.tag?] at htag
  | component name argument => simp [hinner, Tag.token, Emitted.tag?] at htag
  | opening name clause =>
    rw [hinner] at htag
    cases hkind : TagKind.ofName name with
    | container c =>
      obtain rfl : ⟨c, name, map.position p.offset⟩ = tag := by
        simpa [Tag.token, hkind, Emitted.tag?] using htag
      exact ⟨inner, clause, hp, hinner, by rw [hkind]; rfl, rfl⟩
    | json => simp [Tag.token, hkind, Emitted.tag?] at htag
    | leaf => simp [Tag.token, hkind, Emitted.tag?] at htag

/-- A tag of the word comes from a reading, with the tags of the other readings around it. -/
theorem exists_split {ps : List Placed} {b : Bracket (OpenTag Container) ClosingTag}
    {u v : List (Bracket (OpenTag Container) ClosingTag)} (h : tagsOf content ps = u ++ b :: v) :
    ∃ before p after, ps = before ++ p :: after ∧ tagsOf content before = u ∧
      p.bracket? (SourceMap.ofText content) = some b ∧ tagsOf content after = v := by
  rcases List.filterMap_eq_append_iff.mp h with ⟨before, later, rfl, hbefore, hlater⟩
  rcases List.filterMap_eq_cons_iff.mp hlater with ⟨skipped, p, after, rfl, hskipped, hp, hafter⟩
  -- Readings without a tag that stand right before the tag are counted to those before it.
  refine ⟨before ++ skipped, p, after, by rw [List.append_assoc], ?_, hp, hafter⟩
  have hnone : tagsOf content skipped = [] := List.filterMap_eq_nil_iff.mpr hskipped
  unfold tagsOf at hnone ⊢
  rw [List.filterMap_append, hbefore, hnone, List.append_nil]

/-- Tags that do not balance are reported at the bracket of the tag that offends. -/
theorem blames_of_offence (h : Offence (tagsOf content (readings content)) e) :
    ∃ o, e.position = (SourceMap.ofText content).position o ∧ Blames content e.fault o := by
  -- The offence speaks of a word of tags; each of its tags is found again among the readings.
  generalize hword : tagsOf content (readings content) = word at h
  cases h with
  | unmatched hbalanced =>
    rcases exists_split hword with ⟨before, p, after, hsplit, rfl, hp, -⟩
    rcases bracket?_eq_closed hp with ⟨inner, hinner, htag, hposition⟩
    rw [hinner] at hsplit
    exact ⟨p.offset, hposition, .unmatched hsplit htag hbalanced⟩
  | mismatched hleaves hname =>
    rcases exists_split hword with ⟨before, p, after, hsplit, rfl, hp, -⟩
    rcases bracket?_eq_closed hp with ⟨inner, hinner, htag, hposition⟩
    rw [hinner] at hsplit
    exact ⟨p.offset, hposition, .mismatched hsplit htag hleaves hname⟩
  | unclosed hleaves =>
    cases hleaves with
    | opened hbalanced hlater =>
      rcases exists_split hword with ⟨before, p, after, hsplit, rfl, hp, rfl⟩
      rcases bracket?_eq_opened hp with ⟨inner, clause, hinner, htag, hkind, hposition⟩
      rw [hinner] at hsplit
      exact ⟨p.offset, hposition, .unclosed hsplit htag hkind hbalanced hlater⟩

end Offences

/-! ## Bodies -/

/-- Every error of strict reading points at the construct that caused it. Its line and column are
those of an offset in the body, whose line ends are one character each; there stands the construct
that is at fault, and what its fault points to. -/
theorem strict_error_points {body : Text} {e : ScanError} (h : tokenize .strict body = .error e) :
    ∃ o ≤ (Text.joinLines body).length,
      e.position = lineColumn ((Text.joinLines body).take o) ∧
      Blames (Text.joinLines body) e.fault o ∧
      e.fault.Marks ((Text.joinLines body).take o) ((Text.joinLines body).drop o) := by
  have hplace : ∃ o, e.position = (SourceMap.ofText (Text.joinLines body)).position o ∧
      Blames (Text.joinLines body) e.fault o := by
    cases refused_of_tokenize h with
    | rule hp hr hverdict => exact ⟨_, rfl, blames_of_rule hp hr hverdict⟩
    | balance hoffence => exact blames_of_offence hoffence
  rcases hplace with ⟨o, hposition, hblames⟩
  rcases hblames.located with ⟨hle, hmarks⟩
  exact ⟨o, hle, hposition.trans (position_ofText hle), hblames, hmarks⟩

/-- A form that goes on over a line end of two characters: its second attribute is refused where it
stands. -/
theorem strict_error_points_form :
    tokenize .strict ['\r', '\n', '[', 'f', 'o', 'r', 'm', ' ', '@', 'g', 'o', ' ', 'a', '\r', '\n',
        ' ', '9', ']'] = .error ⟨.invalidAttributeName ['9'], ⟨3, 2⟩⟩ ∧
    ∃ o, Blames ['\n', '[', 'f', 'o', 'r', 'm', ' ', '@', 'g', 'o', ' ', 'a', '\n', ' ', '9', ']']
        (.invalidAttributeName ['9']) o ∧
      lineColumn (['\n', '[', 'f', 'o', 'r', 'm', ' ', '@', 'g', 'o', ' ', 'a', '\n', ' ', '9',
        ']'].take o) = ⟨3, 2⟩ := by
  have h : tokenize .strict ['\r', '\n', '[', 'f', 'o', 'r', 'm', ' ', '@', 'g', 'o', ' ', 'a',
      '\r', '\n', ' ', '9', ']'] = .error ⟨.invalidAttributeName ['9'], ⟨3, 2⟩⟩ := rfl
  rcases strict_error_points h with ⟨o, -, hposition, hblames, -⟩
  exact ⟨h, o, hblames, hposition.symm⟩

end Notemark.Body
