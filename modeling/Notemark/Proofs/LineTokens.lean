import Mathlib.Logic.Basic
import Notemark.Proofs.Lines
import Notemark.Proofs.Rules
import Notemark.Proofs.Tiling

/-!
# The tokens of lines

What a text without square brackets is tokenized to, in either mode:

* `Reading.Lawful`: a reading that breaks no rule, wherever it stands,
* `tokenize_untagged_iff`: when such a text is accepted, and its tokens,
* `HeadingLine`: the lines that are headings,
* `tokenize_lines`: the tokens of two texts with a line break between them, and of one line.
-/

namespace Notemark.Body

/-! ## Lawful readings -/

/-- The reading breaks none of its rules. -/
def Reading.Lawful (r : Reading) : Prop := ∀ rule ∈ (Placed.mk 0 r).rules, rule.verdict = .ok ()

section Lawful

variable {r : Reading} {t : Text} {rs : List Reading}

theorem verdict_quoteRule (offset : Nat) (t : Text) :
    (quoteRule offset t).verdict = (quoteRule 0 t).verdict := by
  unfold quoteRule
  cases openQuote? t <;> rfl

/-- The verdicts on a reading are the same wherever it stands. -/
theorem map_verdict_rules (offset : Nat) (r : Reading) :
    (Placed.mk offset r).rules.map (·.verdict) = (Placed.mk 0 r).rules.map (·.verdict) := by
  -- An offset says where a fault is reported, never whether there is one.
  have hitem : ∀ inner : Nat, (fun item : Attribute => (item.rules inner).map (·.verdict)) =
      fun item => (item.rules 0).map (·.verdict) := by
    intro inner
    funext item
    cases item <;> rfl
  cases r with
  | tag inner =>
    simp only [Placed.rules, List.map_cons, verdict_quoteRule (offset + 1),
      verdict_quoteRule (0 + 1)]
    cases Tag.ofInner inner with
    | closing name => rfl
    | component name argument => rfl
    | opening name clause =>
      simp only [Tag.rules, Clause.rules, List.map_cons, List.map_append, List.map_flatMap,
        hitem (offset + 1), hitem (0 + 1)]
      cases clause <;> rfl
  | text run breach =>
    cases breach with
    | none => rfl
    | some breach =>
      cases breach with
      | styleMarker line =>
        simp only [Placed.rules, Breach.rules]
        split
        · rfl
        · simp only [List.map_cons, verdict_quoteRule offset]
      | _ => rfl
  | _ => rfl

theorem lawful_iff_rules (p : Placed) :
    p.reading.Lawful ↔ ∀ rule ∈ p.rules, rule.verdict = .ok () := by
  have hmap : p.rules.map (·.verdict) = (Placed.mk 0 p.reading).rules.map (·.verdict) :=
    map_verdict_rules p.offset p.reading
  unfold Reading.Lawful
  rw [← List.forall_mem_map (f := Rule.verdict) (P := (· = .ok ())), ← hmap, List.forall_mem_map]

theorem check_eq_ok_iff (map : SourceMap) (p : Placed) :
    p.check map = .ok () ↔ p.reading.Lawful := by
  rw [check_eq_applyRules, lawful_iff_rules]
  refine ⟨applyRules_eq_ok, fun h => ?_⟩
  cases happly : applyRules map p.rules with
  | ok u => rfl
  | error e =>
    rcases applyRules_eq_error happly with ⟨rule, hrule, fault, hfault, -⟩
    simp [h rule hrule] at hfault

end Lawful

/-! ## Texts without tags -/

/-- A text in which no tag begins and every line ends with a line feed alone. -/
structure Untagged (t : Text) : Prop where
  square : '[' ∉ t
  noReturn : '\r' ∉ t

section Untagged

variable {a b t : Text} {rs as bs : List Reading} {mode : Mode} {ts : List Token}

theorem Untagged.lines (ha : Untagged a) (hb : Untagged b) : Untagged (a ++ '\n' :: b) where
  square := by simp [ha.square, hb.square]
  noReturn := by simp [ha.noReturn, hb.noReturn]

theorem Untagged.readings_eq (ht : Untagged t) (hrs : Scans {} t rs []) :
    readings (Text.joinLines t) = place 0 rs := by
  rw [Text.joinLines_of_settled (Text.settled_of_notMem ht.noReturn)]
  exact hrs.readFrom_eq

theorem Untagged.bodyTags_eq (ht : Untagged t) : bodyTags t = [] := by
  have hjoin := Text.joinLines_of_settled (Text.settled_of_notMem ht.noReturn)
  unfold bodyTags
  rw [hjoin, tagWord_emitted, List.filterMap_eq_nil_iff]
  intro p hp
  rw [← Option.not_isSome_iff_eq_none]
  intro hbracket
  rcases span_of_bracket? hbracket with ⟨inner, hspan⟩
  rcases covers_of_mem_readings hp with ⟨-, later, hlater⟩
  have hmem : '[' ∈ t.drop p.offset := by
    rw [hlater, hspan]
    exact List.mem_cons_self
  exact ht.square (List.mem_of_mem_drop hmem)

theorem Untagged.locallySound_iff (ht : Untagged t) (hrs : Scans {} t rs []) :
    LocallySound t ↔ ∀ r ∈ rs, r.Lawful := by
  unfold LocallySound
  rw [ht.readings_eq hrs]
  calc (∀ p ∈ place 0 rs, p.check (SourceMap.ofText (Text.joinLines t)) = .ok ())
    _ ↔ ∀ p ∈ place 0 rs, p.reading.Lawful := by simp only [check_eq_ok_iff]
    _ ↔ ∀ r ∈ (place 0 rs).map (·.reading), r.Lawful := List.forall_mem_map.symm
    _ ↔ ∀ r ∈ rs, r.Lawful := by rw [map_reading_place]

/-- Without tags there is nothing to balance: strict mode asks for lawful readings only. -/
theorem tokenize_untagged_iff (ht : Untagged t) (hrs : Scans {} t rs []) :
    tokenize mode t = .ok ts ↔ (mode = .strict → ∀ r ∈ rs, r.Lawful) ∧ ts = assemble rs := by
  have hassemble : assemble ((readings (Text.joinLines t)).map (·.reading)) = assemble rs := by
    rw [ht.readings_eq hrs, map_reading_place]
  refine ⟨fun h => ⟨?_, hassemble ▸ eq_assemble_of_tokenize h⟩, ?_⟩
  · rintro rfl
    refine (ht.locallySound_iff hrs).mp fun p hp => ?_
    rw [check_eq_ok_iff, lawful_iff_rules]
    exact verdict_of_tokenize h p hp
  · rintro ⟨hlawful, rfl⟩
    rw [← hassemble]
    cases mode with
    | lenient => exact tokenize_eq_tokensOf .lenient t
    | strict =>
      rw [tokenize_of_settle ((ht.locallySound_iff hrs).mpr (hlawful rfl)), ht.bodyTags_eq]
      rfl

theorem exists_tokenize_strict_iff (ht : Untagged t) (hrs : Scans {} t rs []) :
    (∃ ts, tokenize .strict t = .ok ts) ↔ ∀ r ∈ rs, r.Lawful := by
  simp only [tokenize_untagged_iff ht hrs, true_imp_iff, exists_and_left, exists_eq, and_true]

/-- A line break ends the text that waits, so what follows is assembled on its own. -/
theorem assemble_lines (pending : Text) (as bs : List Reading) :
    ∃ front, .eof ∉ front ∧ assembleAfter pending as = front ++ [.eof] ∧
      assembleAfter pending (as ++ .newline :: bs) = front ++ .newline :: assemble bs := by
  induction as generalizing pending with
  | nil => exact ⟨flush pending, eof_notMem_flush pending, rfl, rfl⟩
  | cons r as ih =>
    have hemit := fun later => Scan.assemble_emit [] pending r later
    simp only [List.nil_append] at hemit
    rcases ih (Scan.emit [] pending r).2 with ⟨front, heof, has, hall⟩
    refine ⟨(Scan.emit [] pending r).1 ++ front, ?_, ?_, ?_⟩
    · rw [List.mem_append, not_or]
      exact ⟨eof_notMem_emit List.not_mem_nil pending r, heof⟩
    · rw [hemit, has, List.append_assoc]
    · rw [List.cons_append, hemit, hall, List.append_assoc]

end Untagged

/-! ## Headings -/

/-- The line is a heading: indentation, one to six number signs, and then nothing or a space or tab
with anything behind it. -/
structure HeadingLine (line indent : Text) (level : Nat) (rest : Text) : Prop where
  text : line = indent ++ (List.replicate level '#' ++ rest)
  spaces : ∀ c ∈ indent, Text.isIndent c = true
  signs : 1 ≤ level ∧ level ≤ 6
  after : ∀ c, rest.head? = some c → Text.isIndent c = true

section Headings

variable {k : Cursor} {t indent rest left : Text} {level : Nat} {rs : List Reading}

/-- The start of a line is left behind with the first character that is no indentation. -/
theorem Cursor.fresh_advance (h : '\n' ∉ t) :
    (k.advance t).fresh = true ↔ k.fresh = true ∧ ∀ c ∈ t, Text.isIndent c = true := by
  induction t generalizing k with
  | nil => simp [Cursor.advance]
  | cons c cs ih =>
    rw [List.mem_cons, not_or] at h
    rw [Cursor.advance_cons, ih h.2]
    simp [Cursor.step, Ne.symm h.1, and_assoc]

/-- Headings stand at the start of a line and take all of it. -/
theorem headingLine_of_readAt (ht : t ≠ []) (hline : '\n' ∉ t)
    (h : readAt k t = .heading level rest) : k.fresh = true ∧ HeadingLine t [] level rest := by
  -- The span of a heading begins with a number sign, which leaves one reader only.
  have hexact : (Reading.heading level rest).Exact := h ▸ readAt_exact k t
  obtain ⟨-, later, hlater⟩ : (Reading.heading level rest).Covers t := h ▸ readAt_covers k ht
  obtain ⟨cs, rfl⟩ : ∃ cs, t = '#' :: cs := by
    obtain ⟨n, rfl⟩ : ∃ n, level = n + 1 := ⟨level - 1, by have := hexact.1; omega⟩
    exact ⟨List.replicate n '#' ++ rest ++ later, hlater⟩
  have hread : readAt k ('#' :: cs) =
      if k.fresh then readHeading k ('#' :: cs) else plain k ('#' :: cs) none := by
    cases hfresh : k.fresh <;> simp [readAt, hfresh]
  rw [hread] at h
  split at h
  · next hfresh =>
    rw [readHeading] at h
    rcases ite_eq_iff.mp h with ⟨hsigns, heq⟩ | ⟨-, heq⟩
    · have hrest : '\n' ∉ ('#' :: cs).drop (('#' :: cs).takeWhile (· == '#')).length :=
        fun hmem => hline (List.mem_of_mem_drop hmem)
      rw [lineLength_of_notMem hrest, List.take_length] at heq
      obtain ⟨rfl, rfl⟩ := Reading.heading.inj heq
      refine ⟨hfresh, ?_, by simp, ⟨hexact.1, hexact.2.1⟩, ?_⟩
      · rw [← takeWhile_eq_replicate, Text.drop_length_takeWhile,
          List.takeWhile_append_dropWhile, List.nil_append]
      · intro c hc
        rcases List.head?_eq_some_iff.mp hc with ⟨title, htitle⟩
        rw [htitle] at hsigns hrest
        have hnewline : c ≠ '\n' := fun h => hrest (by simp [h])
        simpa [Text.isIndent, endsSigns, hnewline] using (Bool.and_eq_true_iff.mp hsigns).2
    · simp [plain] at heq
  · simp [plain] at h

/-- Whatever stands before a heading on its line is indentation. -/
theorem headingLine_of_scans (h : Scans k t rs left) (hline : '\n' ∉ t)
    (hmem : .heading level rest ∈ rs) :
    k.fresh = true ∧ ∃ indent, HeadingLine t indent level rest := by
  -- A heading further on needs a fresh cursor there, so all readings before it are indentation.
  induction h with
  | done k t => simp at hmem
  | @step k r t left rs hne hread _ ih =>
    rw [List.mem_append, not_or] at hline
    rcases List.mem_cons.mp hmem with rfl | hmem
    · have hheading := headingLine_of_readAt (by simp [hne]) (by simp [hline]) hread
      exact ⟨hheading.1, [], hheading.2⟩
    · rcases ih hline.2 hmem with ⟨hfresh, indent, hindent⟩
      rw [Cursor.fresh_advance hline.1] at hfresh
      refine ⟨hfresh.1, r.span ++ indent, ?_, ?_, hindent.signs, hindent.after⟩
      · rw [hindent.text, List.append_assoc]
      · intro c hc
        rcases List.mem_append.mp hc with hc | hc
        · exact hfresh.2 c hc
        · exact hindent.spaces c hc

theorem runTail_indent (h : ∀ c ∈ indent, Text.isIndent c = true) (t : Text) :
    runTail true (indent ++ '#' :: t) = indent := by
  induction indent with
  | nil => rfl
  | cons c cs ih =>
    have hc : c = ' ' ∨ c = '\t' := by simpa [Text.isIndent] using h c List.mem_cons_self
    have hcs := ih fun d hd => h d (List.mem_cons_of_mem c hd)
    rcases hc with rfl | rfl
    · simp [runTail, Text.isIndent, hcs]
    · simp [runTail, Text.isIndent, hcs]

/-- Indentation before a number sign is plain text up to the sign. -/
theorem readAt_indent {c : Char} (hk : k.fresh = true)
    (h : ∀ d ∈ c :: indent, Text.isIndent d = true) (t : Text) :
    readAt k (c :: indent ++ '#' :: t) = .text (c :: indent) none := by
  have hrun : plainRun k (c :: indent ++ '#' :: t) = c :: indent := by
    rw [List.cons_append, plainRun, h c List.mem_cons_self, hk, Bool.and_self,
      runTail_indent fun d hd => h d (List.mem_cons_of_mem c hd)]
  have hc : c = ' ' ∨ c = '\t' := by simpa [Text.isIndent] using h c List.mem_cons_self
  have hread : readAt k (c :: indent ++ '#' :: t) = plain k (c :: indent ++ '#' :: t) none := by
    rcases hc with rfl | rfl <;> rfl
  rw [hread, plain, hrun]

/-- A heading line is read as its indentation, if there is some, and the heading. -/
theorem HeadingLine.scans (h : HeadingLine t indent level rest) (hline : '\n' ∉ t) :
    ∃ rs, Scans {} t rs [] ∧ (∀ r ∈ rs, r.Lawful) ∧
      assemble rs = flush indent ++ [.heading (some level) (Text.strip rest), .eof] := by
  have hrest : '\n' ∉ rest := fun hmem => hline (by rw [h.text]; simp [hmem])
  have hscan : ∀ k : Cursor, k.fresh = true →
      Scans k (List.replicate level '#' ++ rest) [.heading level rest] [] := by
    intro k hk
    have hread := readAt_heading hk h.signs hrest h.after (Or.inl rfl : EndOfLine [])
    have hne : (Reading.heading level rest).span ≠ [] := by
      have := h.signs.1
      simp [Reading.span]
      omega
    simpa [Reading.span] using Scans.one hne hread
  have hlawful : (Reading.heading level rest).Lawful := by simp [Reading.Lawful, Placed.rules]
  cases indent with
  | nil => exact ⟨_, h.text ▸ hscan {} rfl, by simpa using hlawful, rfl⟩
  | cons c cs =>
    have hsign : ∃ u, List.replicate level '#' ++ rest = '#' :: u := by
      obtain ⟨n, rfl⟩ : ∃ n, level = n + 1 := ⟨level - 1, by have := h.signs; omega⟩
      exact ⟨List.replicate n '#' ++ rest, rfl⟩
    have hindent : readAt {} (c :: cs ++ (List.replicate level '#' ++ rest)) =
        .text (c :: cs) none := by
      rcases hsign with ⟨u, hu⟩
      rw [hu]
      exact readAt_indent rfl h.spaces u
    have hspaces : '\n' ∉ c :: cs := fun hmem => hline (h.text ▸ List.mem_append_left _ hmem)
    have hfresh := (Cursor.fresh_advance (k := {}) hspaces).mpr ⟨rfl, h.spaces⟩
    refine ⟨[.text (c :: cs) none, .heading level rest], ?_, ?_, rfl⟩
    · rw [h.text]
      exact .step (r := .text (c :: cs) none) (by simp [Reading.span]) hindent (hscan _ hfresh)
    · intro r hr
      rcases List.mem_cons.mp hr with rfl | hr
      · simp [Reading.Lawful, Placed.rules]
      · exact List.mem_singleton.mp hr ▸ hlawful

theorem heading_of_token? {r : Reading} {level : Option Int} {title : Text}
    (h : r.token? = some (.heading level title)) : ∃ n rest, r = .heading n rest := by
  cases r with
  | heading n rest => exact ⟨n, rest, rfl⟩
  | idMarker inner =>
    simp only [Reading.token?] at h
    split at h <;> simp at h
  | tag inner =>
    have htoken := Option.some.inj h
    cases htag : Tag.ofInner inner with
    | opening name clause =>
      rw [htag, Tag.token] at htoken
      cases hkind : TagKind.ofName name <;> simp [hkind] at htoken
    | _ => simp [htag, Tag.token] at htoken
  | _ => simp [Reading.token?] at h

/-- Every heading among the tokens is a heading among the readings. -/
theorem exists_heading_of_mem {level : Option Int} {title : Text}
    (h : .heading level title ∈ assemble rs) : ∃ n rest, .heading n rest ∈ rs := by
  rcases assemble_eq_append_eof List.not_mem_nil [] rs with ⟨ts, hts, -, hfilter⟩
  have hmem : .heading level title ∈ ts := by
    have hmem : .heading level title ∈ ts ++ [.eof] := hts ▸ h
    simpa using hmem
  have hreading : .heading level title ∈ ts.filter (!·.isText) := by
    simp [hmem, Token.isText]
  rw [hfilter, List.filter_nil, List.nil_append] at hreading
  rcases List.mem_filterMap.mp hreading with ⟨r, hr, htoken⟩
  rcases heading_of_token? htoken with ⟨n, rest, rfl⟩
  exact ⟨n, rest, hr⟩

theorem HeadingLine.tokenize_eq (h : HeadingLine t indent level rest) (ht : Untagged t)
    (hline : '\n' ∉ t) (mode : Mode) :
    tokenize mode t = .ok (flush indent ++ [.heading (some level) (Text.strip rest), .eof]) := by
  rcases h.scans hline with ⟨rs, hrs, hlawful, hassemble⟩
  exact (tokenize_untagged_iff ht hrs).mpr ⟨fun _ => hlawful, hassemble.symm⟩

theorem exists_heading_iff (ht : Untagged t) (hline : '\n' ∉ t) (mode : Mode) :
    (∃ ts, tokenize mode t = .ok ts ∧ ∃ level title, .heading level title ∈ ts) ↔
      ∃ indent level rest, HeadingLine t indent level rest := by
  constructor
  · rintro ⟨ts, hts, level, title, hmem⟩
    obtain ⟨rs, hrs⟩ := Scans.total {} t
    obtain ⟨-, rfl⟩ := (tokenize_untagged_iff ht hrs).mp hts
    rcases exists_heading_of_mem hmem with ⟨n, rest, hheading⟩
    rcases headingLine_of_scans hrs hline hheading with ⟨-, indent, hindent⟩
    exact ⟨indent, n, rest, hindent⟩
  · rintro ⟨indent, level, rest, h⟩
    exact ⟨_, h.tokenize_eq ht hline mode, some level, Text.strip rest, by simp⟩

end Headings

/-! ## Lines and their tokens -/

/-- Lines are tokenized one by one, in either mode: a line break is a token of its own and parts the
tokens of what stands before it from those of what follows. And a line has a heading if it is
written as one; nothing but its indentation comes before the heading, and nothing behind it. -/
theorem tokenize_lines {a b : Text} (ha : Untagged a) (hb : Untagged b) :
    (∃ front bs, .eof ∉ front ∧ tokenize .lenient a = .ok (front ++ [.eof]) ∧
      tokenize .lenient b = .ok bs ∧
        tokenize .lenient (a ++ '\n' :: b) = .ok (front ++ .newline :: bs)) ∧
    (∀ as bs, tokenize .strict a = .ok as → tokenize .strict b = .ok bs →
      ∃ front, .eof ∉ front ∧ as = front ++ [.eof] ∧
        tokenize .strict (a ++ '\n' :: b) = .ok (front ++ .newline :: bs)) ∧
    ((∃ ts, tokenize .strict (a ++ '\n' :: b) = .ok ts) ↔
      (∃ as, tokenize .strict a = .ok as) ∧ ∃ bs, tokenize .strict b = .ok bs) ∧
    ('\n' ∉ a → ∀ mode,
      ((∃ ts, tokenize mode a = .ok ts ∧ ∃ level title, .heading level title ∈ ts) ↔
        ∃ indent level rest, HeadingLine a indent level rest) ∧
      ∀ indent level rest, HeadingLine a indent level rest →
        tokenize mode a =
          .ok (flush indent ++ [.heading (some level) (Text.strip rest), .eof])) := by
  obtain ⟨rs, hrs⟩ := Scans.total {} a
  obtain ⟨rs', hrs'⟩ := Scans.total {} b
  have hall := hrs.lines hrs' ha.square hb.square
  have hlawful : (∀ r ∈ rs ++ .newline :: rs', r.Lawful) ↔
      (∀ r ∈ rs, r.Lawful) ∧ ∀ r ∈ rs', r.Lawful := by
    have hnewline : Reading.newline.Lawful := by simp [Reading.Lawful, Placed.rules]
    simp [or_imp, forall_and, hnewline]
  -- The same tokens come first whether the second text follows or not.
  obtain ⟨front, heof, hfront, hjoined⟩ := assemble_lines [] rs rs'
  have hjoin : ∀ {mode as bs}, tokenize mode a = .ok as → tokenize mode b = .ok bs →
      as = front ++ [.eof] ∧
        tokenize mode (a ++ '\n' :: b) = .ok (front ++ .newline :: bs) := by
    intro mode as bs has hbs
    rw [tokenize_untagged_iff ha hrs] at has
    rw [tokenize_untagged_iff hb hrs'] at hbs
    rw [tokenize_untagged_iff (ha.lines hb) hall, hlawful]
    exact ⟨has.2.trans hfront, fun h => ⟨has.1 h, hbs.1 h⟩, by rw [hbs.2]; exact hjoined.symm⟩
  refine ⟨?_, fun as bs has hbs => ⟨front, heof, hjoin has hbs⟩, ?_, fun hline mode => ?_⟩
  · obtain ⟨as, has⟩ := exists_tokenize_lenient a
    obtain ⟨bs, hbs⟩ := exists_tokenize_lenient b
    obtain ⟨rfl, hwhole⟩ := hjoin has hbs
    exact ⟨front, bs, heof, has, hbs, hwhole⟩
  · rw [exists_tokenize_strict_iff ha hrs, exists_tokenize_strict_iff hb hrs',
      exists_tokenize_strict_iff (ha.lines hb) hall, hlawful]
  · refine ⟨exists_heading_iff ha hline mode, ?_⟩
    intro indent level rest h
    exact h.tokenize_eq ha hline mode

/-- An indented heading with a star, and a star on the next line that does not belong to it. -/
theorem tokenize_lines_stars_apart :
    Untagged ['\t', '#', '#', ' ', '*', 'x'] ∧ Untagged ['y', '*'] ∧
      HeadingLine ['\t', '#', '#', ' ', '*', 'x'] ['\t'] 2 [' ', '*', 'x'] ∧
      tokenize .strict ['\t', '#', '#', ' ', '*', 'x', '\n', 'y', '*'] =
        .ok [.text ['\t'], .heading (some 2) ['*', 'x'], .newline, .text ['y', '*'], .eof] := by
  have ha : Untagged ['\t', '#', '#', ' ', '*', 'x'] := ⟨by decide, by decide⟩
  have hb : Untagged ['y', '*'] := ⟨by decide, by decide⟩
  have hheading : HeadingLine ['\t', '#', '#', ' ', '*', 'x'] ['\t'] 2 [' ', '*', 'x'] :=
    ⟨rfl, by simp [Text.isIndent], by decide, by rintro c ⟨⟩; rfl⟩
  obtain ⟨-, hstrict, -, hline⟩ := tokenize_lines ha hb
  have hfirst : tokenize .strict ['\t', '#', '#', ' ', '*', 'x'] =
      .ok ([.text ['\t'], .heading (some 2) ['*', 'x']] ++ [.eof]) :=
    (hline (by decide) .strict).2 ['\t'] 2 [' ', '*', 'x'] hheading
  obtain ⟨front, -, hfront, hwhole⟩ := hstrict _ [.text ['y', '*'], .eof] hfirst rfl
  obtain rfl : front = [.text ['\t'], .heading (some 2) ['*', 'x']] :=
    (List.append_inj_left' hfront rfl).symm
  exact ⟨ha, hb, hheading, hwhole⟩

end Notemark.Body
