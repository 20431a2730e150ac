import Mathlib.Algebra.Ring.Parity
import Mathlib.Tactic.Tauto
import Notemark.Proofs.FaultPlaces
import Notemark.Proofs.Runs
import Notemark.Proofs.StrictGrammar

/-!
# Quotes that pair up

Three scanners look at the quotes of a tag: one looks for its end, one judges its quotes, and one
reads its attributes. The first and the last pair all quotes from left to right; the second leaves
out the quotes behind a backslash. This module holds

* `escapedQuotes`: the quotes that are left out,
* `isSome_openQuoteFrom_iff`: what the second scanner finds, by the number of the others,
* `Attribute.Phase.after`: where the third scanner is after a text,
* `Attribute.Phase.inQuotes_after_iff`: if every attribute passes, it is inside quotes exactly after
  an odd number of quotes,
* `quote_judged_iff`: so the two agree about a tag exactly if the number of quotes left out is even.
-/

namespace Notemark.Body

/-! ## Quotes behind a backslash -/

/-- How many quotes of a text have a backslash right before them. -/
def escapedQuotes (before : Option Char) : Text → Nat
  | [] => 0
  | c :: cs => (if c = '"' ∧ before = some '\\' then 1 else 0) + escapedQuotes (some c) cs

theorem liveQuotes_add_escapedQuotes (before : Option Char) (t : Text) :
    liveQuotes before t + escapedQuotes before t = t.count '"' := by
  induction t generalizing before with
  | nil => rfl
  | cons c cs ih =>
    have hrest := ih (some c)
    rw [liveQuotes, escapedQuotes, List.count_cons, ← hrest]
    by_cases hc : c = '"'
    · by_cases hbefore : before = some '\\' <;> simp [hc, hbefore] <;> omega
    · simp [hc]

/-- Every quote that counts opens a run or ends the open one, so parity decides. -/
theorem isSome_openQuoteFrom_iff (index : Nat) (previous : Option Char) (opened : Option Nat)
    (t : Text) :
    (openQuoteFrom index previous opened t).isSome ↔
      (opened.isSome ↔ Even (liveQuotes previous t)) := by
  induction t generalizing index previous opened with
  | nil => simp [openQuoteFrom, liveQuotes]
  | cons c cs ih =>
    by_cases hc : c = '"' ∧ previous ≠ some '\\'
    · rw [openQuoteFrom_live hc, ih, liveQuotes, if_pos hc, Nat.add_comm, Nat.even_add_one]
      cases opened <;> simp
    · rw [openQuoteFrom_other hc, ih, liveQuotes, if_neg hc, Nat.zero_add]

theorem isSome_openQuote?_iff (t : Text) :
    (openQuote? t).isSome ↔ Odd (liveQuotes none t) := by
  rw [openQuote?, isSome_openQuoteFrom_iff, ← Nat.not_even_iff_odd]
  simp

/-! ## Where the reader of attributes is -/

namespace Attribute

/-- A quoted value or literal is being read. -/
def Phase.inQuotes : Phase → Bool
  | literal _ | quoted .. => true
  | _ => false

/-- What is being read after a text. -/
def Phase.after (phase : Phase) (offset : Nat) : Text → Phase
  | [] => phase
  | c :: cs => (phase.step offset c).1.after (offset + 1) cs

/-- The last item is the one that is being read when the text ends. -/
theorem readFrom_eq_append (phase : Phase) (offset : Nat) (t : Text) :
    ∃ ended, readFrom phase offset t = ended ++ (phase.after offset t).finish := by
  induction t generalizing phase offset with
  | nil => exact ⟨[], rfl⟩
  | cons c cs ih =>
    rcases ih (phase.step offset c).1 (offset + 1) with ⟨ended, hended⟩
    rw [readFrom, Phase.after]
    split
    · next next hstep =>
      rw [hstep] at hended ⊢
      exact ⟨ended, hended⟩
    · next next item hstep =>
      rw [hstep] at hended ⊢
      exact ⟨item :: ended, by rw [hended]; rfl⟩

/-- No quote has been taken for a part of a name or of a value without quotes. -/
def Phase.Tidy : Phase → Prop
  | between | literal _ => True
  | name _ soFar => '"' ∉ soFar
  | equals _ n | quoted _ n _ => '"' ∉ n
  | bare .. => False

/-- The item has no quote in its name, and its value is quoted if it has one. -/
def Tidy : Attribute → Prop
  | literal _ => True
  | pair name value quoted _ => '"' ∉ name ∧ (value.isSome → quoted = true)

section Tidy

variable {phase : Phase} {offset : Nat} {c : Char} {t : Text}

theorem Phase.tidy_of_finish (h : ∀ item ∈ phase.finish, item.Tidy) : phase.Tidy := by
  cases phase with
  | between => trivial
  | literal soFar => trivial
  | name start soFar => simpa [Phase.Tidy] using (h _ List.mem_cons_self).1
  | equals start n => exact absurd ((h _ List.mem_cons_self).2 rfl) (by decide)
  | quoted start n soFar => exact (h _ List.mem_cons_self).1
  | bare start n soFar => exact absurd ((h _ List.mem_cons_self).2 rfl) (by decide)

/-- What one character comes to: if that is tidy then what was being read is tidy too, and exactly a
quote has led into quotes or out of them. -/
def Phase.Turns (phase : Phase) (c : Char) (r : Phase × Option Attribute) : Prop :=
  r.1.Tidy → (∀ item, r.2 = some item → item.Tidy) →
    phase.Tidy ∧ (r.1.inQuotes ↔ (phase.inQuotes ↔ c ≠ '"'))

theorem Phase.Turns.ite {p : Prop} [Decidable p] {r r' : Phase × Option Attribute}
    (hr : p → phase.Turns c r) (hr' : ¬ p → phase.Turns c r') :
    phase.Turns c (if p then r else r') := by
  split
  · next hp => exact hr hp
  · next hp => exact hr' hp

theorem Phase.turns_step (phase : Phase) (offset : Nat) (c : Char) :
    phase.Turns c (phase.step offset c) := by
  have hblankQuote : Text.isBlank c = true → c ≠ '"' := by
    rintro hblank rfl
    exact absurd hblank (by decide)
  cases phase with
  | between =>
    refine .ite (fun hblank _ _ => ?_) fun _ => .ite (fun hquote _ _ => ?_) fun hquote => ?_
    · simp [Phase.Tidy, Phase.inQuotes, hblankQuote hblank]
    · simp [Phase.Tidy, Phase.inQuotes, hquote]
    · refine .ite (fun _ _ _ => ?_) fun _ _ _ => ?_ <;> simp [Phase.Tidy, Phase.inQuotes, hquote]
  | literal soFar =>
    refine .ite (fun hquote _ _ => ?_) fun hquote _ _ => ?_ <;>
      simp [Phase.Tidy, Phase.inQuotes, hquote]
  | name start soFar =>
    refine .ite (fun hblank _ hitem => ?_) fun _ => .ite (fun hequals hnext _ => ?_) ?_
    · have hn : '"' ∉ soFar := by simpa using (hitem _ rfl).1
      simp [Phase.Tidy, Phase.inQuotes, hn, hblankQuote hblank]
    · have hn : '"' ∉ soFar := by simpa [Phase.Tidy] using hnext
      simp [Phase.Tidy, Phase.inQuotes, hn, hequals]
    · intro _ hnext _
      have hn : '"' ≠ c ∧ '"' ∉ soFar := by simpa [Phase.Tidy] using hnext
      simp [Phase.Tidy, Phase.inQuotes, hn.2, hn.1.symm]
  | equals start n =>
    -- Only a quote may follow the equals sign: anything else begins a value without quotes.
    refine .ite (fun hquote hnext _ => ?_) fun _ => .ite (fun _ _ hitem => ?_) fun _ hnext => ?_
    · exact ⟨hnext, by simp [Phase.inQuotes, hquote]⟩
    · exact absurd ((hitem _ rfl).2 rfl) (by decide)
    · exact hnext.elim
  | quoted start n soFar =>
    refine .ite (fun hquote _ hitem => ?_) fun hquote hnext _ => ?_
    · exact ⟨(hitem _ rfl).1, by simp [Phase.inQuotes, hquote]⟩
    · exact ⟨hnext, by simp [Phase.inQuotes, hquote]⟩
  | bare start n soFar =>
    refine .ite (fun _ _ hitem => ?_) fun _ hnext => hnext.elim
    exact absurd ((hitem _ rfl).2 rfl) (by decide)

/-- A text whose items are all tidy: every quote of it leads into quotes or out of them. -/
theorem Phase.inQuotes_after_iff (h : ∀ item ∈ readFrom phase offset t, item.Tidy) :
    phase.Tidy ∧ ((phase.after offset t).inQuotes ↔ (phase.inQuotes ↔ Even (t.count '"'))) := by
  induction t generalizing phase offset with
  | nil => exact ⟨tidy_of_finish h, by simp [Phase.after]⟩
  | cons c cs ih =>
    have hlater : ∀ item ∈ readFrom (phase.step offset c).1 (offset + 1) cs, item.Tidy := by
      intro item hitem
      apply h
      rw [readFrom]
      split
      · next next hstep => simpa [hstep] using hitem
      · next next ended hstep => exact List.mem_cons_of_mem _ (by simpa [hstep] using hitem)
    have hended : ∀ item, (phase.step offset c).2 = some item → item.Tidy := by
      intro item hitem
      apply h
      rw [readFrom]
      split
      · next next hstep => simp [hstep] at hitem
      · next next ended hstep =>
        obtain rfl : ended = item := by simpa [hstep] using hitem
        exact List.mem_cons_self
    -- The induction gives that the next phase is tidy, and only then the step says something.
    rcases ih hlater with ⟨hnext, hafter⟩
    rcases turns_step phase offset c hnext hended with ⟨hphase, hstep⟩
    refine ⟨hphase, ?_⟩
    rw [Phase.after, hafter, hstep, List.count_cons]
    by_cases hc : c = '"'
    · simp only [hc, beq_self_eq_true, if_true, Nat.even_add_one, ne_eq, not_true]
      tauto
    · simp [hc]

end Tidy

end Attribute

/-! ## The attributes of a tag -/

namespace Clause

/-- The part of a clause that its attributes are read from, with its offset. Loops, conditions and
data have none. -/
def list? (kind : TagKind) (offset : Nat) (rest : Text) : Option (Nat × Text) :=
  match kind with
  | .container .form =>
    let stripped := Text.stripStart rest
    let event := stripped.takeWhile fun c => !Text.isBlank c
    let lead :=
      if stripped.head? = some '@' then rest.length - stripped.length + event.length else 0
    some (offset + lead, rest.drop lead)
  | .container .each | .container .cond | .json => none
  | _ => some (offset, rest)

theorem items_ofText (kind : TagKind) (offset : Nat) (rest : Text) :
    (ofText kind offset rest).items =
      match list? kind offset rest with
      | none => []
      | some (start, list) => Attribute.readAll start list := by
  cases kind with
  | container c =>
    cases c with
    | form =>
      simp only [ofText, ofForm, list?]
      split <;> rfl
    | each =>
      rcases ofEach_cases rest with ⟨source, loopVariable, heach, -⟩
      simp only [ofText, heach, list?, items]
    | _ => rfl
  | _ => rfl

theorem lead_of_list? {kind : TagKind} {offset start : Nat} {rest list : Text}
    (h : list? kind offset rest = some (start, list)) :
    ∃ lead, rest = lead ++ list ∧ (ofText kind offset rest).Lead lead := by
  have hplain : some (offset, rest) = some (start, list) → (ofText kind offset rest).Lead [] →
      ∃ lead, rest = lead ++ list ∧ (ofText kind offset rest).Lead lead := by
    intro hsome hlead
    exact ⟨[], (Prod.mk.inj (Option.some.inj hsome)).2, hlead⟩
  cases kind with
  | container c =>
    cases c with
    | form =>
      simp only [list?, Option.some.injEq, Prod.mk.injEq] at h
      simp only [ofText, ofForm]
      split
      · next hevent =>
        rw [if_pos hevent] at h
        rcases exists_blanks_word rest with ⟨blanks, list', hblanks, hused, hsplit⟩
        generalize (Text.stripStart rest).takeWhile (fun c => !Text.isBlank c) = event at h hsplit ⊢
        refine ⟨blanks ++ event, ?_, blanks, hblanks, rfl⟩
        rw [← h.2, hused, ← List.length_append, hsplit, List.drop_left]
      · next hevent =>
        rw [if_neg hevent] at h
        exact ⟨[], h.2, [], rfl, rfl⟩
    | each => simp [list?] at h
    | cond => simp [list?] at h
    | _ => exact hplain h rfl
  | json => simp [list?] at h
  | leaf => exact hplain h rfl

end Clause

/-- The part of a tag that its attributes are read from, with its offset. -/
def Tag.list? (inner : Text) : Option (Nat × Text) :=
  match Tag.ofInner inner with
  | .opening name _ => Clause.list? (TagKind.ofName name) name.length (inner.drop name.length)
  | _ => none

section Tags

variable {inner list : Text} {start offset : Nat}

theorem Tag.list?_eq_some (h : Tag.list? inner = some (offset, list)) :
    ∃ name lead rest, let clause := Clause.ofText (TagKind.ofName name) name.length rest
      Tag.ofInner inner = .opening name clause ∧ clause.Lead lead ∧
      clause.items = Attribute.readAll offset list ∧ inner = name ++ (lead ++ list) := by
  unfold Tag.list? at h
  split at h
  · next name clause htag =>
    rcases Tag.ofInner_eq_opening htag with ⟨rest, rfl, rfl⟩
    rw [List.drop_left] at h
    rcases Clause.lead_of_list? h with ⟨lead, hrest, hlead⟩
    refine ⟨name, lead, rest, htag, hlead, ?_, by rw [hrest]⟩
    rw [Clause.items_ofText, h]
  · simp at h

theorem quote_notMem_of_isName {first rest : Char → Bool} {t : Text}
    (h : isName first rest t = true) (hfirst : first '"' = false) (hrest : rest '"' = false) :
    '"' ∉ t := by
  cases t with
  | nil => simp
  | cons c cs =>
    simp only [isName, Bool.and_eq_true, List.all_eq_true] at h
    intro hmem
    rcases List.mem_cons.mp hmem with rfl | hmem
    · simp [hfirst] at h
    · exact absurd (h.2 _ hmem) (by simp [hrest])

/-- An attribute that passes is tidy. -/
theorem Attribute.tidy_of_rules {item : Attribute} (hmem : item ∈ Attribute.readAll offset list)
    (start : Nat) (h : ∀ r ∈ item.rules start, r.verdict = .ok ()) : item.Tidy := by
  cases item with
  | literal value => trivial
  | pair name value quoted place =>
    have hcheck : Check.attributeItem name value quoted = .ok () := h _ List.mem_cons_self
    have hname := elementName_of_attributeItem (standsIn_of_mem_readAll hmem).nameText hcheck
    refine ⟨quote_notMem_of_isName hname (by decide) (by decide), ?_⟩
    intro hvalue
    by_contra hquoted
    unfold Check.attributeItem at hcheck
    split at hcheck <;> simp [hvalue, hquoted] at hcheck

/-- The event of a form that passes, and the blanks before it, hold no quote. -/
theorem Clause.quote_notMem_lead {kind : TagKind} {rest lead : Text}
    (hlead : (Clause.ofText kind offset rest).Lead lead)
    (h : ∀ r ∈ (Clause.ofText kind offset rest).ownRules start, r.verdict = .ok ()) :
    '"' ∉ lead := by
  have hnone : lead = [] → '"' ∉ lead := by
    rintro rfl
    simp
  cases kind with
  | container c =>
    cases c with
    | form =>
      rcases Clause.ofForm_cases offset rest with ⟨event, items, hform, hblank⟩
      rw [Clause.ofText, hform] at hlead h
      rcases hlead with ⟨blanks, hblanks, rfl⟩
      rcases eventText_of_check hblank (h _ List.mem_cons_self) with ⟨name, rfl, hname⟩
      intro hmem
      rcases List.mem_append.mp hmem with hmem | hmem
      · exact absurd (List.all_eq_true.mp hblanks _ hmem) (by decide)
      · exact quote_notMem_of_isName hname (by decide) (by decide) (by simpa using hmem)
    | each =>
      rcases Clause.ofEach_cases rest with ⟨source, loopVariable, heach, -⟩
      rw [Clause.ofText, heach] at hlead
      exact hnone hlead
    | _ => exact hnone hlead
  | _ => exact hnone hlead

/-- Where the reader of attributes is at the end of a tag that passes. -/
theorem inQuotes_list_iff (hrules : ∀ r ∈ (Tag.ofInner inner).rules start, r.verdict = .ok ())
    (hlist : Tag.list? inner = some (offset, list)) :
    (Attribute.Phase.between.after offset list).inQuotes ↔ Odd (inner.count '"') := by
  rcases Tag.list?_eq_some hlist with ⟨name, lead, rest, htag, hlead, hitems, rfl⟩
  rw [htag] at hrules
  have hname : ElementName name := elementName_of_check (hrules _ List.mem_cons_self)
  have hclause := fun r hr => hrules r (List.mem_cons_of_mem _ hr)
  have htidy : ∀ item ∈ Attribute.readAll offset list, item.Tidy := by
    intro item hitem
    refine Attribute.tidy_of_rules hitem (start + 1) fun r hr => hclause r ?_
    exact List.mem_append_right _ (List.mem_flatMap.mpr ⟨item, hitems ▸ hitem, hr⟩)
  -- All quotes of the tag stand in the list: neither its name nor its event has room for one.
  have hcount : (name ++ (lead ++ list)).count '"' = list.count '"' := by
    have hname' := quote_notMem_of_isName hname (by decide) (by decide)
    have hlead' := Clause.quote_notMem_lead hlead fun r hr => hclause r (List.mem_append_left _ hr)
    simp [List.count_append, List.count_eq_zero.mpr hname', List.count_eq_zero.mpr hlead']
  rw [hcount, (Attribute.Phase.inQuotes_after_iff htidy).2, ← Nat.not_even_iff_odd]
  simp [Attribute.Phase.inQuotes]

end Tags

/-! ## The verdict about a tag -/

section Verdict

variable {inner : Text} {start : Nat} {map : SourceMap} {s s' : Scan}

/-- Only the rule about quotes complains about a quote. -/
theorem Tag.verdict_ne_unclosedQuote {tag : Tag} {r : Rule} (hr : r ∈ tag.rules start) :
    r.verdict ≠ .error .unclosedQuote := by
  intro hverdict
  have hbreaks : ¬ tag.Breaks .unclosedQuote := by
    intro h
    have hmarks : Fault.Marks [] ['['] .unclosedQuote := h.marks rfl
    simp [Fault.Marks] at hmarks
  cases tag with
  | closing name =>
    rcases List.mem_singleton.mp hr with rfl
    exact hbreaks hverdict
  | component name argument =>
    rcases List.mem_singleton.mp hr with rfl
    exact hbreaks hverdict
  | opening name clause =>
    rcases List.mem_cons.mp hr with rfl | hr
    · exact hbreaks (Or.inl hverdict)
    · rcases List.mem_append.mp hr with hr | hr
      · exact hbreaks (Or.inr (breaks_of_ownRules hr hverdict).2)
      · rcases List.mem_flatMap.mp hr with ⟨item, -, hr⟩
        cases item with
        | literal value => simp [Attribute.rules] at hr
        | pair n value quoted place =>
          rcases List.mem_singleton.mp hr with rfl
          simp only [Check.attributeItem] at hverdict
          split at hverdict
          · simp at hverdict
          · split at hverdict <;> simp at hverdict

theorem balance_ne_unclosedQuote (map : SourceMap) (stack : TagStack Container) (p : Placed)
    (position : Position) : p.balance map stack ≠ .error ⟨.unclosedQuote, position⟩ := by
  intro h
  rw [balance_eq] at h
  split at h
  · simp at h
  · simp at h
  · next name place _ =>
    cases stack with
    | nil => simp [TagStack.pop, Except.map] at h
    | cons top rest =>
      by_cases hname : top.name = name <;> simp [TagStack.pop, hname, Except.map] at h

theorem quoteRule_verdict (offset : Nat) (t : Text) :
    (quoteRule offset t).verdict = .ok () ∧ openQuote? t = none ∨
      (quoteRule offset t).verdict = .error .unclosedQuote ∧ (openQuote? t).isSome := by
  unfold quoteRule
  cases openQuote? t <;> simp

/-- A tag is refused for an open quote exactly if the rule about quotes, which comes first, finds
one. -/
theorem reviewStep_unclosedQuote_iff (map : SourceMap) (stack : TagStack Container) (start : Nat) :
    (∃ position, reviewStep map stack ⟨start, .tag inner⟩ = .error ⟨.unclosedQuote, position⟩) ↔
      (openQuote? inner).isSome := by
  constructor
  · rintro ⟨position, hstep⟩
    -- The rules of the tag and the stack have other complaints.
    rcases bind_eq_error_iff.mp hstep with hcheck | ⟨_, -, hbalance⟩
    · rw [check_eq_applyRules] at hcheck
      rcases applyRules_eq_error hcheck with ⟨r, hr, fault, hverdict, he⟩
      obtain rfl : Fault.unclosedQuote = fault := congrArg ScanError.fault he
      rcases List.mem_cons.mp hr with rfl | hr
      · rcases quoteRule_verdict (start + 1) inner with ⟨hok, -⟩ | ⟨-, hsome⟩
        · simp [hok] at hverdict
        · exact hsome
      · exact absurd hverdict (Tag.verdict_ne_unclosedQuote hr)
    · exact absurd hbalance (balance_ne_unclosedQuote map stack _ position)
  · intro hsome
    rcases Option.isSome_iff_exists.mp hsome with ⟨index, hindex⟩
    refine ⟨map.position (start + 1 + index), ?_⟩
    simp [reviewStep, Placed.check, checkQuotes, hindex, bind, Except.bind]

/-! ## Rounds that meet a tag -/

/-- The inner text of the tag at the cursor, if one begins there and its end is found. -/
def Scan.tagAt? (s : Scan) : Option Text :=
  if s.rest.head? = some '[' then
    ((tagEnd s.cursor.offset (s.rest.drop 1) : Memoised (Option Nat)).run s.memo).1.map
      fun size => (s.rest.drop 1).take size
  else none

/-- Where a tag begins its scanner decides. -/
theorem Scan.look_tag (mode : Mode) (map : SourceMap) (htag : s.tagAt? = some inner) :
    ∃ size, (s.look mode map).1 =
      (takeTag mode map s.stack s.cursor.offset inner).map fun taken =>
        ⟨size + 2, .token taken.1, taken.2⟩ := by
  unfold tagAt? at htag
  split at htag
  · next hhead =>
    obtain ⟨size, hfound, rfl⟩ := Option.map_eq_some_iff.mp htag
    obtain ⟨t, hrest⟩ := List.head?_eq_some_iff.mp hhead
    have honly : (scanAt mode map s.stack s.cursor s.rest : ExceptT ScanError Memoised Taken) =
        tagScan mode map s.stack s.cursor s.rest >>= fun taken? =>
          pure (taken?.getD (textScan s.stack s.cursor s.rest)) := by
      rw [hrest]
      exact scanAt_alone 6 2 rfl
    refine ⟨size, ?_⟩
    rcases hrun : (tagEnd s.cursor.offset (s.rest.drop 1) : Memoised (Option Nat)).run s.memo with
      ⟨found, memo⟩
    rw [hrun] at hfound
    dsimp only at hfound
    subst hfound
    have htagScan : (tagScan mode map s.stack s.cursor s.rest :
        ExceptT ScanError Memoised (Option Taken)).run.run s.memo =
          ((takeTag mode map s.stack s.cursor.offset ((s.rest.drop 1).take size)).map fun taken =>
            some ⟨size + 2, .token taken.1, taken.2⟩, memo) := by
      unfold tagScan
      rw [if_pos hhead, Bridge.tagEnd_lift, ExceptT.run_bind_lift, StateT.run_bind, hrun]
      change ((ofExcept (takeTag mode map s.stack s.cursor.offset ((s.rest.drop 1).take size)) >>=
        fun taken => pure (some ⟨size + 2, .token taken.1, taken.2⟩) :
          ExceptT ScanError Memoised (Option Taken)).run.run memo) = _
      cases takeTag mode map s.stack s.cursor.offset ((s.rest.drop 1).take size) <;> rfl
    rw [look, honly, ExceptT.run_bind, StateT.run_bind, htagScan]
    cases takeTag mode map s.stack s.cursor.offset ((s.rest.drop 1).take size) <;> rfl
  · simp at htag

/-- In strict mode a tag is taken if its review finds no fault. -/
theorem takeTag_strict (map : SourceMap) (stack : TagStack Container) (start : Nat) (inner : Text) :
    takeTag .strict map stack start inner =
      (reviewStep map stack ⟨start, .tag inner⟩).map fun stack =>
        ((Tag.ofInner inner).token, stack) := by
  rw [takeTag_eq]
  change _ = Except.map _ ((checkQuotes map (start + 1) inner >>= fun _ =>
    checkTag map start (Tag.ofInner inner)) >>= fun _ =>
      (Tag.ofInner inner).balance map stack start)
  unfold Mode.demand Mode.balance
  cases checkQuotes map (start + 1) inner >>= fun _ => checkTag map start (Tag.ofInner inner) <;>
    rfl

/-- A round that meets a tag goes on or fails as the review of the tag does. -/
theorem Scan.round_tag (map : SourceMap) (htag : s.tagAt? = some inner) :
    (∃ stack, reviewStep map s.stack ⟨s.cursor.offset, .tag inner⟩ = .ok stack ∧
      ∃ s', s.round .strict map = .ok s') ∨
    ∃ e, reviewStep map s.stack ⟨s.cursor.offset, .tag inner⟩ = .error e ∧
      s.round .strict map = .error e := by
  rcases look_tag .strict map htag with ⟨size, hlook⟩
  rw [takeTag_strict] at hlook
  unfold round
  rcases hrun : s.look .strict map with ⟨outcome, memo⟩
  rw [hrun] at hlook
  dsimp only at hlook
  subst hlook
  cases reviewStep map s.stack ⟨s.cursor.offset, .tag inner⟩ with
  | ok stack => exact Or.inl ⟨stack, rfl, _, rfl⟩
  | error e => exact Or.inr ⟨e, rfl, rfl⟩

/-- A round that meets a tag finds an open quote exactly if the tag leaves one open. -/
theorem Scan.round_unclosedQuote_iff (htag : s.tagAt? = some inner) :
    (∃ position, s.round .strict map = .error ⟨.unclosedQuote, position⟩) ↔
      (openQuote? inner).isSome := by
  rw [← reviewStep_unclosedQuote_iff map s.stack s.cursor.offset]
  refine exists_congr fun position => ?_
  rcases round_tag map htag with ⟨stack, hstep, s', hround⟩ | ⟨e, hstep, hround⟩
  · simp [hstep, hround]
  · simp [hstep, hround]

/-- In a tag that passes no rule is broken. -/
theorem Scan.verdict_of_round (htag : s.tagAt? = some inner) (h : s.round .strict map = .ok s') :
    openQuote? inner = none ∧
      ∀ r ∈ (Tag.ofInner inner).rules s.cursor.offset, r.verdict = .ok () := by
  rcases round_tag map htag with ⟨stack, hstep, -⟩ | ⟨e, -, hround⟩
  · have hcheck := (reviewStep_eq_ok hstep).1
    rw [check_eq_applyRules] at hcheck
    have hrules := applyRules_eq_ok hcheck
    refine ⟨?_, fun r hr => hrules r (List.mem_cons_of_mem _ hr)⟩
    rcases quoteRule_verdict (s.cursor.offset + 1) inner with ⟨-, hnone⟩ | ⟨herror, -⟩
    · exact hnone
    · simp [hrules _ List.mem_cons_self] at herror
  · simp [hround] at h

end Verdict

/-- Whatever has been scanned, the verdict about the quotes of the next tag depends on the quotes
that have no backslash before them. It agrees with the parity of all quotes, by which the end of the
tag is found and its attributes are read, exactly if an even number of quotes has a backslash before
it; if the number is odd, a tag that passes ends inside a quoted value or literal. -/
theorem quote_judged_iff (s : Scan) (map : SourceMap) (inner : Text)
    (htag : s.tagAt? = some inner) :
    let refused := ∃ position, s.round .strict map = .error ⟨.unclosedQuote, position⟩
    (refused ↔ Odd (liveQuotes none inner)) ∧
      ((refused ↔ Odd (inner.count '"')) ↔ Even (escapedQuotes none inner)) ∧
      ∀ s', s.round .strict map = .ok s' → ∀ offset list, Tag.list? inner = some (offset, list) →
        ∃ ended last, Attribute.readAll offset list = ended ++ Attribute.Phase.finish last ∧
          last = Attribute.Phase.between.after offset list ∧
          (last.inQuotes ↔ Odd (escapedQuotes none inner)) := by
  intro refused
  have hcount := liveQuotes_add_escapedQuotes none inner
  have hrefused : refused ↔ Odd (liveQuotes none inner) := by
    rw [← isSome_openQuote?_iff]
    exact Scan.round_unclosedQuote_iff htag
  refine ⟨hrefused, ?_, ?_⟩
  · rw [hrefused, ← hcount, Nat.odd_add]
    tauto
  · intro s' hround offset list hlist
    rcases Scan.verdict_of_round htag hround with ⟨hnone, hrules⟩
    have heven : ¬ Odd (liveQuotes none inner) := by
      rw [← isSome_openQuote?_iff, hnone]
      simp
    rcases Attribute.readFrom_eq_append .between offset list with ⟨ended, hended⟩
    refine ⟨ended, _, hended, rfl, ?_⟩
    rw [inQuotes_list_iff hrules hlist, ← hcount, Nat.odd_add]
    simp [heven]

/-- A tag with a value in quotes passes: it has no backslash, and its quotes are closed. -/
theorem quote_judged_value :
    let inner := "a b=\"c\"".toList
    let s := Scan.start ('[' :: (inner ++ [']']))
    (¬ ∃ position, s.round .strict (SourceMap.ofText s.rest) = .error ⟨.unclosedQuote, position⟩) ∧
      ((∃ position, s.round .strict (SourceMap.ofText s.rest) =
          .error ⟨.unclosedQuote, position⟩) ↔ Odd (inner.count '"')) := by
  intro inner s
  have h := quote_judged_iff s (SourceMap.ofText s.rest) inner (by decide)
  exact ⟨mt h.1.mp (by decide), h.2.1.mpr (by decide)⟩

/-- A literal that ends with a backslash is refused although its quotes are closed, and a tag whose
last quote is open passes. -/
theorem quote_misjudged_backslash :
    let closed := "a \"x\\\"".toList
    let opened := "a \"b\\\" \"".toList
    (Even (closed.count '"') ∧
      tokenize .strict ('[' :: (closed ++ [']'])) = .error ⟨.unclosedQuote, ⟨1, 4⟩⟩) ∧
    Odd (opened.count '"') ∧
      tokenize .strict ('[' :: (opened ++ [']'])) =
        .ok [.leaf ['a'] [(contentKey, [])], .eof] := by
  refine ⟨⟨by decide, by decide⟩, by decide, by decide⟩

end Notemark.Body
