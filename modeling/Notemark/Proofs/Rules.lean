import Notemark.Proofs.AttributeItems
import Notemark.Proofs.TagBalance

/-!
# The rules of strict reading

Strict reading stops at the first rule that is broken. Here the rules of a construct are a list:

* `Rule`: a rule with its verdict, and the offset at which it is reported if it is broken,
* `Placed.rules`: the rules of a reading, in the order in which they are looked at,
* `check_eq_applyRules`: checking a reading is going through its rules,
* `verdict_of_tokenize`: in an accepted body no rule is broken,
* `Refused`: a broken rule or unbalanced tags, which is what a refused body has.
-/

namespace Notemark.Body

/-! ## Rules -/

structure Rule where
  offset : Nat
  verdict : Except Fault Unit

/-- Reports the first rule that is broken. -/
def applyRules (map : SourceMap) : List Rule → Except ScanError Unit
  | [] => .ok ()
  | r :: rs => do
    report map r.offset r.verdict
    applyRules map rs

/-- The text at the offset leaves no quote open. -/
def quoteRule (offset : Nat) (t : Text) : Rule :=
  match openQuote? t with
  | none => ⟨offset, .ok ()⟩
  | some index => ⟨offset + index, .error .unclosedQuote⟩

/-- The rule of one attribute; `inner` is the offset of the text of its tag. -/
def Attribute.rules (inner : Nat) : Attribute → List Rule
  | literal _ => []
  | pair name value quoted offset => [⟨inner + offset, Check.attributeItem name value quoted⟩]

/-- What the clause of the tag at `start` has to be, apart from its attributes. -/
def Clause.ownRules (start : Nat) : Clause → List Rule
  | plain _ => []
  | form event _ => [⟨start, Check.event event⟩]
  | each source loopVariable => [⟨start, Check.loop source loopVariable⟩]
  | cond condition => [⟨start, Check.condition condition⟩]
  | json shown => [⟨start, Check.jsonVariable shown⟩]

def Clause.rules (start : Nat) (clause : Clause) : List Rule :=
  clause.ownRules start ++ clause.items.flatMap (Attribute.rules (start + 1))

def Tag.rules (start : Nat) : Tag → List Rule
  | closing name | component name _ => [⟨start, Check.elementName name⟩]
  | opening name clause => ⟨start, Check.elementName name⟩ :: clause.rules start

def Breach.rules (start : Nat) : Breach → List Rule
  | idMarker => [⟨start, .error .unterminatedIdMarker⟩]
  | styleMarker line =>
    if (line.drop styleHead.length).head? ≠ some '"' then
      [⟨start + styleHead.length, .error .unquotedClass⟩]
    -- The line may leave a quote open that has nothing to do with the marker.
    else [quoteRule start line, ⟨start, .error .malformedStyleMarker⟩]
  | reference line => [⟨start, Check.reference line⟩]
  | tag => [⟨start, .error .unclosedElement⟩]

/-- The rules of a reading, in the order in which they are looked at. -/
def Placed.rules (p : Placed) : List Rule :=
  match p.reading with
  | .idMarker inner =>
    [⟨p.offset, if (Text.strip inner).isEmpty then .error .emptyIdMarker else .ok ()⟩]
  | .reference raw => [⟨p.offset, Check.reference raw⟩]
  | .tag inner => quoteRule (p.offset + 1) inner :: (Tag.ofInner inner).rules p.offset
  | .text _ (some breach) => breach.rules p.offset
  | _ => []

/-! ## Going through the rules -/

section Apply

variable {map : SourceMap} {r : Rule} {rs : List Rule}

theorem applyRules_cons (map : SourceMap) (r : Rule) (rs : List Rule) :
    applyRules map (r :: rs) = report map r.offset r.verdict >>= fun _ => applyRules map rs := rfl

/-- The last rule needs no bind after it. -/
theorem applyRules_singleton (map : SourceMap) (offset : Nat) (verdict : Except Fault Unit) :
    applyRules map [⟨offset, verdict⟩] = report map offset verdict := by
  cases verdict <;> rfl

theorem applyRules_eq_ok (h : applyRules map rs = .ok ()) : ∀ r ∈ rs, r.verdict = .ok () := by
  induction rs with
  | nil => simp
  | cons first rs ih =>
    cases hverdict : first.verdict with
    | error fault =>
      rw [applyRules_cons, hverdict] at h
      have hstop : (.error ⟨fault, map.position first.offset⟩ : Except ScanError Unit) = .ok () := h
      simp at hstop
    | ok u =>
      rw [applyRules_cons, hverdict] at h
      intro r hr
      rcases List.mem_cons.mp hr with rfl | hr
      · exact hverdict
      · exact ih h r hr

theorem applyRules_eq_error {e : ScanError} (h : applyRules map rs = .error e) :
    ∃ r ∈ rs, ∃ fault, r.verdict = .error fault ∧ e = ⟨fault, map.position r.offset⟩ := by
  induction rs with
  | nil => simp [applyRules] at h
  | cons first rs ih =>
    cases hverdict : first.verdict with
    | error fault =>
      rw [applyRules_cons, hverdict] at h
      exact ⟨first, List.mem_cons_self, fault, hverdict, (Except.error.inj h).symm⟩
    | ok u =>
      rw [applyRules_cons, hverdict] at h
      rcases ih h with ⟨r, hr, hbroken⟩
      exact ⟨r, List.mem_cons_of_mem first hr, hbroken⟩

theorem checkQuotes_eq (map : SourceMap) (offset : Nat) (t : Text) :
    checkQuotes map offset t =
      report map (quoteRule offset t).offset (quoteRule offset t).verdict := by
  unfold checkQuotes quoteRule
  cases openQuote? t <;> rfl

theorem checkAttributes_eq (map : SourceMap) (inner : Nat) (items : List Attribute) :
    checkAttributes map inner items =
      applyRules map (items.flatMap (Attribute.rules inner)) := by
  induction items with
  | nil => rfl
  | cons item items ih =>
    cases item with
    | literal value => exact ih
    | pair name value quoted offset =>
      unfold checkAttributes
      rw [ih]
      rfl

theorem checkClause_eq (map : SourceMap) (start : Nat) (clause : Clause) :
    checkClause map start clause = applyRules map (clause.rules start) := by
  cases clause with
  | plain items => exact checkAttributes_eq map (start + 1) items
  | form event items =>
    unfold checkClause
    dsimp only
    rw [checkAttributes_eq]
    rfl
  | each source loopVariable => exact (applyRules_singleton map start _).symm
  | cond condition => exact (applyRules_singleton map start _).symm
  | json shown => exact (applyRules_singleton map start _).symm

theorem checkTag_eq (map : SourceMap) (start : Nat) (tag : Tag) :
    checkTag map start tag = applyRules map (tag.rules start) := by
  cases tag with
  | closing name => exact (applyRules_singleton map start _).symm
  | component name argument => exact (applyRules_singleton map start _).symm
  | opening name clause =>
    unfold checkTag
    dsimp only
    rw [checkClause_eq]
    rfl

theorem checkBreach_eq (map : SourceMap) (start : Nat) (breach : Breach) :
    checkBreach map start breach = applyRules map (breach.rules start) := by
  cases breach with
  | idMarker => exact (applyRules_singleton map start _).symm
  | reference line => exact (applyRules_singleton map start _).symm
  | tag => exact (applyRules_singleton map start _).symm
  | styleMarker line =>
    unfold checkBreach Breach.rules
    dsimp only
    split
    · exact (applyRules_singleton map _ _).symm
    · rw [checkQuotes_eq, applyRules_cons, applyRules_singleton]

/-- Checking a reading is going through its rules. -/
theorem check_eq_applyRules (map : SourceMap) (p : Placed) :
    p.check map = applyRules map p.rules := by
  rcases p with ⟨offset, reading⟩
  cases reading with
  | idMarker inner =>
    unfold Placed.check Placed.rules
    dsimp only
    rw [applyRules_singleton]
    split <;> rfl
  | reference raw => exact (applyRules_singleton map offset _).symm
  | tag inner =>
    unfold Placed.check Placed.rules
    dsimp only
    rw [applyRules_cons, checkQuotes_eq, checkTag_eq]
  | text run breach =>
    cases breach with
    | none => rfl
    | some breach => exact checkBreach_eq map offset breach
  | _ => rfl

end Apply

/-! ## Bodies -/

section Review

variable {map : SourceMap} {stack stack' : TagStack Container} {p : Placed} {ps : List Placed}
  {e : ScanError}

/-- What is wrong with readings that are refused: a rule is broken, or the tags do not balance. -/
inductive Refused (map : SourceMap) (ps : List Placed) : ScanError → Prop where
  | rule {p : Placed} {r : Rule} {fault : Fault} : p ∈ ps → r ∈ p.rules →
      r.verdict = .error fault → Refused map ps ⟨fault, map.position r.offset⟩
  | balance {e : ScanError} : Offence (ps.filterMap (Placed.bracket? map)) e → Refused map ps e

theorem reviewStep_eq_ok (h : reviewStep map stack p = .ok stack') :
    p.check map = .ok () ∧ p.balance map stack = .ok stack' := by
  unfold reviewStep at h
  cases hcheck : p.check map with
  | error e => simp [hcheck, bind, Except.bind] at h
  | ok u => exact ⟨rfl, by simpa [hcheck, bind, Except.bind] using h⟩

theorem verdict_of_reviewFrom (h : reviewFrom map stack ps = .ok stack') :
    ∀ p ∈ ps, ∀ r ∈ p.rules, r.verdict = .ok () := by
  induction ps generalizing stack with
  | nil => simp
  | cons first ps ih =>
    cases hstep : reviewStep map stack first with
    | error e => simp [reviewFrom, hstep, bind, Except.bind] at h
    | ok next =>
      have hrest : reviewFrom map next ps = .ok stack' := by
        simpa [reviewFrom, hstep, bind, Except.bind] using h
      have hcheck := (reviewStep_eq_ok hstep).1
      rw [check_eq_applyRules] at hcheck
      intro p hp
      rcases List.mem_cons.mp hp with rfl | hp
      · exact applyRules_eq_ok hcheck
      · exact ih hrest p hp

/-- A reading that the stack does not take is an offence of the word, whatever follows. -/
theorem offence_of_balance {word : List (Bracket (OpenTag Container) ClosingTag)}
    (hleaves : Leaves SameName word stack.reverse) (h : p.balance map stack = .error e)
    (after : List (Bracket (OpenTag Container) ClosingTag)) :
    Offence (word ++ ((p.bracket? map).toList ++ after)) e := by
  rw [balance_eq] at h
  cases hb : p.bracket? map with
  | none => simp [hb] at h
  | some bracket =>
    rw [hb] at h
    cases bracket with
    | opened tag => simp at h
    | closed closing =>
      rcases closing with ⟨name, position⟩
      cases stack with
      | nil =>
        have he : ⟨.unmatchedClosingTag name, position⟩ = e := Except.error.inj h
        exact he ▸ .unmatched (Leaves.nil_iff.mp hleaves)
      | cons top rest =>
        by_cases hname : top.name = name
        · simp [TagStack.pop, hname, Except.map] at h
        · have he : ⟨.mismatchedTag name top.name top.position, position⟩ = e := by
            simpa [TagStack.pop, hname, Except.map] using h
          rw [List.reverse_cons] at hleaves
          exact he ▸ .mismatched hleaves hname

/-- The oldest tag that is left open at the end is an offence. -/
theorem offence_of_finish {word : List (Bracket (OpenTag Container) ClosingTag)}
    (hleaves : Leaves SameName word stack.reverse) (h : stack.finish = .error e) :
    Offence word e := by
  unfold TagStack.finish at h
  split at h
  · simp at h
  · next oldest hlast =>
    -- The oldest tag is the last of the stack and the first that the word leaves open.
    rcases List.getLast?_eq_some_iff.mp hlast with ⟨others, rfl⟩
    rw [List.reverse_append] at hleaves
    exact Except.error.inj h ▸ .unclosed hleaves

/-- Strict reading that stops early has met a broken rule or a tag that does not fit. The word
before holds the tags that led to the stack. -/
theorem refused_of_reviewFrom {word : List (Bracket (OpenTag Container) ClosingTag)}
    (hleaves : Leaves SameName word stack.reverse) (h : reviewFrom map stack ps = .error e) :
    (∃ p ∈ ps, p.check map = .error e) ∨
      Offence (word ++ ps.filterMap (Placed.bracket? map)) e := by
  -- Induction on the readings: the tags of each one join the word, and the stack goes along.
  induction ps generalizing word stack with
  | nil => simp [reviewFrom] at h
  | cons p ps ih =>
    have hword : (p :: ps).filterMap (Placed.bracket? map) =
        (p.bracket? map).toList ++ ps.filterMap (Placed.bracket? map) := by
      cases hb : p.bracket? map <;> simp [hb]
    rw [hword]
    cases hcheck : p.check map with
    | error e' =>
      have he : e' = e := by simpa [reviewFrom, reviewStep, hcheck, bind, Except.bind] using h
      exact Or.inl ⟨p, List.mem_cons_self, he ▸ hcheck⟩
    | ok u =>
      cases hbalance : p.balance map stack with
      | error e' =>
        have he : e' = e := by
          simpa [reviewFrom, reviewStep, hcheck, hbalance, bind, Except.bind] using h
        exact Or.inr (he ▸ offence_of_balance hleaves hbalance _)
      | ok next =>
        have hrest : reviewFrom map next ps = .error e := by
          simpa [reviewFrom, reviewStep, hcheck, hbalance, bind, Except.bind] using h
        rcases ih (leaves_of_balance hleaves hbalance) hrest with ⟨q, hq, hbroken⟩ | hoffence
        · exact Or.inl ⟨q, List.mem_cons_of_mem p hq, hbroken⟩
        · exact Or.inr (by simpa using hoffence)

theorem refused_of_review (h : review map ps = .error e) : Refused map ps e := by
  have hstart : Leaves SameName [] ([] : TagStack Container).reverse := Leaves.nil
  unfold review at h
  cases hfrom : reviewFrom map [] ps with
  | error e' =>
    have he : e' = e := by simpa [hfrom, bind, Except.bind] using h
    subst he
    rcases refused_of_reviewFrom hstart hfrom with ⟨p, hp, hcheck⟩ | hoffence
    · rw [check_eq_applyRules] at hcheck
      rcases applyRules_eq_error hcheck with ⟨r, hr, fault, hverdict, rfl⟩
      exact .rule hp hr hverdict
    · exact .balance hoffence
  | ok stack =>
    have hfinish : stack.finish = .error e := by simpa [hfrom, bind, Except.bind] using h
    exact .balance (offence_of_finish (leaves_of_reviewFrom hstart hfrom) hfinish)

/-- In an accepted body no rule of any construct is broken. -/
theorem verdict_of_tokenize {body : Text} {ts : List Token} (h : tokenize .strict body = .ok ts) :
    ∀ p ∈ readings (Text.joinLines body), ∀ r ∈ p.rules, r.verdict = .ok () := by
  rw [tokenize_strict_eq] at h
  unfold review at h
  cases hfrom : reviewFrom (SourceMap.ofText (Text.joinLines body)) []
      (readings (Text.joinLines body)) with
  | error e => simp [hfrom, bind, Except.bind, Except.map] at h
  | ok stack => exact verdict_of_reviewFrom hfrom

/-- A body that is refused has a broken rule or unbalanced tags, reported where they stand. -/
theorem refused_of_tokenize {body : Text} (h : tokenize .strict body = .error e) :
    Refused (SourceMap.ofText (Text.joinLines body)) (readings (Text.joinLines body)) e := by
  rw [tokenize_strict_eq] at h
  cases hreview : review (SourceMap.ofText (Text.joinLines body))
      (readings (Text.joinLines body)) with
  | ok u => simp [hreview, Except.map] at h
  | error e' =>
    rw [hreview] at h
    exact Except.error.inj h ▸ refused_of_review hreview

end Review

end Notemark.Body
