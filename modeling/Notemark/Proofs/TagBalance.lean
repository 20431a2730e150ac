import Notemark.Proofs.Brackets
import Notemark.Proofs.Names
import Notemark.Proofs.ScanLoop

/-!
# The balance of tags

Strict reading keeps the open tags on a stack. This module says what stands on it in every round,
and what becomes of a body whose constructs follow their own rules:

* `Emitted`, `emitted`: tokens with the offsets of the text they were read from,
* `tagWord`: the opening and closing container tags among them, as a word of brackets,
* `Offence`: what is wrong with a word that is not balanced, and where,
* `leaves_of_reviewFrom`: the stack holds the tags that the word so far leaves open,
* `settle_eq_ok_iff`, `settle_eq_error_iff`: the stack machine finds the offence of a word.
-/

namespace Notemark.Body

/-- A token and the offset of the text it was read from. -/
structure Emitted where
  offset : Nat
  token : Token
  deriving Repr, DecidableEq

/-- The tokens of readings; plain text is not among them. -/
def emitted (ps : List Placed) : List Emitted :=
  ps.filterMap fun p => p.reading.token?.map (⟨p.offset, ·⟩)

/-- A closing tag: its name as written, and where its bracket stands. -/
abbrev ClosingTag := Text × Position

/-- A container that is opened, or a closing tag. -/
def Emitted.tag? (map : SourceMap) (e : Emitted) :
    Option (Bracket (OpenTag Container) ClosingTag) :=
  match e.token with
  | .opening c name _ => some (.opened ⟨c, name, map.position e.offset⟩)
  | .closing _ name => some (.closed (name, map.position e.offset))
  | _ => none

/-- The tags that count for the balance, in order. -/
def tagWord (map : SourceMap) (es : List Emitted) :
    List (Bracket (OpenTag Container) ClosingTag) :=
  es.filterMap (Emitted.tag? map)

/-- Tags are matched by their names. -/
def SameName (tag : OpenTag Container) (closing : ClosingTag) : Prop := tag.name = closing.1

/-- What is wrong with a word of tags. In the first two cases everything before the closing tag is
in order, so that it is the first one that offends; in the third no closing tag offends. -/
inductive Offence : List (Bracket (OpenTag Container) ClosingTag) → ScanError → Prop where
  | unmatched {before after : List (Bracket (OpenTag Container) ClosingTag)} {name : Text}
      {position : Position} :
      Balanced SameName before →
        Offence (before ++ .closed (name, position) :: after)
          ⟨.unmatchedClosingTag name, position⟩
  | mismatched {before after : List (Bracket (OpenTag Container) ClosingTag)} {name : Text}
      {position : Position} {outer : List (OpenTag Container)} {innermost : OpenTag Container} :
      Leaves SameName before (outer ++ [innermost]) → innermost.name ≠ name →
        Offence (before ++ .closed (name, position) :: after)
          ⟨.mismatchedTag name innermost.name innermost.position, position⟩
  | unclosed {word : List (Bracket (OpenTag Container) ClosingTag)}
      {first : OpenTag Container} {others : List (OpenTag Container)} :
      Leaves SameName word (first :: others) →
        Offence word ⟨.unclosedTag first.name, first.position⟩

/-! ## Readings as brackets -/

section Brackets

variable {map : SourceMap} {p : Placed}

/-- What a reading means for the balance. -/
def Placed.bracket? (map : SourceMap) (p : Placed) :
    Option (Bracket (OpenTag Container) ClosingTag) :=
  p.reading.token?.bind fun token => Emitted.tag? map ⟨p.offset, token⟩

theorem tagWord_emitted (map : SourceMap) (ps : List Placed) :
    tagWord map (emitted ps) = ps.filterMap (Placed.bracket? map) := by
  unfold tagWord emitted
  rw [List.filterMap_filterMap]
  congr 1
  funext p
  unfold Placed.bracket?
  cases p.reading.token? <;> rfl

/-- The effect of a reading on the tag stack is that of its bracket. -/
theorem balance_eq (map : SourceMap) (stack : TagStack Container) (p : Placed) :
    p.balance map stack =
      match p.bracket? map with
      | none => .ok stack
      | some (.opened tag) => .ok (tag :: stack)
      | some (.closed (name, position)) => (stack.pop name position).map (·.2) := by
  rcases p with ⟨offset, reading⟩
  cases reading with
  | tag inner =>
    simp only [Placed.balance, Placed.bracket?, Reading.token?, Option.bind_some]
    cases Tag.ofInner inner with
    | closing name => rfl
    | component name argument => rfl
    | opening name clause =>
      dsimp only [Tag.token, Tag.balance]
      cases hkind : TagKind.ofName name with
      | json => rfl
      | leaf => rfl
      | container c =>
        have hname := TagKind.name_of_ofName hkind
        have hself : selfClosing.contains name = false := hname ▸ c.name_not_selfClosing
        -- No container has a name that never takes a closing tag.
        simp only [TagStack.push, hself, Emitted.tag?, Bool.false_eq_true, if_false]
  | idMarker inner =>
    simp only [Placed.balance, Placed.bracket?, Reading.token?]
    cases (Text.strip inner).isEmpty <;> rfl
  | _ => rfl

/-- A reading with a bracket begins with a square bracket. -/
theorem span_of_bracket? (h : (p.bracket? map).isSome) : ∃ t, p.reading.span = '[' :: t := by
  rcases p with ⟨offset, reading⟩
  cases reading with
  | tag inner => exact ⟨inner ++ [']'], rfl⟩
  | idMarker inner =>
    simp only [Placed.bracket?, Reading.token?] at h
    split at h <;> simp [Emitted.tag?] at h
  | _ => simp [Placed.bracket?, Reading.token?, Emitted.tag?] at h

/-- The offset of a tag is that of its square bracket. -/
theorem getElem?_offset_of_tag {content : Text} {n : Nat} {e : Emitted}
    (he : e ∈ emitted ((readings content).take n)) (htag : (e.tag? map).isSome) :
    content[e.offset]? = some '[' := by
  rcases List.mem_filterMap.mp he with ⟨q, hq, hqe⟩
  rcases Option.map_eq_some_iff.mp hqe with ⟨token, htoken, rfl⟩
  have hbracket : (q.bracket? map).isSome := by
    simpa [Placed.bracket?, htoken] using htag
  rcases span_of_bracket? hbracket with ⟨t, ht⟩
  rcases covers_of_mem_readings (List.mem_of_mem_take hq) with ⟨-, later, hlater⟩
  rw [← List.head?_drop, hlater, ht]
  rfl

end Brackets

/-! ## The stack in every round -/

section Stack

variable {map : SourceMap} {stack stack' : TagStack Container}

/-- One reading more: the stack still holds what the word leaves open. -/
theorem leaves_of_balance {word : List (Bracket (OpenTag Container) ClosingTag)} {p : Placed}
    (hleaves : Leaves SameName word stack.reverse) (h : p.balance map stack = .ok stack') :
    Leaves SameName (word ++ (p.bracket? map).toList) stack'.reverse := by
  rw [balance_eq] at h
  cases hb : p.bracket? map with
  | none =>
    rw [hb] at h
    rcases Except.ok.inj h with rfl
    simpa using hleaves
  | some bracket =>
    rw [hb] at h
    cases bracket with
    | opened tag =>
      rcases Except.ok.inj h with rfl
      simpa using hleaves.push tag
    | closed closing =>
      rcases closing with ⟨name, position⟩
      cases stack with
      | nil => simp [TagStack.pop, Except.map] at h
      | cons top rest =>
        by_cases hname : top.name = name
        · have hrest : rest = stack' := by simpa [TagStack.pop, hname, Except.map] using h
          subst hrest
          rw [List.reverse_cons] at hleaves
          exact hleaves.pop hname
        · simp [TagStack.pop, hname, Except.map] at h

/-- Strict reading keeps on its stack, innermost first, what the word of tags leaves open. -/
theorem leaves_of_reviewFrom {word : List (Bracket (OpenTag Container) ClosingTag)}
    {ps : List Placed} (hleaves : Leaves SameName word stack.reverse)
    (h : reviewFrom map stack ps = .ok stack') :
    Leaves SameName (word ++ ps.filterMap (Placed.bracket? map)) stack'.reverse := by
  induction ps generalizing word stack with
  | nil =>
    rcases Except.ok.inj h with rfl
    simpa using hleaves
  | cons p ps ih =>
    cases hstep : reviewStep map stack p with
    | error e => simp [reviewFrom, hstep, bind, Except.bind] at h
    | ok next =>
      have hbalance : p.balance map stack = .ok next := by
        unfold reviewStep at hstep
        cases hcheck : p.check map with
        | error e => simp [hcheck, bind, Except.bind] at hstep
        | ok u => simpa [hcheck, bind, Except.bind] using hstep
      have hrest : reviewFrom map next ps = .ok stack' := by
        simpa [reviewFrom, hstep, bind, Except.bind] using h
      have hnext := ih (leaves_of_balance hleaves hbalance) hrest
      rw [List.append_assoc] at hnext
      cases hb : p.bracket? map with
      | none => simpa [hb] using hnext
      | some bracket => simpa [hb] using hnext

end Stack

/-! ## Words on a stack -/

section Settle

variable {map : SourceMap}

/-- The stack rules alone, for a word of tags. -/
def settle (stack : TagStack Container) :
    List (Bracket (OpenTag Container) ClosingTag) → Except ScanError Unit
  | [] => stack.finish
  | .opened tag :: word => settle (tag :: stack) word
  | .closed (name, position) :: word => do
    let (_, stack) ← stack.pop name position
    settle stack word

/-- If every construct follows its own rules, only the stack rules are left. -/
theorem review_eq_settle {ps : List Placed} (hchecks : ∀ p ∈ ps, p.check map = .ok ())
    (stack : TagStack Container) :
    (reviewFrom map stack ps >>= fun stack => stack.finish) =
      settle stack (ps.filterMap (Placed.bracket? map)) := by
  induction ps generalizing stack with
  | nil => rfl
  | cons p ps ih =>
    have hp : p.check map = .ok () := hchecks p (by simp)
    have hps : ∀ q ∈ ps, q.check map = .ok () := fun q hq => hchecks q (by simp [hq])
    -- The construct's own rules are met, and only the balance is left of the step.
    have hstep : reviewStep map stack p = p.balance map stack := by
      rw [reviewStep, hp]
      rfl
    rw [reviewFrom, hstep, balance_eq]
    cases hb : p.bracket? map with
    | none =>
      rw [List.filterMap_cons_none hb, ← ih hps]
      rfl
    | some bracket =>
      rw [List.filterMap_cons_some hb]
      cases bracket with
      | opened tag =>
        rw [settle, ← ih hps]
        rfl
      | closed closing =>
        rcases closing with ⟨name, position⟩
        rw [settle]
        dsimp only
        cases stack.pop name position with
        | error e => rfl
        | ok popped =>
          rcases popped with ⟨top, rest⟩
          exact ih hps rest

theorem settle_leaves {word : List (Bracket (OpenTag Container) ClosingTag)}
    {tags : List (OpenTag Container)} (h : Leaves SameName word tags)
    (rest : List (Bracket (OpenTag Container) ClosingTag)) :
    settle [] (word ++ rest) = settle tags.reverse rest := by
  have hpop : ∀ (stack : List (OpenTag Container)) (tag : OpenTag Container)
      (closing : ClosingTag) (w : List (Bracket (OpenTag Container) ClosingTag)),
      SameName tag closing → settle (tag :: stack) (.closed closing :: w) = settle stack w := by
    intro stack tag closing w hsame
    rcases closing with ⟨name, position⟩
    have hname : tag.name = name := hsame
    simp [settle, TagStack.pop, hname, bind, Except.bind]
  have heval := h.eval (fun _ _ _ => rfl) hpop [] rest
  rwa [List.append_nil] at heval

theorem settle_of_balanced {word : List (Bracket (OpenTag Container) ClosingTag)}
    (h : Balanced SameName word) : settle [] word = .ok () := by
  have heval := settle_leaves (.balanced h) []
  rw [List.append_nil] at heval
  rw [heval]
  rfl

theorem settle_of_offence {word : List (Bracket (OpenTag Container) ClosingTag)} {e : ScanError}
    (h : Offence word e) : settle [] word = .error e := by
  cases h with
  | unmatched hbefore =>
    rw [settle_leaves (.balanced hbefore)]
    rfl
  | @mismatched before after name position outer innermost hbefore hname =>
    rw [settle_leaves hbefore, List.reverse_append]
    simp [settle, TagStack.pop, hname, bind, Except.bind]
  | @unclosed word first others hleaves =>
    have heval := settle_leaves hleaves []
    rw [List.append_nil] at heval
    rw [heval]
    simp [settle, TagStack.finish]

/-- The stack machine ends with a balanced word, or finds its offence. -/
theorem settle_cases {before : List (Bracket (OpenTag Container) ClosingTag)}
    {stack : TagStack Container} (hbefore : Leaves SameName before stack.reverse)
    (word : List (Bracket (OpenTag Container) ClosingTag)) :
    Balanced SameName (before ++ word) ∨ ∃ e, Offence (before ++ word) e := by
  -- What has been read leaves open what stands on the stack; the rest decides.
  induction word generalizing before stack with
  | nil =>
    rw [List.append_nil]
    cases hopen : stack.reverse with
    | nil => exact Or.inl (Leaves.nil_iff.mp (hopen ▸ hbefore))
    | cons first others => exact Or.inr ⟨_, .unclosed (hopen ▸ hbefore)⟩
  | cons bracket word ih =>
    cases bracket with
    | opened tag =>
      have hnext : Leaves SameName (before ++ [.opened tag])
          (tag :: stack : TagStack _).reverse := by
        rw [List.reverse_cons]
        exact hbefore.push tag
      simpa using ih hnext
    | closed closing =>
      rcases closing with ⟨name, position⟩
      cases stack with
      | nil => exact Or.inr ⟨_, .unmatched (Leaves.nil_iff.mp hbefore)⟩
      | cons top rest =>
        rw [List.reverse_cons] at hbefore
        by_cases hname : top.name = name
        · simpa using ih (hbefore.pop (b := (name, position)) hname)
        · exact Or.inr ⟨_, .mismatched hbefore hname⟩

/-- Every word is balanced or has an offence. -/
theorem balanced_or_offence (word : List (Bracket (OpenTag Container) ClosingTag)) :
    Balanced SameName word ∨ ∃ e, Offence word e := by
  have hstart : Leaves SameName [] ([] : TagStack Container).reverse := Leaves.nil
  exact settle_cases hstart word

theorem settle_eq_ok_iff {word : List (Bracket (OpenTag Container) ClosingTag)} :
    settle [] word = .ok () ↔ Balanced SameName word := by
  refine ⟨fun h => ?_, settle_of_balanced⟩
  rcases balanced_or_offence word with hbalanced | ⟨e, he⟩
  · exact hbalanced
  · simp [settle_of_offence he] at h

theorem settle_eq_error_iff {word : List (Bracket (OpenTag Container) ClosingTag)}
    {e : ScanError} : settle [] word = .error e ↔ Offence word e := by
  refine ⟨fun h => ?_, settle_of_offence⟩
  rcases balanced_or_offence word with hbalanced | ⟨e', he'⟩
  · simp [settle_of_balanced hbalanced] at h
  · have hsame : e' = e := by simpa [settle_of_offence he'] using h
    exact hsame ▸ he'

end Settle

/-! ## Strict runs -/

/-- The tags of a body. -/
def bodyTags (body : Text) : List (Bracket (OpenTag Container) ClosingTag) :=
  tagWord (SourceMap.ofText (Text.joinLines body)) (emitted (readings (Text.joinLines body)))

/-- Every construct of the body follows the rules that concern it alone. -/
def LocallySound (body : Text) : Prop :=
  ∀ p ∈ readings (Text.joinLines body),
    p.check (SourceMap.ofText (Text.joinLines body)) = .ok ()

theorem tokenize_of_settle {body : Text} (h : LocallySound body) :
    tokenize .strict body =
      (settle [] (bodyTags body)).map fun _ =>
        assemble ((readings (Text.joinLines body)).map (·.reading)) := by
  have hreview := review_eq_settle h []
  rw [← tagWord_emitted, ← bodyTags] at hreview
  rw [tokenize_strict_eq, review, hreview]

theorem token_emitted (ps : List Placed) :
    (emitted ps).map (·.token) = ps.filterMap (·.reading.token?) := by
  unfold emitted
  rw [List.map_filterMap]
  congr 1
  funext p
  cases p.reading.token? <;> rfl

/-- In every round of a strict run the tag stack is what the tags so far leave open, and a body
that is sound otherwise is accepted if its tags are balanced and refused for their first offence
if they are not. -/
theorem tag_stack_decides (body : Text) :
    (∀ n s, (Scan.start (Text.joinLines body)).rounds .strict
        (SourceMap.ofText (Text.joinLines body)) n = .ok s →
      s.tokens.filter (!·.isText) =
          (emitted ((readings (Text.joinLines body)).take n)).map (·.token) ∧
        (∀ e ∈ emitted ((readings (Text.joinLines body)).take n),
          (e.tag? (SourceMap.ofText (Text.joinLines body))).isSome →
            (Text.joinLines body)[e.offset]? = some '[') ∧
        Leaves SameName
          (tagWord (SourceMap.ofText (Text.joinLines body))
            (emitted ((readings (Text.joinLines body)).take n)))
          s.stack.reverse) ∧
    (LocallySound body →
      ((∃ ts, tokenize .strict body = .ok ts) ↔ Balanced SameName (bodyTags body)) ∧
        ∀ e, tokenize .strict body = .error e ↔ Offence (bodyTags body) e) := by
  refine ⟨?_, ?_⟩
  -- Every round: the tokens so far, the places of their brackets, and the stack.
  · intro n s h
    rcases Scan.rounds_eq_ok (Scan.sound_start _) h with ⟨hreview, htokens⟩
    rw [Scan.ahead_start] at hreview htokens
    refine ⟨?_, fun e he htag => getElem?_offset_of_tag he htag, ?_⟩
    · rw [htokens, token_emitted]
      rfl
    · rw [tagWord_emitted]
      exact leaves_of_reviewFrom Leaves.nil hreview
  -- The whole run: the stack machine decides, and its verdicts are known.
  · intro hsound
    rw [tokenize_of_settle hsound]
    refine ⟨?_, ?_⟩
    · rw [← settle_eq_ok_iff]
      cases settle [] (bodyTags body) <;> simp [Except.map]
    · intro e
      rw [← settle_eq_error_iff]
      cases settle [] (bodyTags body) <;> simp [Except.map]

/-- A box that is closed by the wrong name, after a leaf that does not count. -/
theorem tag_stack_decides_wrong_name :
    LocallySound ['[', 'd', 'i', 'v', ']', '[', 'h', 'r', ']', '[', '/', 'i', 'f', ']'] ∧
      tokenize .strict ['[', 'd', 'i', 'v', ']', '[', 'h', 'r', ']', '[', '/', 'i', 'f', ']'] =
        .error ⟨.mismatchedTag ['i', 'f'] ['d', 'i', 'v'] ⟨1, 1⟩, ⟨1, 10⟩⟩ := by
  have hsound : LocallySound
      ['[', 'd', 'i', 'v', ']', '[', 'h', 'r', ']', '[', '/', 'i', 'f', ']'] := by
    intro p hp
    have hmem : p ∈ [⟨0, .tag ['d', 'i', 'v']⟩, ⟨5, .tag ['h', 'r']⟩,
        ⟨9, .tag ['/', 'i', 'f']⟩] := hp
    simp only [List.mem_cons, List.not_mem_nil, or_false] at hmem
    rcases hmem with rfl | rfl | rfl <;> rfl
  have hopen : Leaves SameName [.opened ⟨.div, ['d', 'i', 'v'], ⟨1, 1⟩⟩]
      ([] ++ [⟨.div, ['d', 'i', 'v'], ⟨1, 1⟩⟩]) := Leaves.nil.push _
  refine ⟨hsound, (((tag_stack_decides _).2 hsound).2 _).mpr ?_⟩
  exact .mismatched hopen (by decide)

end Notemark.Body
