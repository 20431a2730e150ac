import Notemark.Body.Scanner
import Notemark.Proofs.Text
import Mathlib.Data.List.Forall2

/-!
# Remembered lookahead

A scanner that keeps the answers of earlier searches takes what a scanner that searches afresh
takes. This module holds

* `Memo.Faithful`: every kept answer is the one a new search would give,
* `Bridge`: what it takes to compare two lookaheads; `Bridge.rel_scanAt` says that scanners need no
  more,
* `Agrees`: a remembering computation gives a plain answer and keeps its memo faithful,
* `agrees_scanAt`: so does what is taken at a cursor.
-/

namespace Notemark.Body

/-! ## Brace distances -/

section Braces

variable {t : Text} {c : Char} {o : Nat}

theorem braceDistance_append_newline (h : '\n' ∉ t) (depth : Nat) (rest : Text) :
    braceDistance depth (t ++ '\n' :: rest) = braceDistance depth t := by
  induction t generalizing depth with
  | nil => simp [braceDistance]
  | cons c cs ih =>
    have hcs : '\n' ∉ cs := fun hmem => h (by simp [hmem])
    simp only [List.cons_append, braceDistance, ih hcs]

/-- Braces are balanced within a line, so the rest of the text does not matter. -/
theorem braceDistance_take_line (depth : Nat) (t : Text) :
    braceDistance depth (t.take (Text.lineLength t)) = braceDistance depth t := by
  cases h : Text.distance '\n' t with
  | none => simp [Text.lineLength, h]
  | some n =>
    rcases Text.distance_eq_some_iff.mp h with ⟨a, b, rfl, ha, rfl⟩
    rw [Text.lineLength, h, Option.getD_some, List.take_left, braceDistance_append_newline ha]

theorem braceDistance_lt_length {depth n : Nat} (h : braceDistance depth t = some n) :
    n < t.length := by
  induction t generalizing depth n with
  | nil => simp [braceDistance] at h
  | cons c cs ih =>
    -- Every character that does not end the search adds one to what the rest gives.
    have hnext : ∀ {d : Nat}, (braceDistance d cs).map (· + 1) = some n → n < cs.length + 1 := by
      intro d hd
      rcases Option.map_eq_some_iff.mp hd with ⟨i, hi, rfl⟩
      exact Nat.succ_lt_succ (ih hi)
    rw [List.length_cons]
    unfold braceDistance at h
    split at h
    · simp at h
    · split at h
      · exact hnext h
      · split at h
        · split at h
          · rw [← Option.some.inj h]
            exact Nat.succ_pos _
          · exact hnext h
        · exact hnext h

/-- The partner that a list of pairs gives to the brace at an offset. -/
def partner? (pairs : List (Nat × Nat)) (o : Nat) : Option Nat :=
  (pairs.find? fun pair => pair.1 == o).map (·.2)

theorem partner?_append (ps qs : List (Nat × Nat)) (o : Nat) :
    partner? (ps ++ qs) o = (partner? ps o).or (partner? qs o) := by
  simp only [partner?, List.find?_append]
  cases ps.find? fun pair => pair.1 == o <;> simp

theorem partner?_eq_none {pairs : List (Nat × Nat)} (h : ∀ pair ∈ pairs, pair.1 ≠ o) :
    partner? pairs o = none := by
  have hfind : (pairs.find? fun pair => pair.1 == o) = none := by
    rw [List.find?_eq_none]
    intro pair hpair
    simpa using h pair hpair
  simp [partner?, hfind]

theorem mem_pairBraces {offset : Nat} {opened : List Nat} {pair : Nat × Nat}
    (h : pair ∈ Memo.pairBraces offset opened t) :
    pair.1 ∈ opened ∨ (offset ≤ pair.1 ∧ pair.1 < offset + t.length) := by
  -- The first part of a pair was open before, or it is met on the way.
  fun_induction Memo.pairBraces offset opened t with
  | case1 => simp at h
  | case2 offset opened cs ih =>
    rcases ih h with hmem | hlt
    · rcases List.mem_cons.mp hmem with heq | hmem
      · exact Or.inr ⟨by omega, by simp only [List.length_cons]; omega⟩
      · exact Or.inl hmem
    · exact Or.inr ⟨by omega, by simp only [List.length_cons]; omega⟩
  | case3 offset cs _ ih =>
    rcases ih h with hmem | hlt
    · simp at hmem
    · exact Or.inr ⟨by omega, by simp only [List.length_cons]; omega⟩
  | case4 offset cs _ o os ih =>
    rcases List.mem_cons.mp h with rfl | hmem
    · exact Or.inl (by simp)
    · rcases ih hmem with hos | hlt
      · exact Or.inl (by simp [hos])
      · exact Or.inr ⟨by omega, by simp only [List.length_cons]; omega⟩
  | case5 offset opened c cs _ _ ih =>
    rcases ih h with hmem | hlt
    · exact Or.inl hmem
    · exact Or.inr ⟨by omega, by simp only [List.length_cons]; omega⟩

theorem partner?_cons_of_ne {p q : Nat} (h : p ≠ o) (pairs : List (Nat × Nat)) :
    partner? ((p, q) :: pairs) o = partner? pairs o := by
  simp [partner?, h]

theorem forall_lt_succ {l : List Nat} {n : Nat} (h : ∀ p ∈ l, p < n) : ∀ p ∈ l, p < n + 1 :=
  fun p hp => Nat.lt_succ_of_lt (h p hp)

theorem forall_cons_lt_succ {l : List Nat} {n : Nat} (h : ∀ p ∈ l, p < n) :
    ∀ p ∈ n :: l, p < n + 1 :=
  List.forall_mem_cons.mpr ⟨Nat.lt_succ_self n, forall_lt_succ h⟩

/-- Distances from one character further on are smaller by one. -/
theorem map_succ_map_add (n : Nat) (distance? : Option Nat) :
    (distance?.map (· + 1)).map (n + ·) = distance?.map (n + 1 + ·) := by
  rw [Option.map_map]
  congr 1
  funext i
  simp only [Function.comp_apply]
  omega

/-- A brace that waits below `above` others finds its partner where the depth comes back to
zero. -/
theorem partner?_pairBraces_opened (above below : List Nat) (offset : Nat)
    (hline : '\n' ∉ t) (hlt : ∀ p ∈ above ++ o :: below, p < offset) (habove : o ∉ above) :
    partner? (Memo.pairBraces offset (above ++ o :: below) t) o =
      (braceDistance (above.length + 1) t).map (offset + ·) := by
  induction t generalizing above offset with
  | nil => simp [Memo.pairBraces, partner?, braceDistance]
  | cons c cs ih =>
    have hcs : '\n' ∉ cs := fun hmem => hline (by simp [hmem])
    have hc : ¬ c = '\n' := fun hc => hline (by simp [hc])
    -- A new brace goes on top of the stack, and the one we follow lies one deeper.
    by_cases hopen : c = '{'
    · have ho : o < offset := hlt o (by simp)
      have habove' : o ∉ offset :: above := by
        simp only [List.mem_cons, not_or]
        exact ⟨by omega, habove⟩
      have hrec := ih (offset :: above) (offset + 1) hcs (forall_cons_lt_succ hlt) habove'
      simp only [Memo.pairBraces, braceDistance, if_neg hc, if_pos hopen, map_succ_map_add]
      exact hrec
    · by_cases hclose : c = '}'
      -- The brace on top is closed: ours if nothing lies above it, another one otherwise.
      · cases above with
        | nil =>
          simp [Memo.pairBraces, braceDistance, hclose, partner?]
        | cons p ps =>
          have hp : p ≠ o := fun hpo => habove (by simp [hpo])
          have hps : o ∉ ps := fun hmem => habove (by simp [hmem])
          have hlt' : ∀ q ∈ ps ++ o :: below, q < offset + 1 :=
            forall_lt_succ (List.forall_mem_cons.mp hlt).2
          have hdepth : ¬ (p :: ps).length + 1 ≤ 1 := by simp
          have hrec := ih ps (offset + 1) hcs hlt' hps
          simp only [Memo.pairBraces, braceDistance, if_neg hc, if_neg hopen, if_pos hclose,
            List.cons_append, partner?_cons_of_ne hp, if_neg hdepth, map_succ_map_add]
          exact hrec
      · have hrec := ih above (offset + 1) hcs (forall_lt_succ hlt) habove
        simp only [Memo.pairBraces, braceDistance, if_neg hc, if_neg hopen, if_neg hclose,
          map_succ_map_add]
        exact hrec

/-- Pairing a line gives every opening brace of it the partner that counting from there finds. -/
theorem partner?_pairBraces (opened : List Nat) (offset i : Nat) (hline : '\n' ∉ t)
    (hlt : ∀ p ∈ opened, p < offset) (hi : t[i]? = some '{') :
    partner? (Memo.pairBraces offset opened t) (offset + i) =
      (braceDistance 0 (t.drop i)).map (offset + i + ·) := by
  induction t generalizing opened offset i with
  | nil => simp at hi
  | cons c cs ih =>
    have hcs : '\n' ∉ cs := fun hmem => hline (by simp [hmem])
    -- At its own place the brace becomes the top of the stack; before that it has no pair.
    cases i with
    | zero =>
      have hc : c = '{' := by simpa using hi
      have hpair := partner?_pairBraces_opened [] opened (offset + 1) hcs (forall_cons_lt_succ hlt)
        (by simp)
      have hcount : braceDistance 0 (('{' :: cs).drop 0) = (braceDistance 1 cs).map (· + 1) := rfl
      rw [hc, hcount, Nat.add_zero, map_succ_map_add]
      simp only [Memo.pairBraces, if_true]
      exact hpair
    | succ i =>
      have hi' : cs[i]? = some '{' := by simpa using hi
      have hnext : ∀ opened', (∀ p ∈ opened', p < offset + 1) →
          partner? (Memo.pairBraces (offset + 1) opened' cs) (offset + (i + 1)) =
            (braceDistance 0 ((c :: cs).drop (i + 1))).map (offset + (i + 1) + ·) := by
        intro opened' hlt'
        have hrec := ih opened' (offset + 1) i hcs hlt' hi'
        rw [show offset + (i + 1) = offset + 1 + i by omega, List.drop_succ_cons]
        exact hrec
      by_cases hopen : c = '{'
      · simp only [Memo.pairBraces, if_pos hopen]
        exact hnext (offset :: opened) (forall_cons_lt_succ hlt)
      · by_cases hclose : c = '}'
        · cases opened with
          | nil =>
            simp only [Memo.pairBraces, if_neg hopen, if_pos hclose]
            exact hnext [] (by simp)
          | cons p ps =>
            have hp : p < offset := hlt p (by simp)
            have hne : p ≠ offset + (i + 1) := by omega
            simp only [Memo.pairBraces, if_neg hopen, if_pos hclose, partner?_cons_of_ne hne]
            exact hnext ps (forall_lt_succ (List.forall_mem_cons.mp hlt).2)
        · simp only [Memo.pairBraces, if_neg hopen, if_neg hclose]
          exact hnext opened (forall_lt_succ hlt)

end Braces

/-! ## Faithful memos -/

/-- The kept search found the first hit at or after its start. -/
def Search.Faithful (content : Text) (s : Search) : Prop :=
  s.hit = (Text.distance s.char (content.drop s.since)).map (s.since + ·)

/-- Every kept answer is right: searches for all questions, brace pairs for the questions that can
still come, which are about braces at or after the offset. -/
structure Memo.Faithful (content : Text) (offset : Nat) (memo : Memo) : Prop where
  searches : ∀ s ∈ memo.searches, s.Faithful content
  paired : ∀ pair ∈ memo.braces, pair.1 < memo.paired
  braces : ∀ start, offset ≤ start → start < memo.paired → content[start]? = some '{' →
    memo.closing? start = (braceDistance 0 (content.drop start)).map (start + ·)

namespace Memo

variable {content : Text} {offset : Nat} {memo : Memo}

theorem faithful_empty (content : Text) (offset : Nat) : Faithful content offset {} where
  searches := by simp
  paired := by simp
  braces := by simp

/-- Questions only move forward. -/
theorem Faithful.mono (h : Faithful content offset memo) {later : Nat} (hle : offset ≤ later) :
    Faithful content later memo where
  searches := h.searches
  paired := h.paired
  braces := fun start hstart => h.braces start (Nat.le_trans hle hstart)

theorem Faithful.record (h : Faithful content offset memo) {s : Search}
    (hs : s.Faithful content) : Faithful content offset (memo.record s) where
  searches := by
    intro old hold
    rcases List.mem_cons.mp hold with rfl | hold
    · exact hs
    · exact h.searches old (List.mem_filter.mp hold).1
  paired := h.paired
  braces := h.braces

/-- A kept search that answers a question gives the hit of a new search. -/
theorem hit_of_answers {s : Search} {start : Nat} (hs : s.Faithful content)
    (hans : answers s start = true) :
    s.hit = (Text.distance s.char (content.drop start)).map (start + ·) := by
  have hdrop : content.drop start = (content.drop s.since).drop (start - s.since) := by
    rw [List.drop_drop]
    congr 1
    simp only [answers, Bool.and_eq_true, decide_eq_true_eq] at hans
    omega
  cases hd : Text.distance s.char (content.drop s.since) with
  | none =>
    have hhit : s.hit = none := by rw [hs, hd, Option.map_none]
    rw [hdrop, Text.distance_drop_of_none hd, hhit, Option.map_none]
  | some d =>
    have hhit : s.hit = some (s.since + d) := by rw [hs, hd, Option.map_some]
    simp only [answers, hhit, Bool.and_eq_true, decide_eq_true_eq] at hans
    have hle : start - s.since ≤ d := by omega
    rw [hdrop, Text.distance_drop hd hle, hhit, Option.map_some, Option.some.injEq]
    omega

theorem find_spec (h : Faithful content offset memo) (c : Char) (start : Nat) :
    (memo.find c start (content.drop start)).1 =
        (Text.distance c (content.drop start)).map (start + ·) ∧
      Faithful content offset (memo.find c start (content.drop start)).2 := by
  have hafresh : Faithful content offset (memo.record
      ⟨c, start, (Text.distance c (content.drop start)).map (start + ·)⟩) := h.record rfl
  unfold find
  cases hs : memo.search? c with
  | none => exact ⟨rfl, hafresh⟩
  | some s =>
    have hmem : s ∈ memo.searches := List.mem_of_find?_eq_some hs
    have hchar : s.char = c := by simpa using List.find?_some hs
    -- A kept search answers only between its start and its hit.
    by_cases hans : answers s start = true
    · have hhit := hit_of_answers (h.searches s hmem) hans
      rw [hchar] at hhit
      simpa [hans] using And.intro hhit h
    · simpa [hans] using hafresh

theorem find_braces (memo : Memo) (c : Char) (start : Nat) (t : Text) :
    (memo.find c start t).2.braces = memo.braces ∧
      (memo.find c start t).2.paired = memo.paired := by
  unfold find
  split
  · split <;> exact ⟨rfl, rfl⟩
  · exact ⟨rfl, rfl⟩

/-- Pairing reads the braces of the rest of one line, unless they have been read. -/
theorem pairLine_cases (h : Faithful content offset memo) :
    (offset < memo.paired ∧ memo.pairLine offset (content.drop offset) = memo) ∨
      (memo.paired ≤ offset ∧
        (∀ s ∈ (memo.pairLine offset (content.drop offset)).searches, s.Faithful content) ∧
        (memo.pairLine offset (content.drop offset)).braces =
          pairBraces offset []
            ((content.drop offset).take (Text.lineLength (content.drop offset))) ++ memo.braces ∧
        (memo.pairLine offset (content.drop offset)).paired =
          offset + Text.lineLength (content.drop offset)) := by
  by_cases hp : memo.paired ≤ offset
  · right
    rcases find_spec h '\n' offset with ⟨hhit, hfaithful⟩
    have hbraces := (find_braces memo '\n' offset (content.drop offset)).1
    refine ⟨hp, ?_⟩
    simp only [pairLine, if_pos hp, hhit, hbraces]
    refine ⟨hfaithful.searches, ?_⟩
    cases hd : Text.distance '\n' (content.drop offset) <;> simp [Text.lineLength, hd]
  · left
    exact ⟨by omega, by simp only [pairLine, if_neg hp]⟩

theorem lineLength_drop {t : Text} {n : Nat} (h : n ≤ Text.lineLength t) :
    Text.lineLength (t.drop n) = Text.lineLength t - n := by
  cases hd : Text.distance '\n' t with
  | none =>
    simp [Text.lineLength, hd, Text.distance_drop_of_none hd]
  | some d =>
    have hle : n ≤ d := by simpa [Text.lineLength, hd] using h
    simp [Text.lineLength, hd, Text.distance_drop hd hle]

theorem newline_notMem_line (t : Text) : '\n' ∉ t.take (Text.lineLength t) := by
  cases hd : Text.distance '\n' t with
  | none => simpa [Text.lineLength, hd] using Text.distance_eq_none_iff.mp hd
  | some d =>
    rcases Text.distance_eq_some_iff.mp hd with ⟨a, b, rfl, ha, rfl⟩
    simpa [Text.lineLength, hd] using ha

theorem pairLine_faithful (h : Faithful content offset memo) :
    Faithful content offset (memo.pairLine offset (content.drop offset)) := by
  rcases pairLine_cases h with ⟨-, hsame⟩ | ⟨hp, hsearches, hbraces, hpaired⟩
  · rw [hsame]
    exact h
  refine ⟨hsearches, ?_, ?_⟩
  · intro pair hpair
    rw [hbraces] at hpair
    rw [hpaired]
    rcases List.mem_append.mp hpair with hnew | hold
    · rcases mem_pairBraces hnew with hmem | ⟨-, hlt⟩
      · simp at hmem
      · rw [List.length_take] at hlt
        omega
    · have := h.paired pair hold
      omega
  · intro start hstart hlt hbrace
    rw [hpaired] at hlt
    -- The brace stands on the line just paired; pairs kept from before lie in front of it.
    rcases Nat.exists_eq_add_of_le hstart with ⟨i, rfl⟩
    have hi : i < Text.lineLength (content.drop offset) := by omega
    have hold : partner? memo.braces (offset + i) = none := by
      refine partner?_eq_none fun pair hpair => ?_
      have := h.paired pair hpair
      omega
    have hat : ((content.drop offset).take (Text.lineLength (content.drop offset)))[i]? =
        some '{' := by
      rw [List.getElem?_take_of_lt hi, List.getElem?_drop]
      exact hbrace
    have hnew := partner?_pairBraces [] offset i (newline_notMem_line _) (by simp) hat
    have hrest : braceDistance 0
        (((content.drop offset).take (Text.lineLength (content.drop offset))).drop i) =
        braceDistance 0 (content.drop (offset + i)) := by
      rw [List.drop_take, ← lineLength_drop (Nat.le_of_lt hi), braceDistance_take_line,
        List.drop_drop]
    have hclosing : (memo.pairLine offset (content.drop offset)).closing? (offset + i) =
        partner? (memo.pairLine offset (content.drop offset)).braces (offset + i) := rfl
    rw [hclosing, hbraces, partner?_append, hold, Option.or_none, hnew, hrest]

theorem lt_paired_pairLine (h : Faithful content offset memo)
    (hbrace : content[offset]? = some '{') :
    offset < (memo.pairLine offset (content.drop offset)).paired := by
  rcases pairLine_cases h with ⟨hlt, hsame⟩ | ⟨-, -, -, hpaired⟩
  · rw [hsame]
    exact hlt
  · have hdrop : content.drop offset = '{' :: content.drop (offset + 1) := by
      rcases List.getElem?_eq_some_iff.mp hbrace with ⟨hlt, hget⟩
      rw [List.drop_eq_getElem_cons hlt, hget]
    rw [hpaired, hdrop, Text.lineLength, Text.distance, if_neg (by decide)]
    cases Text.distance '\n' (content.drop (offset + 1)) <;> simp

end Memo

/-! ## Two lookaheads side by side -/

/-- A relation between computations over two lookaheads, for scanners at one offset of a content. It
is closed under the questions that scanners ask, so that every scanner is related to itself. -/
structure Bridge (m n : Type → Type) [Monad m] [Lookahead m] [Monad n] [Lookahead n]
    (content : Text) (offset : Nat) where
  Rel : {α : Type} → m α → n α → Prop
  rel_pure : ∀ {α : Type} (a : α), Rel (pure a) (pure a)
  rel_bind : ∀ {α β : Type} {x : m α} {y : n α} {f : α → m β} {g : α → n β},
    Rel x y → (∀ a, Rel (f a) (g a)) → Rel (x >>= f) (y >>= g)
  rel_ahead : ∀ (c : Char) (start : Nat),
    Rel (Lookahead.ahead c start (content.drop start))
      (Lookahead.ahead c start (content.drop start))
  rel_braceAhead : content[offset]? = some '{' →
    Rel (Lookahead.braceAhead offset (content.drop offset))
      (Lookahead.braceAhead offset (content.drop offset))

namespace Bridge

variable {m n : Type → Type} [Monad m] [Lookahead m] [Monad n] [Lookahead n]
variable {content rest : Text} {k : Cursor} {o : Nat}

theorem rel_ite (B : Bridge m n content o) {α : Type} {p : Prop} [Decidable p] {x x' : m α}
    {y y' : n α} (h : B.Rel x y) (h' : B.Rel x' y') :
    B.Rel (if p then x else x') (if p then y else y') := by
  split
  · exact h
  · exact h'

theorem rel_lineAhead (B : Bridge m n content o) {start : Nat} {t : Text}
    (ht : t = content.drop start) : B.Rel (lineAhead start t) (lineAhead start t) := by
  subst ht
  apply B.rel_bind (B.rel_ahead '\n' start)
  intro hit
  exact B.rel_pure _

theorem rel_idLength (B : Bridge m n content k.offset) (hrest : rest = content.drop k.offset) :
    B.Rel (idLength k rest) (idLength k rest) := by
  have hinner : rest.drop 2 = content.drop (k.offset + 2) := by rw [hrest, List.drop_drop]
  unfold idLength
  rw [hinner]
  apply B.rel_bind (B.rel_ahead '}' (k.offset + 2))
  intro close
  cases close with
  | none => exact B.rel_pure _
  | some size =>
    apply B.rel_bind (B.rel_lineAhead hrest)
    intro line
    exact B.rel_ite (B.rel_pure _) (B.rel_pure _)

/-- Each round of the search for the end of a tag asks three questions at most; the last answer of
all goes back to the text behind the opening bracket. -/
theorem rel_tagEndFrom (B : Bridge m n content o) {start : Nat} {all : Text}
    (hall : all = content.drop (start + 1)) (budget read : Nat) {t : Text}
    (ht : t = content.drop (start + 1 + read)) :
    B.Rel (tagEndFrom start all budget read t) (tagEndFrom start all budget read t) := by
  induction budget generalizing read t with
  | zero => exact B.rel_pure _
  | succ budget ih =>
    unfold tagEndFrom
    subst ht
    apply B.rel_bind (B.rel_ahead ']' _)
    intro bracket?
    cases bracket? with
    | none => exact B.rel_pure _
    | some bracket =>
      apply B.rel_bind (B.rel_ahead '"' _)
      intro quote?
      cases quote? with
      | none => exact B.rel_pure _
      | some quote =>
        apply B.rel_ite
        · exact B.rel_pure _
        · rw [List.drop_drop, ← Nat.add_assoc (start + 1 + read)]
          apply B.rel_bind (B.rel_ahead '"' _)
          intro close?
          cases close? with
          | none => exact hall ▸ B.rel_ahead ']' (start + 1)
          | some size =>
            apply ih
            rw [List.drop_drop, Nat.add_assoc (start + 1)]

theorem rel_tagEnd (B : Bridge m n content k.offset) (hrest : rest = content.drop k.offset) :
    B.Rel (tagEnd k.offset (rest.drop 1)) (tagEnd k.offset (rest.drop 1)) := by
  have hall : rest.drop 1 = content.drop (k.offset + 1) := by rw [hrest, List.drop_drop]
  exact B.rel_tagEndFrom hall _ 0 hall

/-! ### Giving up -/

variable [LawfulMonad m] [LawfulMonad n]

/-- Computations that can give up are related if they give up alike. -/
def orFault (B : Bridge m n content o) :
    Bridge (ExceptT ScanError m) (ExceptT ScanError n) content o where
  Rel x y := B.Rel x.run y.run
  rel_pure := fun a => B.rel_pure (Except.ok a)
  rel_bind := by
    intro α β x y f g hx hf
    apply B.rel_bind hx
    intro outcome
    cases outcome with
    | ok a => exact hf a
    | error e => exact B.rel_pure (Except.error e)
  rel_ahead := by
    intro c start
    change B.Rel (Except.ok <$> _) (Except.ok <$> _)
    rw [map_eq_pure_bind, map_eq_pure_bind]
    exact B.rel_bind (B.rel_ahead c start) fun hit => B.rel_pure (Except.ok hit)
  rel_braceAhead := by
    intro hbrace
    change B.Rel (Except.ok <$> _) (Except.ok <$> _)
    rw [map_eq_pure_bind, map_eq_pure_bind]
    exact B.rel_bind (B.rel_braceAhead hbrace) fun size => B.rel_pure (Except.ok size)

theorem rel_ofExcept (B : Bridge m n content o) {α : Type} (r : Except ScanError α) :
    B.orFault.Rel (ofExcept r) (ofExcept r) := by
  cases r with
  | ok a => exact B.rel_pure (Except.ok a)
  | error e => exact B.rel_pure (Except.error e)

/-- What is demanded is demanded of both. -/
theorem rel_demand (B : Bridge m n content o) {α : Type} (r : Except ScanError Unit)
    {x : ExceptT ScanError m α} {y : ExceptT ScanError n α} (h : B.orFault.Rel x y) :
    B.orFault.Rel (ofExcept r >>= fun _ => x) (ofExcept r >>= fun _ => y) :=
  B.orFault.rel_bind (B.rel_ofExcept r) fun _ => h

/-! ### Scanners -/

section Scanners

variable (mode : Mode) (map : SourceMap) (stack : TagStack Container)

theorem rel_headingScan (B : Bridge m n content k.offset) (hrest : rest = content.drop k.offset) :
    B.orFault.Rel (headingScan stack k rest) (headingScan stack k rest) := by
  have hafter : rest.drop (rest.takeWhile (· == '#')).length =
      content.drop (k.offset + (rest.takeWhile (· == '#')).length) := by
    rw [hrest, List.drop_drop]
  apply B.orFault.rel_ite
  · apply B.orFault.rel_ite
    · apply B.orFault.rel_bind (B.orFault.rel_lineAhead hafter)
      intro size
      exact B.orFault.rel_pure _
    · exact B.orFault.rel_pure _
  · exact B.orFault.rel_pure _

theorem rel_idMarkerScan (B : Bridge m n content k.offset)
    (hrest : rest = content.drop k.offset) :
    B.orFault.Rel (idMarkerScan mode map stack k rest) (idMarkerScan mode map stack k rest) := by
  apply B.orFault.rel_ite
  · apply B.orFault.rel_bind (B.orFault.rel_idLength hrest)
    intro size?
    cases size? with
    | none => exact B.rel_demand _ (B.orFault.rel_pure _)
    | some size =>
      apply B.orFault.rel_ite
      · exact B.rel_demand _ (B.orFault.rel_pure _)
      · exact B.orFault.rel_pure _
  · exact B.orFault.rel_pure _

theorem rel_refuseStyleMarker (B : Bridge m n content k.offset)
    (hrest : rest = content.drop k.offset) :
    B.orFault.Rel (refuseStyleMarker map k rest) (refuseStyleMarker map k rest) := by
  apply B.orFault.rel_ite
  · apply B.orFault.rel_bind (B.orFault.rel_lineAhead hrest)
    intro size
    exact B.rel_demand _ (B.rel_ofExcept _)
  · exact B.rel_ofExcept _

theorem rel_styleMarkerScan (B : Bridge m n content k.offset)
    (hrest : rest = content.drop k.offset) :
    B.orFault.Rel (styleMarkerScan mode map stack k rest)
      (styleMarkerScan mode map stack k rest) := by
  apply B.orFault.rel_ite
  · cases styleClasses? rest with
    | some classes => exact B.orFault.rel_pure _
    | none =>
      apply B.orFault.rel_ite
      · apply B.orFault.rel_bind (B.rel_refuseStyleMarker map hrest)
        intro _
        exact B.orFault.rel_pure _
      · exact B.orFault.rel_pure _
  · exact B.orFault.rel_pure _

theorem rel_judgeOpenReference (B : Bridge m n content k.offset)
    (hrest : rest = content.drop k.offset) :
    B.orFault.Rel (judgeOpenReference map k rest) (judgeOpenReference map k rest) := by
  apply B.orFault.rel_bind (B.orFault.rel_lineAhead hrest)
  intro size
  exact B.rel_ofExcept _

/-- A reference is looked for at an opening brace only. -/
theorem head?_of_isReference (h : isReference rest = true) : rest.head? = some '{' := by
  unfold isReference at h
  split at h
  · rfl
  · simp at h

theorem rel_variableScan (B : Bridge m n content k.offset)
    (hrest : rest = content.drop k.offset) :
    B.orFault.Rel (variableScan mode map stack k rest) (variableScan mode map stack k rest) := by
  unfold variableScan
  by_cases href : isReference rest = true
  · have hbrace : content[k.offset]? = some '{' := by
      rw [← List.head?_drop, ← hrest, head?_of_isReference href]
    rw [if_pos href, if_pos href]
    apply B.orFault.rel_bind (hrest ▸ B.orFault.rel_braceAhead hbrace)
    intro size?
    cases size? with
    | some size => exact B.rel_demand _ (B.orFault.rel_pure _)
    | none =>
      apply B.orFault.rel_ite
      · apply B.orFault.rel_bind (B.rel_judgeOpenReference map hrest)
        intro _
        exact B.orFault.rel_pure _
      · exact B.orFault.rel_pure _
  · rw [if_neg href, if_neg href]
    exact B.orFault.rel_pure _

theorem rel_tagScan (B : Bridge m n content k.offset) (hrest : rest = content.drop k.offset) :
    B.orFault.Rel (tagScan mode map stack k rest) (tagScan mode map stack k rest) := by
  apply B.orFault.rel_ite
  · apply B.orFault.rel_bind (B.orFault.rel_tagEnd hrest)
    intro size?
    cases size? with
    | none => exact B.rel_demand _ (B.orFault.rel_pure _)
    | some size =>
      apply B.orFault.rel_bind (B.rel_ofExcept _)
      intro taken
      exact B.orFault.rel_pure _
  · exact B.orFault.rel_pure _

theorem rel_boldScan (B : Bridge m n content k.offset) (hrest : rest = content.drop k.offset) :
    B.orFault.Rel (boldScan stack k rest) (boldScan stack k rest) := by
  apply B.orFault.rel_ite
  · cases Text.distanceTo ['*', '*'] (rest.drop 2) with
    | none => exact B.orFault.rel_pure _
    | some size =>
      apply B.orFault.rel_ite (B.orFault.rel_pure _)
      apply B.orFault.rel_bind (B.orFault.rel_lineAhead hrest)
      intro line
      exact B.orFault.rel_ite (B.orFault.rel_pure _) (B.orFault.rel_pure _)
  · exact B.orFault.rel_pure _

theorem rel_italicScan (B : Bridge m n content k.offset) (hrest : rest = content.drop k.offset) :
    B.orFault.Rel (italicScan stack k rest) (italicScan stack k rest) := by
  have ht : rest.drop 1 = content.drop (k.offset + 1) := by rw [hrest, List.drop_drop]
  unfold italicScan
  rw [ht]
  apply B.orFault.rel_ite
  · apply B.orFault.rel_bind (B.orFault.rel_ahead '*' (k.offset + 1))
    intro size?
    cases size? with
    | none => exact B.orFault.rel_pure _
    | some size =>
      apply B.orFault.rel_ite (B.orFault.rel_pure _)
      apply B.orFault.rel_bind (B.orFault.rel_lineAhead hrest)
      intro line
      exact B.orFault.rel_ite (B.orFault.rel_pure _) (B.orFault.rel_pure _)
  · exact B.orFault.rel_pure _

/-- Scanners that are tried one after the other ask one after the other. -/
theorem rel_firstTaken (B : Bridge m n content o) :
    ∀ {xs : List (ExceptT ScanError m (Option Taken))}
      {ys : List (ExceptT ScanError n (Option Taken))},
      List.Forall₂ B.orFault.Rel xs ys → B.orFault.Rel (firstTaken xs) (firstTaken ys)
  | [], [], .nil => B.orFault.rel_pure _
  | x :: xs, y :: ys, .cons hxy hlater => by
    apply B.orFault.rel_bind hxy
    intro taken?
    cases taken? with
    | some taken => exact B.orFault.rel_pure _
    | none => exact B.rel_firstTaken hlater

/-- What is taken at a cursor is found by the same questions, whichever lookahead answers them. -/
theorem rel_scanAt (B : Bridge m n content k.offset) (hrest : rest = content.drop k.offset) :
    B.orFault.Rel (scanAt mode map stack k rest) (scanAt mode map stack k rest) := by
  have hscanners : List.Forall₂ B.orFault.Rel
      (scanners (m := ExceptT ScanError m) mode map stack k rest)
      (scanners (m := ExceptT ScanError n) mode map stack k rest) := by
    refine .cons ?_ (.cons (B.rel_headingScan stack hrest)
      (.cons (B.rel_idMarkerScan mode map stack hrest)
      (.cons (B.rel_styleMarkerScan mode map stack hrest)
      (.cons (B.rel_variableScan mode map stack hrest) (.cons ?_
      (.cons (B.rel_tagScan mode map stack hrest) (.cons (B.rel_boldScan stack hrest)
      (.cons (B.rel_italicScan stack hrest) .nil))))))))
    · exact B.orFault.rel_ite (B.orFault.rel_pure _) (B.orFault.rel_pure _)
    · apply B.orFault.rel_ite
      · cases imageParts? rest with
        | some parts => exact B.orFault.rel_pure _
        | none => exact B.orFault.rel_pure _
      · exact B.orFault.rel_pure _
  apply B.orFault.rel_bind (B.rel_firstTaken hscanners)
  intro taken?
  cases taken? with
  | some taken => exact B.orFault.rel_pure _
  | none => exact B.orFault.rel_pure _

end Scanners

/-! ### Searches that cannot give up -/

/-- A search in a scanner that can give up is the search itself. -/
def lifting (m : Type → Type) [Monad m] [LawfulMonad m] [Lookahead m] (content : Text) (o : Nat) :
    Bridge (ExceptT ScanError m) m content o where
  Rel x y := x = ExceptT.lift y
  rel_pure := by
    intro α a
    apply ExceptT.ext
    rw [ExceptT.run_lift, map_pure, ExceptT.run_pure]
  rel_bind := by
    intro α β x y f g hx hf
    apply ExceptT.ext
    rw [hx, ExceptT.run_bind_lift, ExceptT.run_lift, map_bind]
    simp only [hf, ExceptT.run_lift]
  rel_ahead := fun _ _ => rfl
  rel_braceAhead := fun _ => rfl

theorem tagEnd_lift (k : Cursor) (rest : Text) :
    (tagEnd k.offset (rest.drop 1) : ExceptT ScanError m (Option Nat)) =
      ExceptT.lift (tagEnd k.offset (rest.drop 1)) := by
  -- Where in a content the text stands does not matter, so blanks may come before it.
  have hrest : rest = (List.replicate k.offset ' ' ++ rest).drop k.offset := by simp
  exact (lifting m (List.replicate k.offset ' ' ++ rest) k.offset).rel_tagEnd hrest

end Bridge

/-! ## Agreement -/

/-- Computing with any faithful memo gives the plain answer, and the memo stays faithful. -/
def Agrees {α : Type} (content : Text) (offset : Nat) (x : Memoised α) (a : α) : Prop :=
  ∀ memo : Memo, memo.Faithful content offset →
    (x.run memo).1 = a ∧ (x.run memo).2.Faithful content offset

section Agreement

variable {content : Text} {o : Nat} {α β : Type}

theorem agrees_pure (a : α) : Agrees content o (pure a) a := fun _ h => ⟨rfl, h⟩

theorem Agrees.bind {x : Memoised α} {f : α → Memoised β} {a : α} {b : β}
    (hx : Agrees content o x a) (hf : Agrees content o (f a) b) :
    Agrees content o (x >>= f) b := by
  intro memo h
  rcases hx memo h with ⟨hval, hmemo⟩
  have hrun : (x >>= f).run memo = (f (x.run memo).1).run (x.run memo).2 := rfl
  rw [hrun, hval]
  exact hf _ hmemo

theorem agrees_ahead (c : Char) {start : Nat} {t : Text} (ht : t = content.drop start) :
    Agrees content o (Lookahead.ahead c start t) (Text.distance c t) := by
  intro memo h
  subst ht
  rcases Memo.find_spec h c start with ⟨hhit, hmemo⟩
  refine ⟨?_, hmemo⟩
  have hrun : (StateT.run (m := Id) (Lookahead.ahead (m := Memoised) c start
      (content.drop start)) memo).1 =
      (memo.find c start (content.drop start)).1.map (· - start) := rfl
  rw [hrun, hhit, Option.map_map]
  cases Text.distance c (content.drop start) <;> simp

theorem agrees_braceAhead {t : Text} (ht : t = content.drop o)
    (hbrace : content[o]? = some '{') :
    Agrees content o (Lookahead.braceAhead o t) (braceDistance 0 t) := by
  intro memo h
  subst ht
  have hmemo := Memo.pairLine_faithful h
  have hanswer := hmemo.braces o (Nat.le_refl o) (Memo.lt_paired_pairLine h hbrace) hbrace
  refine ⟨?_, hmemo⟩
  have hrun : (StateT.run (m := Id) (Lookahead.braceAhead (m := Memoised) o
      (content.drop o)) memo).1 =
      ((memo.pairLine o (content.drop o)).closing? o).map (· - o) := rfl
  rw [hrun, hanswer, Option.map_map]
  cases braceDistance 0 (content.drop o) <;> simp

end Agreement

/-! ## Scanners -/

section Scanners

variable {content rest : Text} {k : Cursor}

/-- Agreement is kept by everything that a scanner does. -/
def agreement (content : Text) (o : Nat) : Bridge Memoised Id content o where
  Rel x y := Agrees content o x (Id.run y)
  rel_pure := agrees_pure
  rel_bind := fun {_ _ _ y _ _} hx hf => hx.bind (hf (Id.run y))
  rel_ahead := fun c _ => agrees_ahead c rfl
  rel_braceAhead := agrees_braceAhead rfl

/-- A scanner without memory, with what it takes or the fault for which it gives up. -/
abbrev Afresh := ExceptT ScanError Id

/-- What is taken at a cursor by scanners without memory. -/
def scanAfresh (mode : Mode) (map : SourceMap) (stack : TagStack Container) (k : Cursor)
    (rest : Text) : Except ScanError Taken :=
  Id.run (scanAt mode map stack k rest : Afresh Taken).run

/-- What is taken at a cursor does not depend on what has been remembered. -/
theorem agrees_scanAt (mode : Mode) (map : SourceMap) (stack : TagStack Container)
    (hrest : rest = content.drop k.offset) :
    Agrees content k.offset (scanAt mode map stack k rest : ExceptT ScanError Memoised Taken).run
      (scanAfresh mode map stack k rest) :=
  (agreement content k.offset).rel_scanAt mode map stack hrest

end Scanners

end Notemark.Body
