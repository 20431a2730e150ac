import Notemark.Proofs.ScanLoop

/-!
# Exchanges with the lookahead

Every question that the scanning loop asks can be watched: what was asked, what was remembered at
that moment, and what was answered. This module holds

* `Question`: a question to the lookahead; `Question.afresh` is the answer of a new search,
* `Memo.kept?`: what a memo answers without searching,
* `Exchange`: a question with its answer, and `Exchange.Right` for one that a new search confirms,
* `Watched`: scanning with remembered answers, under observation,
* `observes_scanAt`: observation changes nothing, and all exchanges on the way are right,
* `Scan.roundAfresh`, `tokenizeAfresh`: the loop without memory,
* `memory_invisible`: a tokenizer without memory gives the same tokens or the same fault.
-/

namespace Notemark.Body

/-! ## Questions -/

/-- A question about the text from an offset on: where a character comes next, or where the brace at
the offset is closed. -/
inductive Question where
  | next (c : Char) (start : Nat)
  | closing (start : Nat)
  deriving Repr, DecidableEq

namespace Question

def start : Question → Nat
  | next _ start | closing start => start

/-- Only an opening brace can be closed. -/
def Apt (content : Text) : Question → Prop
  | next _ _ => True
  | closing start => content[start]? = some '{'

/-- The answer of a new search: the distance to the first occurrence, or to the place on the same
line where the depth, counted from the brace on, comes back to zero. -/
def afresh (content : Text) : Question → Option Nat
  | next c start => Text.distance c (content.drop start)
  | closing start => braceDistance 0 (content.drop start)

/-- The same answer as an offset of the content. -/
def hit (content : Text) (q : Question) : Option Nat := (q.afresh content).map (q.start + ·)

end Question

/-- What a memo answers without searching, as an offset. There is no such answer if it has to
search. -/
def Memo.kept? (memo : Memo) : Question → Option (Option Nat)
  | .next c start =>
    match memo.search? c with
    | some s => if answers s start then some s.hit else none
    | none => none
  | .closing start => if start < memo.paired then some (memo.closing? start) else none

section Kept

variable {content : Text} {offset : Nat} {memo : Memo} {q : Question} {hit : Option Nat}

/-- A search that is kept gives the hit of a new search, wherever the question starts. -/
theorem Memo.Faithful.kept_next (h : memo.Faithful content offset) {c : Char} {start : Nat}
    (hkept : memo.kept? (.next c start) = some hit) :
    hit = (Question.next c start).hit content := by
  unfold kept? at hkept
  dsimp only at hkept
  split at hkept
  · next s hs =>
    have hmem : s ∈ memo.searches := List.mem_of_find?_eq_some hs
    have hchar : s.char = c := by simpa using List.find?_some hs
    split at hkept
    · next hans =>
      have hhit := hit_of_answers (h.searches s hmem) hans
      rw [Option.some.inj hkept, hchar] at hhit
      exact hhit
    · simp at hkept
  · simp at hkept

/-- A pair of braces that is kept is right as long as its question can still come. -/
theorem Memo.Faithful.kept_closing (h : memo.Faithful content offset) {start : Nat}
    (hstart : offset ≤ start) (hbrace : content[start]? = some '{')
    (hkept : memo.kept? (.closing start) = some hit) :
    hit = (Question.closing start).hit content := by
  unfold kept? at hkept
  dsimp only at hkept
  split at hkept
  · next hpaired =>
    rw [← Option.some.inj hkept]
    exact h.braces start hstart hpaired hbrace
  · simp at hkept

/-- Whatever is asked at or after the offset, a kept answer is right. -/
theorem Memo.Faithful.kept (h : memo.Faithful content offset) (hapt : q.Apt content)
    (hstart : offset ≤ q.start) (hkept : memo.kept? q = some hit) : hit = q.hit content := by
  cases q with
  | next c start => exact h.kept_next hkept
  | closing start => exact h.kept_closing hstart hapt hkept

end Kept

/-! ## Watched scanning -/

/-- A question, what was remembered when it was asked, and the answer that was given. -/
structure Exchange where
  memo : Memo
  question : Question
  answer : Option Nat
  deriving Repr, DecidableEq

/-- The answer given is that of a new search, and so is the one that was kept, if there was one. -/
structure Exchange.Right (content : Text) (e : Exchange) : Prop where
  apt : e.question.Apt content
  answer : e.answer = e.question.afresh content
  kept : ∀ hit, e.memo.kept? e.question = some hit → hit = e.question.hit content

/-- Scanning with remembered answers, where every exchange is written down. -/
abbrev Watched := StateM (Memo × List Exchange)

/-- Asks a question, and writes down what comes of it. -/
def watch (q : Question) (x : Memoised (Option Nat)) : Watched (Option Nat) := fun (memo, log) =>
  ((x.run memo).1, (x.run memo).2, log ++ [⟨memo, q, (x.run memo).1⟩])

-- Both questions go to the memo as they are; only the log is new.
instance : Lookahead Watched where
  ahead c start t := watch (.next c start) (Lookahead.ahead c start t)
  braceAhead start t := watch (.closing start) (Lookahead.braceAhead start t)

/-- Under observation a computation gives and remembers what it gives and remembers without, and all
that is written down is right. -/
def Observes {α : Type} (content : Text) (offset : Nat) (x : Watched α) (y : Memoised α) : Prop :=
  ∀ (memo : Memo) (log : List Exchange), memo.Faithful content offset →
    ∃ es, x.run (memo, log) = ((y.run memo).1, (y.run memo).2, log ++ es) ∧
      (∀ e ∈ es, e.Right content) ∧ (y.run memo).2.Faithful content offset

section Observation

variable {content : Text} {o : Nat} {α β : Type}

theorem observes_pure (a : α) : Observes content o (pure a) (pure a) := by
  intro memo log h
  refine ⟨[], ?_, by simp, h⟩
  rw [List.append_nil]
  rfl

theorem Observes.bind {x : Watched α} {y : Memoised α} {f : α → Watched β} {g : α → Memoised β}
    (hx : Observes content o x y) (hf : ∀ a, Observes content o (f a) (g a)) :
    Observes content o (x >>= f) (y >>= g) := by
  intro memo log h
  -- The second part starts from the memo and the log that the first one leaves.
  rcases hx memo log h with ⟨es, hrun, hes, hmemo⟩
  rcases hf (y.run memo).1 (y.run memo).2 (log ++ es) hmemo with ⟨fs, hrun', hfs, hmemo'⟩
  refine ⟨es ++ fs, ?_, ?_, hmemo'⟩
  · have hbind : (x >>= f).run (memo, log) =
        (f (x.run (memo, log)).1).run (x.run (memo, log)).2 := rfl
    rw [hbind, hrun, hrun', List.append_assoc]
    rfl
  · intro e he
    rcases List.mem_append.mp he with he | he
    · exact hes e he
    · exact hfs e he

/-- One exchange: it is right if the question is apt and the memo keeps no wrong answer to it. -/
theorem observes_watch {q : Question} {x : Memoised (Option Nat)} (hapt : q.Apt content)
    (hx : Agrees content o x (q.afresh content))
    (hkept : ∀ memo : Memo, memo.Faithful content o → ∀ hit, memo.kept? q = some hit →
      hit = q.hit content) :
    Observes content o (watch q x) x := by
  intro memo log h
  rcases hx memo h with ⟨hanswer, hmemo⟩
  refine ⟨[⟨memo, q, (x.run memo).1⟩], rfl, ?_, hmemo⟩
  intro e he
  rcases List.mem_singleton.mp he with rfl
  exact ⟨hapt, hanswer, hkept memo h⟩

/-- Observation goes along with everything that a scanner does. -/
def observation (content : Text) (o : Nat) : Bridge Watched Memoised content o where
  Rel := Observes content o
  rel_pure := observes_pure
  rel_bind := Observes.bind
  rel_ahead := by
    intro c start
    -- A search that is kept holds for every start, also for one behind the cursor.
    apply observes_watch (q := .next c start) trivial (agrees_ahead c rfl)
    intro memo h hit hkept
    exact h.kept_next hkept
  rel_braceAhead := by
    intro hbrace
    -- A brace is asked for at the cursor only, so pairs that lie behind it do not matter.
    apply observes_watch (q := .closing o) hbrace (agrees_braceAhead rfl hbrace)
    intro memo h hit hkept
    exact h.kept_closing (Nat.le_refl o) hbrace hkept

theorem observes_scanAt (mode : Mode) (map : SourceMap) (stack : TagStack Container) {k : Cursor}
    {rest : Text} (hrest : rest = content.drop k.offset) :
    Observes content k.offset
      (scanAt mode map stack k rest : ExceptT ScanError Watched Taken).run
      (scanAt mode map stack k rest : ExceptT ScanError Memoised Taken).run :=
  (observation content k.offset).rel_scanAt mode map stack hrest

end Observation

/-! ## The loop under observation -/

namespace Scan

variable {content : Text} {s s' : Scan} {mode : Mode} {map : SourceMap}

/-- What is taken at the cursor or the fault for which the scan gives up, what is remembered
afterwards, and the exchanges on the way. -/
def observed (mode : Mode) (map : SourceMap) (s : Scan) :
    Except ScanError Taken × Memo × List Exchange :=
  (scanAt mode map s.stack s.cursor s.rest : ExceptT ScanError Watched Taken).run.run (s.memo, [])

theorem exists_observed (mode : Mode) (map : SourceMap) (hs : s.Sound content) :
    ∃ es, s.observed mode map = ((s.look mode map).1, (s.look mode map).2, es) ∧
      ∀ e ∈ es, e.Right content := by
  rcases observes_scanAt mode map s.stack hs.rest s.memo [] hs.memo with ⟨es, hrun, hes, -⟩
  exact ⟨es, hrun, hes⟩

/-- Every state of a run belongs to a place in the content, and remembers nothing wrong. -/
theorem sound_of_rounds {n : Nat} (hs : s.Sound content) (h : s.rounds mode map n = .ok s') :
    s'.Sound content := by
  induction n generalizing s with
  | zero => exact Except.ok.inj h ▸ hs
  | succ n ih =>
    unfold rounds at h
    by_cases hrest : s.rest = []
    · rw [if_pos hrest] at h
      exact Except.ok.inj h ▸ hs
    · rw [if_neg hrest] at h
      cases hround : s.round mode map with
      | error e => simp [hround, bind, Except.bind] at h
      | ok next =>
        rw [hround] at h
        rcases round_eq_ok hs hround with ⟨stack, -, -, hnext⟩
        exact ih hnext h

end Scan

/-! ## A tokenizer without memory -/

namespace Scan

variable {content : Text} {s s' : Scan} {mode : Mode} {map : SourceMap}

/-- One round without memory: every question is answered by a new search. -/
def roundAfresh (mode : Mode) (map : SourceMap) (s : Scan) : Except ScanError Scan :=
  (scanAfresh mode map s.stack s.cursor s.rest).map fun taken => s.behind taken {}

def roundsAfresh (mode : Mode) (map : SourceMap) : Nat → Scan → Except ScanError Scan
  | 0, s => .ok s
  | n + 1, s =>
    if s.rest = [] then .ok s else do roundsAfresh mode map n (← s.roundAfresh mode map)

/-- A state with nothing remembered. -/
def forget (s : Scan) : Scan := { s with memo := {} }

theorem behind_forget (s : Scan) (taken : Taken) (memo : Memo) :
    s.forget.behind taken {} = (s.behind taken memo).forget := by
  unfold behind forget
  cases taken.output <;> rfl

/-- A round with memory comes to the same state as one without, but for what is remembered. -/
theorem roundAfresh_forget (hs : s.Sound content) :
    s.forget.roundAfresh mode map = (s.round mode map).map forget := by
  have htaken : (s.look mode map).1 = scanAfresh mode map s.stack s.cursor s.rest :=
    (agrees_scanAt mode map s.stack hs.rest s.memo hs.memo).1
  unfold roundAfresh round
  rcases hlook : s.look mode map with ⟨outcome, memo⟩
  rw [hlook] at htaken
  have hforget : scanAfresh mode map s.forget.stack s.forget.cursor s.forget.rest = outcome :=
    htaken.symm
  rw [hforget]
  cases outcome with
  | error e => rfl
  | ok taken => exact congrArg Except.ok (behind_forget s taken memo)

theorem roundsAfresh_forget (mode : Mode) (map : SourceMap) (hs : s.Sound content) (n : Nat) :
    s.forget.roundsAfresh mode map n = (s.rounds mode map n).map forget := by
  induction n generalizing s with
  | zero => rfl
  | succ n ih =>
    unfold roundsAfresh rounds
    by_cases hrest : s.rest = []
    · rw [if_pos hrest, if_pos (show s.forget.rest = [] from hrest)]
      rfl
    · rw [if_neg hrest, if_neg (show ¬ s.forget.rest = [] from hrest), roundAfresh_forget hs]
      cases hround : s.round mode map with
      | error e => rfl
      | ok next =>
        rcases round_eq_ok hs hround with ⟨stack, -, -, hnext⟩
        exact ih hnext

end Scan

/-- The tokens of a body, every question being answered by a new search. -/
def tokenizeAfresh (mode : Mode) (body : Text) : Except ScanError (List Token) := do
  let content := Text.joinLines body
  let s ← (Scan.start content).roundsAfresh mode (SourceMap.ofText content) content.length
  s.finish mode

/-- Memory cannot be seen: a tokenizer that searches afresh each time gives the same tokens or the
same fault. In every state that a run comes to, each answer that is kept is the one a new search
would give to any question from there on, and all exchanges of the round that follows are right. -/
theorem memory_invisible (mode : Mode) (body : Text) :
    tokenize mode body = tokenizeAfresh mode body ∧
    ∀ n s, (Scan.start (Text.joinLines body)).rounds mode
        (SourceMap.ofText (Text.joinLines body)) n = .ok s →
      (∀ q hit, q.Apt (Text.joinLines body) → s.cursor.offset ≤ q.start →
        s.memo.kept? q = some hit → hit = q.hit (Text.joinLines body)) ∧
      ∃ es, s.observed mode (SourceMap.ofText (Text.joinLines body)) =
          ((s.look mode (SourceMap.ofText (Text.joinLines body))).1,
            (s.look mode (SourceMap.ofText (Text.joinLines body))).2, es) ∧
        ∀ e ∈ es, e.Right (Text.joinLines body) := by
  refine ⟨?_, ?_⟩
  · have hrounds := Scan.roundsAfresh_forget mode (SourceMap.ofText (Text.joinLines body))
      (Scan.sound_start (Text.joinLines body)) (Text.joinLines body).length
    have hstart : (Scan.start (Text.joinLines body)).forget = Scan.start (Text.joinLines body) :=
      rfl
    rw [tokenize_eq_rounds, tokenizeAfresh]
    rw [hstart] at hrounds
    rw [hrounds]
    cases (Scan.start (Text.joinLines body)).rounds mode
        (SourceMap.ofText (Text.joinLines body)) (Text.joinLines body).length with
    | error e => rfl
    | ok s => rfl
  · intro n s h
    have hs := Scan.sound_of_rounds (Scan.sound_start _) h
    refine ⟨?_, Scan.exists_observed mode _ hs⟩
    intro q hit hapt hstart hkept
    exact hs.memo.kept hapt hstart hkept

/-- Two references on one line: the braces of the second were paired when the first was read. -/
theorem memory_invisible_second_reference :
    let body := ['{', '$', 'a', '}', '{', '$', 'b', '}']
    let map := SourceMap.ofText body
    ∃ s es e, (Scan.start body).rounds .strict map 1 = .ok s ∧
      s.observed .strict map = ((s.look .strict map).1, (s.look .strict map).2, es) ∧ e ∈ es ∧
      e.question = .closing 4 ∧ e.memo.kept? (.closing 4) = some (some 7) ∧
      (Question.closing 4).hit body = some 7 := by
  intro body map
  obtain ⟨s, e, hrounds, hasked, hquestion, hkept⟩ : ∃ s e,
      (Scan.start body).rounds .strict map 1 = .ok s ∧ e ∈ (s.observed .strict map).2.2 ∧
      e.question = .closing 4 ∧ e.memo.kept? (.closing 4) = some (some 7) :=
    ⟨_, ⟨{ searches := [⟨'\n', 0, none⟩], braces := [(0, 3), (4, 7)], paired := 8 }, .closing 4,
      some 3⟩, rfl, List.mem_singleton.mpr rfl, rfl, rfl⟩
  rcases ((memory_invisible .strict body).2 1 s hrounds).2 with ⟨es, hobserved, hright⟩
  have hmem : e ∈ es := by
    rw [show s.observed .strict map = _ from hobserved] at hasked
    exact hasked
  have hhit := (hright e hmem).kept (some 7) (hquestion ▸ hkept)
  exact ⟨s, es, e, hrounds, hobserved, hmem, hquestion, hkept, hquestion ▸ hhit.symm⟩

end Notemark.Body
