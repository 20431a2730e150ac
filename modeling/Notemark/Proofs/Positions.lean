import Notemark.Proofs.Outline

/-!
# Tokens by position

Where elements begin, where containers close and which markers count is said here about the tokens
of a body by their positions alone. A tree builder that has taken some of the tokens is in a state
that can be read off them.

* `Since`: something has happened, and something else has held ever since,
* `ClosesAt`, `EndsAt`, `BeginsAt`: tokens at which containers close, paragraphs end and elements
  begin,
* `Decorates`: a marker counts for what begins at a later token,
* `Builder.Follows`: a builder after so many tokens, in these terms,
* `Builder.Follows.step`, `Builder.run_follows`: a pass over sound tokens follows them to the end.
-/

namespace Notemark.Body

/-! ## Since -/

/-- At some place before `n` it was `P`, and `Q` at every place since then. -/
def Since (P Q : Nat → Prop) (n : Nat) : Prop :=
  ∃ k, k < n ∧ P k ∧ ∀ j, k < j → j < n → Q j

section SinceLaws

variable {P Q : Nat → Prop} {n : Nat}

theorem not_since_zero : ¬ Since P Q 0 := by
  rintro ⟨k, hk, -⟩
  exact Nat.not_lt_zero k hk

/-- One place more: it is `P` there, or it is `Q` there and has been before. -/
theorem since_succ : Since P Q (n + 1) ↔ P n ∨ Q n ∧ Since P Q n := by
  constructor
  · rintro ⟨k, hk, hP, hQ⟩
    -- The last place is the one where it was `P`, or lies behind it.
    by_cases hkn : k = n
    · exact Or.inl (hkn ▸ hP)
    · refine Or.inr ⟨hQ n (by omega) (by omega), k, by omega, hP, ?_⟩
      intro j hkj hjn
      exact hQ j hkj (by omega)
  · rintro (hP | ⟨hn, k, hk, hP, hQ⟩)
    · exact ⟨n, by omega, hP, fun j hnj hjn => by omega⟩
    · refine ⟨k, by omega, hP, ?_⟩
      intro j hkj hjn
      by_cases hj : j = n
      · exact hj ▸ hn
      · exact hQ j hkj (by omega)

end SinceLaws

/-! ## Tokens by position -/

/-- The containers that are open behind a token, innermost first. A closing tag closes the innermost
container of its kind and all inside it. -/
def Token.openBehind (kinds : List Container) : Token → List Container
  | .opening c _ _ => c :: kinds
  | .closing (some c) _ => if c ∈ kinds then (kinds.dropWhile (· ≠ c)).tail else kinds
  | _ => kinds

def openAfter (ts : List Token) : List Container := ts.foldl Token.openBehind []

namespace Token

/-- What an id marker says. -/
def idMarker? : Token → Option (Option Text)
  | .idMarker id => some id
  | _ => none

/-- What a style marker says. -/
def styleMarker? : Token → Option (Option Text)
  | .styleMarker classes => some (some classes)
  | _ => none

end Token

section Positions

variable (ts : List Token)

/-- A closing tag that closes an open container, its own or one inside of which others are open. -/
def ClosesAt (n : Nat) : Prop :=
  ∃ c name, ts[n]? = some (.closing (some c) name) ∧ c ∈ openAfter (ts.take n)

/-- White space, or a closing tag that closes nothing. -/
def IdleAt (n : Nat) : Prop := ∃ t, ts[n]? = some t ∧ t.Idle (openAfter (ts.take n))

/-- The tokens before `n` end in a line break, but for what nobody notices. -/
def LineEnded (n : Nat) : Prop := Since (fun k => ts[k]? = some .newline) (IdleAt ts) n

/-- A paragraph ends at the next block, marker or blank line, or where its container closes. -/
def EndsAt (n : Nat) : Prop :=
  (∃ t, ts[n]? = some t ∧ (t.block?.isSome = true ∨ t.remark?.isSome = true)) ∨ ClosesAt ts n ∨
    ts[n]? = some .newline ∧ LineEnded ts n

/-- Some token has written into a paragraph that has not ended since. -/
def Writing (n : Nat) : Prop :=
  Since (fun k => ∃ t, ts[k]? = some t ∧ t.hasInk = true) (fun j => ¬ EndsAt ts j) n

/-- A block begins at its own token, a paragraph at the first token that writes into it. -/
def BeginsAt (n : Nat) : Prop :=
  ∃ t, ts[n]? = some t ∧ (t.block?.isSome = true ∨ t.hasInk = true ∧ ¬ Writing ts n)

/-- The marker at `k` says `value` about what begins at `n`: in between nothing else begins, no
container closes, and there is no other marker of the same sort. -/
def Decorates (marker? : Token → Option (Option Text)) (k n : Nat) (value : Text) : Prop :=
  k < n ∧ ts[k]?.bind marker? = some (some value) ∧
    ∀ j, k < j → j < n → ¬ BeginsAt ts j ∧ ¬ ClosesAt ts j ∧ ts[j]?.bind marker? = none

/-- The mark holds what the markers say about an element that begins at `n`. -/
structure MarkedAt (n : Nat) (mark : Mark) : Prop where
  id : ∀ value, mark.id = some value ↔ ∃ k, Decorates ts Token.idMarker? k n value
  style : ∀ value, mark.style = some value ↔ ∃ k, Decorates ts Token.styleMarker? k n value

/-- The block comes from the token at `n`: a paragraph has the item of this token behind white space
only, and any other block is the one that the token stands for. -/
def MadeAt (n : Nat) : Block → Prop
  | .paragraph items => ∃ t blanks item later, ts[n]? = some t ∧ t.hasInk = true ∧ t.Writes item ∧
      items = blanks ++ item :: later ∧ ∀ x ∈ blanks, Paragraph.isBlankText x = true
  | block => ts[n]?.bind Token.block? = some block

end Positions

/-! ## One token more -/

section OneMore

variable {ts : List Token} {n : Nat} {t : Token}

theorem take_succ_of_getElem? (ht : ts[n]? = some t) : ts.take (n + 1) = ts.take n ++ [t] := by
  rw [List.take_add_one, ht]
  rfl

theorem openAfter_succ (ht : ts[n]? = some t) :
    openAfter (ts.take (n + 1)) = t.openBehind (openAfter (ts.take n)) := by
  rw [take_succ_of_getElem? ht, openAfter, List.foldl_append]
  rfl

theorem exists_decorates_succ {marker? : Token → Option (Option Text)} {value : Text} :
    (∃ k, Decorates ts marker? k (n + 1) value) ↔
      ts[n]?.bind marker? = some (some value) ∨
        (¬ BeginsAt ts n ∧ ¬ ClosesAt ts n ∧ ts[n]?.bind marker? = none) ∧
          ∃ k, Decorates ts marker? k n value :=
  since_succ

theorem not_closesAt (ht : ts[n]? = some t) (h : ∀ c name, t ≠ .closing (some c) name) :
    ¬ ClosesAt ts n := by
  rintro ⟨c, name, hclosing, -⟩
  rw [ht] at hclosing
  exact h c name (Option.some.inj hclosing)

theorem closesAt_iff (ht : ts[n]? = some t) :
    ClosesAt ts n ↔ ∃ c name, t = .closing (some c) name ∧ c ∈ openAfter (ts.take n) := by
  simp only [ClosesAt, ht, Option.some.injEq]

theorem idleAt_iff (ht : ts[n]? = some t) : IdleAt ts n ↔ t.Idle (openAfter (ts.take n)) := by
  simp only [IdleAt, ht, Option.some.injEq, exists_eq_left']

theorem endsAt_iff (ht : ts[n]? = some t) :
    EndsAt ts n ↔ (t.block?.isSome = true ∨ t.remark?.isSome = true) ∨ ClosesAt ts n ∨
      t = .newline ∧ LineEnded ts n := by
  simp only [EndsAt, ht, Option.some.injEq, exists_eq_left']

theorem beginsAt_iff (ht : ts[n]? = some t) :
    BeginsAt ts n ↔ t.block?.isSome = true ∨ t.hasInk = true ∧ ¬ Writing ts n := by
  simp only [BeginsAt, ht, Option.some.injEq, exists_eq_left']

theorem writing_succ (ht : ts[n]? = some t) :
    Writing ts (n + 1) ↔ t.hasInk = true ∨ ¬ EndsAt ts n ∧ Writing ts n := by
  unfold Writing
  rw [since_succ]
  simp only [ht, Option.some.injEq, exists_eq_left']

theorem lineEnded_succ (ht : ts[n]? = some t) :
    LineEnded ts (n + 1) ↔ t = .newline ∨ IdleAt ts n ∧ LineEnded ts n := by
  unfold LineEnded
  rw [since_succ]
  simp only [ht, Option.some.injEq]

end OneMore

/-! ## Builders and positions -/

namespace Builder

variable {b b' : Builder} {ts : List Token} {n : Nat} {t : Token}

/-- The containers that are open are those of the tokens. -/
theorem kinds_step (h : b.step t = .ok b') : b'.kinds = t.openBehind b.kinds := by
  cases hbracket : t.bracket? with
  | none =>
    rw [kinds_of_step hbracket h]
    cases t with
    | opening c name as => simp [Token.bracket?] at hbracket
    | closing c name => simp [Token.bracket?] at hbracket
    | _ => rfl
  | some bracket =>
    cases t with
    | opening c name as => exact kinds_of_opening h
    | closing c name =>
      cases c with
      | none => exact Except.ok.inj h ▸ rfl
      | some c =>
        have hclose : b.close (some c) = .ok b' := h
        -- A tag that fits nothing is passed over by both.
        by_cases hmem : c ∈ b.kinds
        · rw [kinds_of_close hmem hclose, Token.openBehind, if_pos hmem]
        · rw [close_stray hmem] at hclose
          rw [← Except.ok.inj hclose, Token.openBehind, if_neg hmem]
    | _ => simp [Token.bracket?] at hbracket

/-- Entries with the tokens before `n` at which they begin. -/
structure Placement (ts : List Token) (n : Nat) (placed : List (Nat × Entry)) : Prop where
  ascending : (placed.map (·.1)).Pairwise (· < ·)
  begins : ∀ k, k ∈ placed.map (·.1) ↔ k < n ∧ BeginsAt ts k
  made : ∀ p ∈ placed, MadeAt ts p.1 p.2.1
  marked : ∀ p ∈ placed, MarkedAt ts p.1 p.2.2

/-- The state of a builder after `n` tokens, read off the tokens. -/
structure Follows (ts : List Token) (n : Nat) (b : Builder) : Prop where
  neat : b.Neat
  kinds : b.kinds = openAfter (ts.take n)
  writing : Writing ts n ↔ b.line ≠ none
  lineEnded : b.line ≠ none → (LineEnded ts n ↔ b.line = some true)
  waiting : MarkedAt ts n b.waiting
  placed : ∃ placed, placed.map (·.2) = b.outline ∧ Placement ts n placed

section Step

variable (hb : Follows ts n b) (ht : ts[n]? = some t)
include hb ht

theorem Follows.begins_iff :
    BeginsAt ts n ↔ t.block?.isSome = true ∨ t.hasInk = true ∧ b.line = none := by
  rw [beginsAt_iff ht, hb.writing, ne_eq, Classical.not_not]

theorem Follows.not_begins (hblock : t.block? = none) (hink : t.hasInk = false) :
    ¬ BeginsAt ts n := by
  simp [hb.begins_iff ht, hblock, hink]

theorem Follows.not_closes_of_idle (hidle : t.Idle b.kinds) : ¬ ClosesAt ts n := by
  rw [closesAt_iff ht]
  rintro ⟨c, name, rfl, hmem⟩
  exact hidle c rfl (hb.kinds ▸ hmem)

theorem Follows.closes_of_mem {c : Container} {name : Text} (hclosing : t = .closing (some c) name)
    (hmem : c ∈ b.kinds) : ClosesAt ts n :=
  ⟨c, name, hclosing ▸ ht, hb.kinds ▸ hmem⟩

/-! ### The open paragraph -/

theorem Follows.writing_step (h : Effect b b' t) : Writing ts (n + 1) ↔ b'.line ≠ none := by
  rw [writing_succ ht, endsAt_iff ht]
  cases h with
  | block hblock _ _ hline => simp [(Token.sort_of_block? hblock).1, hblock, hline]
  | begins hink _ _ _ _ _ hline => simp [hink, hline]
  | goesOn hink _ _ _ _ _ _ hline => simp [hink, hline]
  | marks hremark _ _ hline => simp [(Token.sort_of_remark? hremark).2, hremark, hline]
  | closes hmem _ _ hline => simp [Token.hasInk, hb.closes_of_mem ht rfl hmem, hline]
  | breaks _ _ hline =>
    have hopen : ¬ ClosesAt ts n := not_closesAt ht (by simp)
    -- The paragraph goes on if it had begun and its last line had not ended.
    cases hbefore : b.line with
    | none => simp [hline, hb.writing, hbefore, Token.hasInk]
    | some ended =>
      have hended : LineEnded ts n ↔ ended = true := by
        simpa [hbefore] using hb.lineEnded (by simp [hbefore])
      cases ended with
      | true => simp [hline, hbefore, hended, Token.hasInk]
      | false =>
        simp [hline, hbefore, hended, hopen, hb.writing, Token.hasInk, Token.block?, Token.remark?]
  | rests hidle _ _ hline =>
    rcases Token.sort_of_idle hidle with ⟨hblock, hink, hremark⟩
    simp [hblock, hink, hremark, hb.not_closes_of_idle ht hidle, Token.ne_newline_of_idle hidle,
      hline, hb.writing]

theorem Follows.lineEnded_step (h : Effect b b' t) (hwriting : b'.line ≠ none) :
    LineEnded ts (n + 1) ↔ b'.line = some true := by
  rw [lineEnded_succ ht, idleAt_iff ht, ← hb.kinds]
  -- A token with ink stands on a line of its own right.
  have hfresh : t.hasInk = true → b'.line = some false →
      (t = .newline ∨ t.Idle b.kinds ∧ LineEnded ts n ↔ b'.line = some true) := by
    intro hink hline
    have hnewline : t ≠ .newline := by
      rintro rfl
      simp [Token.hasInk] at hink
    simp [hline, hnewline, Token.not_idle_of_hasInk hink]
  cases h with
  | block _ _ _ hline => exact absurd hline hwriting
  | begins hink _ _ _ _ _ hline => exact hfresh hink hline
  | goesOn hink _ _ _ _ _ _ hline => exact hfresh hink hline
  | marks _ _ _ hline => exact absurd hline hwriting
  | closes _ _ _ hline => exact absurd hline hwriting
  | breaks _ _ hline =>
    have hended : b'.line = some true := by
      rw [hline] at hwriting ⊢
      split at hwriting
      · next hbefore => rw [if_pos hbefore]
      · exact absurd rfl hwriting
    simp [hended]
  | rests hidle _ _ hline =>
    rw [hline] at hwriting
    simp [Token.ne_newline_of_idle hidle, hidle, hline, hb.lineEnded hwriting]

end Step

/-! ### The waiting mark -/

section Marks

variable {marker? : Token → Option (Option Text)} {said : Option Text} (ht : ts[n]? = some t)
include ht

/-- A marker has the last word. -/
theorem decorates_said (hsaid : marker? t = some said) (value : Text) :
    said = some value ↔ ∃ k, Decorates ts marker? k (n + 1) value := by
  rw [exists_decorates_succ, ht]
  simp [hsaid]

/-- What a marker says is used up where an element begins, and dropped where a container closes. -/
theorem decorates_taken (htaken : BeginsAt ts n ∨ ClosesAt ts n) (hnone : marker? t = none)
    (value : Text) : none = some value ↔ ∃ k, Decorates ts marker? k (n + 1) value := by
  rw [exists_decorates_succ, ht]
  rcases htaken with hbegins | hcloses
  · simp [hnone, hbegins]
  · simp [hnone, hcloses]

/-- Anything else leaves it as it is. -/
theorem decorates_kept (hbegins : ¬ BeginsAt ts n) (hcloses : ¬ ClosesAt ts n)
    (hnone : marker? t = none)
    (hbefore : ∀ value, said = some value ↔ ∃ k, Decorates ts marker? k n value) (value : Text) :
    said = some value ↔ ∃ k, Decorates ts marker? k (n + 1) value := by
  rw [exists_decorates_succ, ht, hbefore]
  simp [hnone, hbegins, hcloses]

end Marks

theorem markers_of_remark? (h : t.remark? = none) :
    t.idMarker? = none ∧ t.styleMarker? = none := by
  cases t with
  | idMarker id => simp [Token.remark?] at h
  | styleMarker classes => simp [Token.remark?] at h
  | _ => exact ⟨rfl, rfl⟩

theorem markedAt_taken (ht : ts[n]? = some t) (htaken : BeginsAt ts n ∨ ClosesAt ts n)
    (hremark : t.remark? = none) : MarkedAt ts (n + 1) {} := by
  rcases markers_of_remark? hremark with ⟨hid, hstyle⟩
  exact ⟨decorates_taken ht htaken hid, decorates_taken ht htaken hstyle⟩

theorem markedAt_kept (ht : ts[n]? = some t) {mark : Mark} (hmark : MarkedAt ts n mark)
    (hbegins : ¬ BeginsAt ts n) (hcloses : ¬ ClosesAt ts n) (hremark : t.remark? = none) :
    MarkedAt ts (n + 1) mark := by
  rcases markers_of_remark? hremark with ⟨hid, hstyle⟩
  exact ⟨decorates_kept ht hbegins hcloses hid hmark.id,
    decorates_kept ht hbegins hcloses hstyle hmark.style⟩

section Step

variable (hb : Follows ts n b) (ht : ts[n]? = some t)
include hb ht

theorem Follows.marked_marker {change : Mark → Mark} (hremark : t.remark? = some change) :
    MarkedAt ts (n + 1) (change b.waiting) := by
  rcases Token.sort_of_remark? hremark with ⟨hblock, hink⟩
  have hbegins := hb.not_begins ht hblock hink
  cases t with
  | idMarker id =>
    have hcloses : ¬ ClosesAt ts n := not_closesAt ht (by simp)
    rcases Option.some.inj hremark with rfl
    exact ⟨decorates_said ht rfl, decorates_kept ht hbegins hcloses rfl hb.waiting.style⟩
  | styleMarker classes =>
    have hcloses : ¬ ClosesAt ts n := not_closesAt ht (by simp)
    rcases Option.some.inj hremark with rfl
    exact ⟨decorates_kept ht hbegins hcloses rfl hb.waiting.id, decorates_said ht rfl⟩
  | _ => simp [Token.remark?] at hremark

theorem Follows.waiting_step (h : Effect b b' t) : MarkedAt ts (n + 1) b'.waiting := by
  cases h with
  | block hblock _ hwaiting _ =>
    have hbegins : BeginsAt ts n := by simp [hb.begins_iff ht, hblock]
    rw [hwaiting]
    exact markedAt_taken ht (Or.inl hbegins) (Token.sort_of_block? hblock).2
  | begins hink _ _ hline _ hwaiting _ =>
    have hbegins : BeginsAt ts n := by simp [hb.begins_iff ht, hink, hline]
    rw [hwaiting]
    exact markedAt_taken ht (Or.inl hbegins) (Token.sort_of_hasInk hink).2
  | goesOn hink _ _ hline _ _ hwaiting _ =>
    rcases Token.sort_of_hasInk hink with ⟨hblock, hremark⟩
    have hbegins : ¬ BeginsAt ts n := by simp [hb.begins_iff ht, hblock, hline]
    have hcloses : ¬ ClosesAt ts n := by
      refine not_closesAt ht ?_
      rintro c name rfl
      simp [Token.hasInk] at hink
    rw [hwaiting]
    exact markedAt_kept ht hb.waiting hbegins hcloses hremark
  | marks hremark _ hwaiting _ =>
    rw [hwaiting]
    exact hb.marked_marker ht hremark
  | closes hmem _ hwaiting _ =>
    rw [hwaiting]
    exact markedAt_taken ht (Or.inr (hb.closes_of_mem ht rfl hmem)) rfl
  | breaks _ hwaiting _ =>
    rw [hwaiting]
    exact markedAt_kept ht hb.waiting (hb.not_begins ht rfl rfl) (not_closesAt ht (by simp)) rfl
  | rests hidle _ hwaiting _ =>
    rcases Token.sort_of_idle hidle with ⟨hblock, hink, hremark⟩
    rw [hwaiting]
    exact markedAt_kept ht hb.waiting (hb.not_begins ht hblock hink)
      (hb.not_closes_of_idle ht hidle) hremark

end Step

/-! ### Elements and the tokens where they begin -/

section Placements

variable {placed : List (Nat × Entry)}

theorem placement_start (ts : List Token) : Placement ts 0 [] where
  ascending := List.Pairwise.nil
  begins := by
    intro k
    simp
  made := by simp
  marked := by simp

/-- Nothing begins. -/
theorem Placement.skip (h : Placement ts n placed) (hbegins : ¬ BeginsAt ts n) :
    Placement ts (n + 1) placed where
  ascending := h.ascending
  begins := by
    intro k
    rw [h.begins k]
    constructor
    · rintro ⟨hk, hbegins'⟩
      exact ⟨by omega, hbegins'⟩
    · rintro ⟨hk, hbegins'⟩
      have hne : k ≠ n := by
        rintro rfl
        exact hbegins hbegins'
      exact ⟨by omega, hbegins'⟩
  made := h.made
  marked := h.marked

/-- An element begins. -/
theorem Placement.snoc (h : Placement ts n placed) (hbegins : BeginsAt ts n) {block : Block}
    {mark : Mark} (hmade : MadeAt ts n block) (hmarked : MarkedAt ts n mark) :
    Placement ts (n + 1) (placed ++ [(n, (block, mark))]) where
  ascending := by
    rw [List.map_append, List.pairwise_append]
    refine ⟨h.ascending, by simp, ?_⟩
    intro k hk m hm
    -- All that has begun before stands before it.
    have hlt : k < n := ((h.begins k).mp hk).1
    have hm' : m = n := by simpa using hm
    omega
  begins := by
    intro k
    rw [List.map_append, List.mem_append, h.begins k]
    constructor
    · rintro (⟨hk, hbegins'⟩ | hk)
      · exact ⟨by omega, hbegins'⟩
      · have hkn : k = n := by simpa using hk
        exact ⟨by omega, hkn ▸ hbegins⟩
    · rintro ⟨hk, hbegins'⟩
      by_cases hkn : k = n
      · exact Or.inr (by simp [hkn])
      · exact Or.inl ⟨by omega, hbegins'⟩
  made := by
    intro p hp
    rcases List.mem_append.mp hp with hp | hp
    · exact h.made p hp
    · rw [List.mem_singleton.mp hp]
      exact hmade
  marked := by
    intro p hp
    rcases List.mem_append.mp hp with hp | hp
    · exact h.marked p hp
    · rw [List.mem_singleton.mp hp]
      exact hmarked

/-- The last paragraph goes on, and begins where it began. -/
theorem Placement.goOn {k : Nat} {items : List Inline} {mark : Mark}
    (h : Placement ts n (placed ++ [(k, (.paragraph items, mark))])) (more : List Inline) :
    Placement ts n (placed ++ [(k, (.paragraph (items ++ more), mark))]) where
  ascending := by simpa using h.ascending
  begins := by simpa using h.begins
  made := by
    intro p hp
    rcases List.mem_append.mp hp with hp | hp
    · exact h.made p (List.mem_append_left _ hp)
    · rcases h.made (k, (.paragraph items, mark)) (by simp) with
        ⟨t, blanks, item, later, ht, hink, hwrites, hitems, hblanks⟩
      rw [List.mem_singleton.mp hp]
      refine ⟨t, blanks, item, later ++ more, ht, hink, hwrites, ?_, hblanks⟩
      rw [hitems, List.append_assoc]
      rfl
  marked := by
    intro p hp
    rcases List.mem_append.mp hp with hp | hp
    · exact h.marked p (List.mem_append_left _ hp)
    · rw [List.mem_singleton.mp hp]
      exact h.marked (k, (.paragraph items, mark)) (by simp)

end Placements

theorem madeAt_of_block? (ht : ts[n]? = some t) {block : Block} (h : t.block? = some block) :
    MadeAt ts n block := by
  have hbind : ts[n]?.bind Token.block? = some block := by rw [ht]; exact h
  cases block with
  | paragraph items =>
    -- No token stands for a paragraph by itself.
    cases t with
    | leaf name as =>
      simp only [Token.block?, Block.ofLeaf, Option.some.injEq] at h
      split at h <;> simp at h
    | _ => simp [Token.block?, Block.ofComponent, Block.ofOpening] at h
  | _ => exact hbind

section Step

variable (hb : Follows ts n b) (ht : ts[n]? = some t)
include hb ht

theorem Follows.placed_step (h : Effect b b' t) :
    ∃ placed, placed.map (·.2) = b'.outline ∧ Placement ts (n + 1) placed := by
  rcases hb.placed with ⟨placed, hplaced, hplacement⟩
  -- Where nothing begins and nothing is written, all stays as it was.
  have hskip : ¬ BeginsAt ts n → b'.outline = b.outline →
      ∃ placed, placed.map (·.2) = b'.outline ∧ Placement ts (n + 1) placed := by
    intro hbegins houtline
    exact ⟨placed, hplaced.trans houtline.symm, hplacement.skip hbegins⟩
  cases h with
  | block hblock houtline _ _ =>
    have hbegins : BeginsAt ts n := by simp [hb.begins_iff ht, hblock]
    refine ⟨_, ?_, hplacement.snoc hbegins (madeAt_of_block? ht hblock) hb.waiting⟩
    rw [List.map_append, hplaced, houtline]
    rfl
  | begins hink hwrites hblanks hline houtline _ _ =>
    have hbegins : BeginsAt ts n := by simp [hb.begins_iff ht, hink, hline]
    have hmade : MadeAt ts n (.paragraph (_ ++ [_])) :=
      ⟨t, _, _, [], ht, hink, hwrites, rfl, hblanks⟩
    refine ⟨_, ?_, hplacement.snoc hbegins hmade hb.waiting⟩
    rw [List.map_append, hplaced, houtline]
    rfl
  | @goesOn _ _ _ blanks item _ hink _ _ hline hbefore houtline _ _ =>
    have hbegins : ¬ BeginsAt ts n := by
      simp [hb.begins_iff ht, (Token.sort_of_hasInk hink).1, hline]
    -- The paragraph that goes on is the last element so far.
    rw [hbefore] at hplaced
    rcases List.map_eq_append_iff.mp hplaced with ⟨front, last, rfl, hfront, hlast⟩
    rcases List.map_eq_singleton_iff.mp hlast with ⟨⟨k, entry⟩, rfl, hentry⟩
    rcases hentry with rfl
    refine ⟨_, ?_, (hplacement.goOn (blanks ++ [item])).skip hbegins⟩
    rw [List.map_append, hfront, houtline]
    rfl
  | marks hremark houtline _ _ =>
    rcases Token.sort_of_remark? hremark with ⟨hblock, hink⟩
    exact hskip (hb.not_begins ht hblock hink) houtline
  | closes _ houtline _ _ => exact hskip (hb.not_begins ht rfl rfl) houtline
  | breaks houtline _ _ => exact hskip (hb.not_begins ht rfl rfl) houtline
  | rests hidle houtline _ _ =>
    rcases Token.sort_of_idle hidle with ⟨hblock, hink, -⟩
    exact hskip (hb.not_begins ht hblock hink) houtline

/-- One token more, and the builder still follows. -/
theorem Follows.step (hsound : t.Sound) : ∃ b', b.step t = .ok b' ∧ Follows ts (n + 1) b' := by
  rcases step_effect hb.neat hsound with ⟨b', hstep, hneat, heffect⟩
  refine ⟨b', hstep, hneat, ?_, hb.writing_step ht heffect, hb.lineEnded_step ht heffect,
    hb.waiting_step ht heffect, hb.placed_step ht heffect⟩
  rw [openAfter_succ ht, ← hb.kinds, kinds_step hstep]

end Step

theorem follows_start (ts : List Token) : Follows ts 0 {} where
  neat := neat_start
  kinds := rfl
  writing := ⟨fun h => absurd h not_since_zero, fun h => absurd rfl h⟩
  lineEnded := fun h => absurd rfl h
  waiting := by
    have hnone : ∀ marker? value, none = some value ↔ ∃ k, Decorates ts marker? k 0 value := by
      intro marker? value
      refine ⟨fun h => by simp at h, fun h => absurd h not_since_zero⟩
    exact ⟨hnone Token.idMarker?, hnone Token.styleMarker?⟩
  placed := ⟨[], rfl, placement_start ts⟩

/-- A pass over sound tokens follows them to the end. -/
theorem run_follows (hsound : ∀ t ∈ ts, t.Sound) (n : Nat) (hn : n ≤ ts.length) :
    ∃ b, run {} (ts.take n) = .ok b ∧ Follows ts n b := by
  induction n with
  | zero => exact ⟨{}, by simp [run], follows_start ts⟩
  | succ n ih =>
    rcases ih (by omega) with ⟨b, hrun, hb⟩
    -- The builder that follows the first tokens takes one step more.
    have ht : ts[n]? = some ts[n] := List.getElem?_eq_getElem (by omega)
    rcases hb.step ht (hsound _ (List.getElem_mem _)) with ⟨b', hstep, hb'⟩
    refine ⟨b', ?_, hb'⟩
    rw [take_succ_of_getElem? ht, run_append, hrun]
    change (b.step ts[n] >>= fun b₁ => b₁.run []) = .ok b'
    rw [hstep]
    rfl

end Builder

end Notemark.Body
