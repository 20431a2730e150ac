import Mathlib.Algebra.Group.Nat.Even
import Mathlib.Order.Bounds.Basic
import Notemark.Body.Tokenize
import Notemark.Proofs.Coverage
import Notemark.Proofs.Lookahead

/-!
# Where tags end

A tag is meant to end at its first closing bracket outside double quotes, and at its first closing
bracket of all if every one of them is quoted. This module holds

* `Unquoted`: a closing bracket with an even number of quotes before it; `bracketEnd` finds the
  first one,
* `Delimits`: the intended end,
* `Hidden`: closing brackets that all stand between two quotes; the search gives up on them,
* `tagEnd_memoised`: the end does not depend on what the search remembers,
* `tagEnd_delimits_iff`: it is the intended one exactly if no bracket is hidden.
-/

namespace Notemark.Body

/-! ## Brackets outside quotes -/

/-- A closing bracket stands at the distance, outside double quotes: the number of quotes before it
is even, or odd if the text begins inside quotes. -/
def Unquoted (quoted : Bool) (t : Text) (n : Nat) : Prop :=
  t[n]? = some ']' ∧ (Even ((t.take n).count '"') ↔ quoted = false)

instance (quoted : Bool) (t : Text) (n : Nat) : Decidable (Unquoted quoted t n) :=
  inferInstanceAs (Decidable (_ ∧ _))

section Unquoted

variable {quoted : Bool} {c : Char} {cs t : Text} {n : Nat}

theorem unquoted_zero : Unquoted quoted (c :: cs) 0 ↔ c = ']' ∧ quoted = false := by
  simp [Unquoted]

theorem unquoted_succ_quote :
    Unquoted quoted ('"' :: cs) (n + 1) ↔ Unquoted (!quoted) cs n := by
  cases quoted <;> simp [Unquoted, Nat.even_add_one]

theorem unquoted_succ_of_ne (hc : c ≠ '"') :
    Unquoted quoted (c :: cs) (n + 1) ↔ Unquoted quoted cs n := by
  simp [Unquoted, hc]

/-- The search over the characters stops at no bracket before the first one outside quotes. -/
theorem bracketEnd_cons_cases (quoted : Bool) (c : Char) (cs : Text) :
    (Unquoted quoted (c :: cs) 0 ∧ bracketEnd quoted (c :: cs) = some 0) ∨
      ¬ Unquoted quoted (c :: cs) 0 ∧ ∃ inside,
        bracketEnd quoted (c :: cs) = (bracketEnd inside cs).map (· + 1) ∧
        ∀ n, Unquoted quoted (c :: cs) (n + 1) ↔ Unquoted inside cs n := by
  by_cases hq : c = '"'
  · subst hq
    exact Or.inr ⟨by simp [unquoted_zero], !quoted, by simp [bracketEnd],
      fun _ => unquoted_succ_quote⟩
  · by_cases hb : c = ']' ∧ quoted = false
    · exact Or.inl ⟨unquoted_zero.mpr hb, by simp [bracketEnd, hb.1, hb.2]⟩
    · refine Or.inr ⟨fun h => hb (unquoted_zero.mp h), quoted, ?_,
        fun _ => unquoted_succ_of_ne hq⟩
      have hpass : (c = ']' && !quoted) = false := by
        cases quoted <;> simp_all
      simp only [bracketEnd, if_neg hq, hpass, Bool.false_eq_true, if_false]

theorem isLeast_of_bracketEnd (h : bracketEnd quoted t = some n) :
    IsLeast {m | Unquoted quoted t m} n := by
  induction t generalizing quoted n with
  | nil => simp [bracketEnd] at h
  | cons c cs ih =>
    rcases bracketEnd_cons_cases quoted c cs with ⟨hhere, hend⟩ | ⟨hhere, inside, hend, hnext⟩
    · rcases Option.some.inj (hend.symm.trans h) with rfl
      exact ⟨hhere, fun m _ => Nat.zero_le m⟩
    · rw [hend] at h
      rcases Option.map_eq_some_iff.mp h with ⟨i, hi, rfl⟩
      rcases ih hi with ⟨hmem, hleast⟩
      refine ⟨(hnext i).mpr hmem, ?_⟩
      intro m hm
      cases m with
      | zero => exact absurd hm hhere
      | succ m => exact Nat.succ_le_succ (hleast ((hnext m).mp hm))

theorem not_unquoted_of_bracketEnd (h : bracketEnd quoted t = none) (n : Nat) :
    ¬ Unquoted quoted t n := by
  induction t generalizing quoted n with
  | nil => simp [Unquoted]
  | cons c cs ih =>
    rcases bracketEnd_cons_cases quoted c cs with ⟨-, hend⟩ | ⟨hhere, inside, hend, hnext⟩
    · simp [hend] at h
    · cases n with
      | zero => exact hhere
      | succ n =>
        rw [hnext n]
        exact ih (Option.map_eq_none_iff.mp (hend.symm.trans h)) n

theorem isLeast_of_distance (h : Text.distance ']' t = some n) :
    IsLeast {m | t[m]? = some ']'} n := by
  rcases Text.distance_eq_some_iff.mp h with ⟨a, b, rfl, ha, rfl⟩
  refine ⟨by simp, ?_⟩
  intro m hm
  by_contra hlt
  have hmem : (a ++ ']' :: b)[m]? = a[m]? := List.getElem?_append_left (by omega)
  exact ha (List.mem_of_getElem? (hmem.symm.trans hm))

end Unquoted

/-! ## The search -/

/-- A closing bracket stands after the last quote. -/
def Trails (t : Text) : Prop := ∃ a b, t = a ++ ']' :: b ∧ '"' ∉ b

section Trails

variable {a b t : Text}

/-- A first hit behind a text is a hit behind the character that follows the text. -/
theorem mem_of_distance_append {c d : Char} {n : Nat} (h : Text.distance c (a ++ d :: b) = some n)
    (hd : d ≠ c) (hn : a.length ≤ n) : c ∈ b := by
  rcases Text.distance_eq_some_iff.mp h with ⟨u, v, huv, -, rfl⟩
  rcases List.append_eq_append_iff.mp huv with ⟨w, rfl, hw⟩ | ⟨w, rfl, hw⟩
  · rcases List.cons_eq_append_iff.mp hw with ⟨-, hcons⟩ | ⟨w', -, rfl⟩
    · exact absurd (List.cons.inj hcons).1.symm hd
    · simp
  · have hnil : w = [] := List.eq_nil_of_length_eq_zero (by
      rw [List.length_append] at hn
      omega)
    subst hnil
    exact absurd (List.cons.inj hw).1.symm hd

theorem not_trails_of_notMem (h : ']' ∉ t) : ¬ Trails t := by
  rintro ⟨a, b, rfl, -⟩
  simp at h

theorem trails_of_mem (hmem : ']' ∈ t) (hquote : '"' ∉ t) : Trails t := by
  rcases List.append_of_mem hmem with ⟨u, v, rfl⟩
  exact ⟨u, v, rfl, fun hv => hquote (by simp [hv])⟩

/-- What stands before a quote does not trail. -/
theorem trails_append_quote (a b : Text) : Trails (a ++ '"' :: b) ↔ Trails b := by
  constructor
  · rintro ⟨u, v, huv, hv⟩
    rcases List.append_eq_append_iff.mp huv with ⟨w, rfl, hw⟩ | ⟨w, rfl, hw⟩
    · rcases List.cons_eq_append_iff.mp hw with ⟨rfl, hnil⟩ | ⟨w', rfl, hw'⟩
      · simp at hnil
      · exact ⟨w', v, hw', hv⟩
    · rcases List.cons_eq_append_iff.mp hw with ⟨rfl, hnil⟩ | ⟨w', rfl, rfl⟩
      · simp at hnil
      · simp at hv
  · rintro ⟨u, v, rfl, hv⟩
    exact ⟨a ++ '"' :: u, v, by simp, hv⟩

end Trails

/-- Without a bracket outside quotes the first one of all is taken, but only if the search meets an
open quote with a bracket behind it. -/
theorem tagEndFrom_of_bracketEnd_none (start : Nat) (all : Text) (budget read : Nat) {t : Text}
    (hbudget : t.length < budget) (h : bracketEnd false t = none) :
    (Trails t → Id.run (tagEndFrom start all budget read t) = Text.distance ']' all) ∧
      (¬ Trails t → Id.run (tagEndFrom start all budget read t) = none) := by
  -- Each round takes up a pair of quotes, so the text shrinks faster than the budget.
  induction budget generalizing t read with
  | zero => omega
  | succ budget ih =>
    rw [tagEndFrom_succ]
    cases hb : Text.distance ']' t with
    | none => simp [not_trails_of_notMem (Text.distance_eq_none_iff.mp hb)]
    | some bracket =>
      cases hq : Text.distance '"' t with
      | none => simp [bracketEnd_of_distance hb (by simp [hq])] at h
      | some quote =>
        by_cases hlt : bracket < quote
        · simp [bracketEnd_of_distance hb (by simpa [hq] using hlt)] at h
        -- A quote comes first, and what follows depends on whether it is closed.
        · have hend := bracketEnd_of_quote hq (by simp only [hb, Option.some.injEq]; omega)
          simp only [if_neg hlt]
          rcases Text.distance_eq_some_iff.mp hq with ⟨a, b, rfl, ha, rfl⟩
          have hdrop : (a ++ '"' :: b).drop (a.length + 1) = b := by simp
          rw [hend, hdrop, Option.map_eq_none_iff] at h
          rw [hdrop, trails_append_quote]
          cases hs : Text.distance '"' b with
          | none =>
            -- The bracket that was found before the quote was looked for is behind it.
            have hmem : ']' ∈ b := mem_of_distance_append hb (by decide) (by omega)
            have htrails : Trails b := trails_of_mem hmem (Text.distance_eq_none_iff.mp hs)
            simp [htrails]
          | some size =>
            rcases Text.distance_eq_some_iff.mp hs with ⟨u, v, rfl, hu, rfl⟩
            rw [bracketEnd_quoted hu, Option.map_eq_none_iff] at h
            have hlen : v.length < budget := by
              simp only [List.length_append, List.length_cons] at hbudget
              omega
            have hv : (a ++ '"' :: (u ++ '"' :: v)).drop (a.length + 1 + u.length + 1) = v := by
              rw [Nat.add_assoc, ← List.drop_drop, hdrop]
              simp
            simp only [hv, trails_append_quote]
            exact ih _ hlen h

/-- Whatever has been remembered, the end of a tag is the one that new searches find. -/
theorem tagEnd_memoised {content : Text} {start : Nat} {memo : Memo}
    (hmemo : memo.Faithful content start) :
    ((tagEnd start (content.drop (start + 1)) : Memoised (Option Nat)).run memo).1 =
      Id.run (tagEnd start (content.drop (start + 1))) :=
  ((agreement content start).rel_tagEndFrom rfl _ 0 rfl memo hmemo).1

/-! ## The intended end -/

/-- The end that a tag is meant to have, in the text behind its opening bracket: the first closing
bracket outside double quotes, or else the first one of all, or none if there is none. -/
structure Delimits (t : Text) (found : Option Nat) : Prop where
  unquoted : ∀ n, IsLeast {m | Unquoted false t m} n → found = some n
  quoted : (∀ m, ¬ Unquoted false t m) → ∀ n, IsLeast {m | t[m]? = some ']'} n → found = some n
  absent : found = none ↔ ']' ∉ t

/-- There are closing brackets, but each of them stands between two quotes. -/
structure Hidden (t : Text) : Prop where
  bracket : ']' ∈ t
  quoted : ∀ n, ¬ Unquoted false t n
  closed : ∀ n, t[n]? = some ']' → '"' ∈ t.drop n

section Hidden

variable {t : Text} {found : Option Nat}

theorem not_trails_iff : ¬ Trails t ↔ ∀ n, t[n]? = some ']' → '"' ∈ t.drop n := by
  constructor
  · intro h n hn
    by_contra hquote
    rcases List.getElem?_eq_some_iff.mp hn with ⟨hlt, hget⟩
    have hdrop : t.drop n = ']' :: t.drop (n + 1) := by rw [← hget, ← List.drop_eq_getElem_cons hlt]
    rw [hdrop] at hquote
    refine h ⟨t.take n, t.drop (n + 1), ?_, fun hmem => hquote (by simp [hmem])⟩
    rw [← hdrop, List.take_append_drop]
  · rintro h ⟨a, b, rfl, hb⟩
    have hquote := h a.length (by simp)
    simp [hb] at hquote

theorem Delimits.ne_none_of_hidden (h : Delimits t found) (hhidden : Hidden t) : found ≠ none :=
  fun hnone => h.absent.mp hnone hhidden.bracket

end Hidden

/-- The search gives up on hidden brackets and on nothing else. -/
theorem tagEnd_cases (start : Nat) (t : Text) :
    (Hidden t ∧ Id.run (tagEnd start t) = none) ∨
      (¬ Hidden t ∧ Delimits t (Id.run (tagEnd start t))) := by
  cases hend : bracketEnd false t with
  | some n =>
    have hleast := isLeast_of_bracketEnd hend
    have hmem := mem_of_bracketEnd hend
    rw [tagEnd_of_bracketEnd start hend]
    refine Or.inr ⟨fun h => h.quoted n hleast.1, ?_, ?_, ?_⟩
    · intro m hm
      rw [hleast.unique hm]
    · intro hnone
      exact absurd hleast.1 (hnone n)
    · simp [hmem]
  | none =>
    have hquoted := not_unquoted_of_bracketEnd hend
    have hsearch := tagEndFrom_of_bracketEnd_none start t (t.length + 1) 0 (by omega) hend
    by_cases htrails : Trails t
    -- The first bracket of all is found, and the last quote is open before it.
    · have hfound : Id.run (tagEnd start t) = Text.distance ']' t := hsearch.1 htrails
      rw [hfound]
      refine Or.inr ⟨fun h => not_trails_iff.mpr h.closed htrails, ?_, ?_, ?_⟩
      · intro n hn
        exact absurd hn.1 (hquoted n)
      · intro _ n hn
        cases hd : Text.distance ']' t with
        | none => exact absurd (List.mem_of_getElem? hn.1) (Text.distance_eq_none_iff.mp hd)
        | some m => rw [(isLeast_of_distance hd).unique hn]
      · exact Text.distance_eq_none_iff
    -- The search has given up: rightly if there is no bracket at all, wrongly if all are hidden.
    · have hfound : Id.run (tagEnd start t) = none := hsearch.2 htrails
      by_cases hmem : ']' ∈ t
      · exact Or.inl ⟨⟨hmem, hquoted, not_trails_iff.mp htrails⟩, hfound⟩
      · rw [hfound]
        refine Or.inr ⟨fun h => hmem h.bracket, ?_, ?_, ?_⟩
        · intro n hn
          exact absurd hn.1 (hquoted n)
        · intro _ n hn
          exact absurd (List.mem_of_getElem? hn.1) hmem
        · simp [hmem]

/-- At every opening bracket of a body, whatever the scanner remembers, the end that it finds is the
intended one exactly if there is no hidden bracket. Hidden brackets are passed over: the tag counts
as one without an end. -/
theorem tagEnd_delimits_iff (body : Text) (start : Nat) (memo : Memo)
    (hmemo : memo.Faithful (Text.joinLines body) start) :
    let t := (Text.joinLines body).drop (start + 1)
    let found := ((tagEnd start t : Memoised (Option Nat)).run memo).1
    (Delimits t found ↔ ¬ Hidden t) ∧ (Hidden t → found = none) := by
  intro t found
  have hfound : found = Id.run (tagEnd start t) := tagEnd_memoised hmemo
  rw [hfound]
  rcases tagEnd_cases start t with ⟨hhidden, hnone⟩ | ⟨hnot, hdelimits⟩
  · exact ⟨⟨fun h _ => h.ne_none_of_hidden hhidden hnone, fun h => absurd hhidden h⟩,
      fun _ => hnone⟩
  · exact ⟨⟨fun _ => hnot, fun _ => hdelimits⟩, fun h => absurd h hnot⟩

/-- The closing bracket in quotes is passed over, and the tag ends behind them. -/
theorem tagEnd_delimits_quoted :
    let t := "a b=\"]\"] c".toList
    Delimits t ((tagEnd 0 t : Memoised (Option Nat)).run {}).1 := by
  refine ((tagEnd_delimits_iff "[a b=\"]\"] c".toList 0 {} (Memo.faithful_empty _ 0)).1).mpr ?_
  intro h
  exact absurd (show Unquoted false "a b=\"]\"] c".toList 7 by decide) (h.quoted 7)

/-- A third quote, with no bracket behind it, leaves the tag without an end. -/
theorem tagEnd_undelimited_hidden :
    let t := "a \"]\" \"".toList
    ¬ Delimits t ((tagEnd 0 t : Memoised (Option Nat)).run {}).1 ∧
      tokenize .strict ('[' :: t) = .error ⟨.unclosedElement, ⟨1, 1⟩⟩ := by
  refine ⟨fun h => ?_, by decide⟩
  exact absurd (h.absent.mp (by decide)) (by decide)

end Notemark.Body
