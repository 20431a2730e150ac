import Notemark.Header.Split
import Notemark.Proofs.Text

/-!
# The block of a header

Where the block of a note begins and where it ends, in terms of the text of the note alone.

* `Text.cut?_eq_some_iff`: a text is cut at the first place where it can be,
* `Text.Joined`: a text and the same with other line ends, `Text.joined_iff`: what
  `Text.joinLines` does,
* `Header.Block`: a block between its two lines of hyphens,
* `Header.split_at_block`: the block of a note is the one that holds no closing line.
-/

namespace Notemark

namespace Text

variable {a b t : Text} {c : Char}

/-! ## Cutting -/

section Cutting

variable {first : Char} {later : Text}

theorem cut?_nil (first : Char) (later : Text) : cut? (first :: later) [] = none := rfl

theorem cut?_here (h : (first :: later) <+: c :: t) :
    cut? (first :: later) (c :: t) = some ([], (c :: t).drop (first :: later).length) := by
  rw [cut?, distanceTo, if_pos (List.isPrefixOf_iff_prefix.mpr h)]
  simp

theorem cut?_later (h : ¬ (first :: later) <+: c :: t) :
    cut? (first :: later) (c :: t) =
      (cut? (first :: later) t).map fun parts => (c :: parts.1, parts.2) := by
  rw [cut?, distanceTo, if_neg fun hp => h (List.isPrefixOf_iff_prefix.mp hp), cut?, Option.map_map,
    Option.map_map]
  congr 1
  funext n
  simp [Nat.add_right_comm n 1]

theorem isSome_cut?_iff : (cut? (first :: later) t).isSome ↔ (first :: later) <:+: t := by
  induction t with
  | nil => simp [cut?_nil]
  | cons c t ih =>
    rw [List.infix_cons_iff, ← ih]
    by_cases hp : (first :: later) <+: c :: t
    · simp [cut?_here hp, hp]
    · simp [cut?_later hp, hp]

/-- What comes before the needle cannot run into it: only its first character can begin an
occurrence, and that character does not come back. -/
theorem not_prefix_append (hfirst : first ∉ later) (ha : ¬ (first :: later) <:+: c :: a) :
    ¬ (first :: later) <+: c :: a ++ (first :: later ++ b) := by
  intro hp
  have hbefore : c :: a <+: c :: a ++ (first :: later ++ b) := List.prefix_append _ _
  rcases Nat.le_total (first :: later).length (c :: a).length with hle | hle
  · exact ha (List.prefix_of_prefix_length_le hp hbefore hle).isInfix
  · -- The text before is a part of the needle, which goes on with its own beginning.
    rcases List.prefix_of_prefix_length_le hbefore hp hle with ⟨rest, hrest⟩
    rw [← hrest, List.prefix_append_right_inj] at hp
    cases rest with
    | nil =>
      rw [List.append_nil] at hrest
      exact ha (hrest ▸ List.infix_rfl)
    | cons d rest =>
      have hd : d = c := by
        rcases hp with ⟨tail, htail⟩
        exact (List.cons.inj htail).1
      -- So the first character stands in the needle twice.
      rcases List.cons.inj hrest with ⟨rfl, rfl⟩
      exact hfirst (by simp [hd])

/-- A text is cut at the first occurrence of the needle. -/
theorem cut?_eq_some_iff (hfirst : first ∉ later) :
    cut? (first :: later) t = some (a, b) ↔
      t = a ++ (first :: later ++ b) ∧ ¬ (first :: later) <:+: a := by
  induction t generalizing a with
  | nil => simp [cut?_nil]
  | cons c t ih =>
    by_cases hp : (first :: later) <+: c :: t
    · rcases hp with ⟨rest, hrest⟩
      rw [cut?_here ⟨rest, hrest⟩, ← hrest, List.drop_left]
      constructor
      · rintro ⟨⟩
        exact ⟨rfl, by simp⟩
      · rintro ⟨ht, ha⟩
        -- The needle stands at the beginning, so nothing can stand before it.
        cases a with
        | nil => rw [List.append_cancel_left ht]
        | cons d a =>
          refine absurd ?_ (not_prefix_append (b := b) hfirst ha)
          rw [← ht]
          exact List.prefix_append _ _
    · rw [cut?_later hp]
      cases a with
      | nil =>
        constructor
        · simp
        · rintro ⟨ht, -⟩
          exact absurd ⟨b, ht.symm⟩ hp
      | cons d a =>
        rw [Option.map_eq_some_iff]
        constructor
        · rintro ⟨⟨a', b'⟩, hcut, heq⟩
          cases heq
          rcases ih.mp hcut with ⟨rfl, ha⟩
          refine ⟨rfl, fun hin => ?_⟩
          rcases List.infix_cons_iff.mp hin with hpre | hin
          · exact hp (hpre.trans (List.prefix_append _ _))
          · exact ha hin
        · rintro ⟨ht, ha⟩
          rcases List.cons.inj ht with ⟨rfl, rfl⟩
          exact ⟨(a, b), ih.mpr ⟨rfl, fun hin => ha (List.infix_cons hin)⟩, rfl⟩

end Cutting

/-! ## Line ends -/

/-- A text, and the same text with a line feed for every `\r\n` in it. -/
def Joined (t n : Text) : Prop :=
  ∃ first later, (∀ piece ∈ first :: later, ¬ ['\r', '\n'] <:+: piece) ∧
    t = List.intercalate ['\r', '\n'] (first :: later) ∧
    n = List.intercalate ['\n'] (first :: later)

theorem joinLines_cons_apart (h : ¬ ['\r', '\n'] <+: c :: t) :
    joinLines (c :: t) = c :: joinLines t := by
  apply joinLines_cons
  by_cases hc : c = '\r'
  · subst hc
    right
    intro hhead
    rcases List.head?_eq_some_iff.mp hhead with ⟨rest, rfl⟩
    exact h ⟨rest, rfl⟩
  · exact Or.inl hc

theorem joinLines_append {piece : Text} (h : ¬ ['\r', '\n'] <:+: piece) (rest : Text) :
    joinLines (piece ++ '\r' :: '\n' :: rest) = piece ++ '\n' :: joinLines rest := by
  induction piece with
  | nil => rfl
  | cons c piece ih =>
    have hc : ¬ ['\r', '\n'] <+: c :: (piece ++ '\r' :: '\n' :: rest) :=
      not_prefix_append (by decide) h
    rw [List.cons_append, joinLines_cons_apart hc, ih fun hin => h (List.infix_cons hin)]
    rfl

theorem joinLines_of_not_infix (h : ¬ ['\r', '\n'] <:+: t) : joinLines t = t := by
  induction t with
  | nil => rfl
  | cons c t ih =>
    rw [joinLines_cons_apart fun hp => h hp.isInfix, ih fun hin => h (List.infix_cons hin)]

theorem joinLines_intercalate {first : Text} {later : List Text}
    (h : ∀ piece ∈ first :: later, ¬ ['\r', '\n'] <:+: piece) :
    joinLines (List.intercalate ['\r', '\n'] (first :: later)) =
      List.intercalate ['\n'] (first :: later) := by
  induction later generalizing first with
  | nil =>
    rw [List.intercalate_singleton, List.intercalate_singleton]
    exact joinLines_of_not_infix (h first List.mem_cons_self)
  | cons next later ih =>
    have hnext := ih fun piece hpiece => h piece (List.mem_cons_of_mem first hpiece)
    rw [List.intercalate_cons_cons, List.intercalate_cons_cons, ← hnext, List.append_assoc,
      List.append_assoc]
    exact joinLines_append (h first List.mem_cons_self) _

/-- A character before the first piece. -/
theorem intercalate_cons_first (between first : Text) (later : List Text) (c : Char) :
    List.intercalate between ((c :: first) :: later) =
      c :: List.intercalate between (first :: later) := by
  cases later with
  | nil => rw [List.intercalate_singleton, List.intercalate_singleton]
  | cons next later => rw [List.intercalate_cons_cons, List.intercalate_cons_cons]; rfl

theorem joined_joinLines (t : Text) : Joined t (joinLines t) := by
  fun_induction joinLines t with
  | case1 => exact ⟨[], [], by simp, rfl, rfl⟩
  | case2 t ih =>
    rcases ih with ⟨first, later, hpieces, htext, hjoined⟩
    refine ⟨[], first :: later, ?_, ?_, ?_⟩
    · intro piece hpiece
      rcases List.mem_cons.mp hpiece with rfl | hpiece
      · simp
      · exact hpieces piece hpiece
    · rw [List.intercalate_cons_cons, ← htext]
      rfl
    · rw [List.intercalate_cons_cons, ← hjoined]
      rfl
  | case3 c t hnot ih =>
    rcases ih with ⟨first, later, hpieces, htext, hjoined⟩
    refine ⟨c :: first, later, ?_, ?_, ?_⟩
    · intro piece hpiece
      rcases List.mem_cons.mp hpiece with rfl | hpiece
      · -- The first piece grows by a character that does not make a line end with what follows.
        intro hin
        rcases List.infix_cons_iff.mp hin with ⟨rest, hrest⟩ | hin
        · rcases List.cons.inj hrest with ⟨rfl, rfl⟩
          exact hnot _ rfl (htext.trans (intercalate_cons_first _ rest later '\n'))
        · exact hpieces first List.mem_cons_self hin
      · exact hpieces piece (List.mem_cons_of_mem first hpiece)
    · rw [intercalate_cons_first, ← htext]
    · rw [intercalate_cons_first, ← hjoined]

/-- A text has one joined form. -/
theorem joined_iff {n : Text} : Joined t n ↔ n = joinLines t := by
  constructor
  · rintro ⟨first, later, hpieces, rfl, rfl⟩
    exact (joinLines_intercalate hpieces).symm
  · rintro rfl
    exact joined_joinLines t

end Text

/-! ## Headers -/

namespace Header

variable {n block rest : Text}

/-- A text with a block between two lines of hyphens, and what follows. -/
def Encloses (n block rest : Text) : Prop :=
  n = "---\n".toList ++ (block ++ ("\n---".toList ++ rest))

/-- The closing line is the first one. -/
def Block (n block rest : Text) : Prop := Encloses n block rest ∧ ¬ "\n---".toList <:+: block

theorem divide?_opening (inside : Text) :
    divide? (opening ++ inside) = Text.cut? closing inside := by
  rw [divide?, if_pos (List.isPrefixOf_iff_prefix.mpr (List.prefix_append ..)), List.drop_left]

theorem divide?_eq_some_iff : divide? n = some (block, rest) ↔ Block n block rest := by
  by_cases hopen : opening <+: n
  · rcases hopen with ⟨inside, rfl⟩
    rw [divide?_opening, closing, Text.cut?_eq_some_iff (by decide)]
    refine and_congr_left fun _ => ?_
    exact (List.append_right_inj opening).symm
  · rw [divide?, if_neg fun hp => hopen (List.isPrefixOf_iff_prefix.mp hp)]
    refine iff_of_false (by simp) ?_
    rintro ⟨henclosed, -⟩
    exact hopen ⟨_, henclosed.symm⟩

theorem isSome_divide?_iff : (divide? n).isSome ↔ ∃ block rest, Encloses n block rest := by
  constructor
  · intro hsome
    rcases Option.isSome_iff_exists.mp hsome with ⟨⟨block, rest⟩, hparts⟩
    exact ⟨block, rest, (divide?_eq_some_iff.mp hparts).1⟩
  · rintro ⟨block, rest, henclosed⟩
    obtain rfl : n = opening ++ (block ++ (closing ++ rest)) := henclosed
    rw [divide?_opening, closing, Text.isSome_cut?_iff]
    exact ⟨block, rest, List.append_assoc ..⟩

theorem split_of_block {t : Text} (h : Block (Text.joinLines t) block rest) :
    split t = (some block, Text.strip rest) := by
  rw [split, divide?_eq_some_iff.mpr h]

/-- A note without carriage returns is taken as it is. -/
theorem joinLines_enclosed (hblock : '\r' ∉ block) (hrest : '\r' ∉ rest) :
    Text.joinLines ("---\n".toList ++ (block ++ ("\n---".toList ++ rest))) =
      "---\n".toList ++ (block ++ ("\n---".toList ++ rest)) := by
  apply Text.joinLines_of_settled
  apply Text.settled_of_notMem
  simp only [List.mem_append, hblock, hrest, or_false, false_or]
  decide

/-- A note is split by its text with joined line ends: it is all body if no block is enclosed in
that text, and otherwise it is split at the one block that holds no closing line. A block that
holds none, with anything behind it, is given back whole. -/
theorem split_at_block (t : Text) :
    (∃ n, (∀ m, Text.Joined t m ↔ m = n) ∧
      (split t = (none, n) ↔ ¬ ∃ block rest, Encloses n block rest) ∧
      ((∃ block rest, Encloses n block rest) →
        ∃ block rest, Block n block rest ∧
          (∀ other behind, Block n other behind → other = block ∧ behind = rest) ∧
          split t = (some block, Text.strip rest))) ∧
    ∀ block rest : Text, '\r' ∉ block → '\r' ∉ rest → ¬ "\n---".toList <:+: block →
      split ("---\n".toList ++ (block ++ ("\n---".toList ++ rest))) =
        (some block, Text.strip rest) := by
  refine ⟨⟨Text.joinLines t, fun m => Text.joined_iff, ?_, ?_⟩, ?_⟩
  · rw [← isSome_divide?_iff, split]
    cases divide? (Text.joinLines t) with
    | none => simp
    | some parts => simp
  · -- Where a block is enclosed there is a first closing line, and only one.
    intro henclosed
    rcases Option.isSome_iff_exists.mp (isSome_divide?_iff.mpr henclosed) with
      ⟨⟨block, rest⟩, hparts⟩
    have hfirst := divide?_eq_some_iff.mp hparts
    refine ⟨block, rest, hfirst, ?_, split_of_block hfirst⟩
    intro other behind hother
    have hsame := hparts.symm.trans (divide?_eq_some_iff.mpr hother)
    cases hsame
    exact ⟨rfl, rfl⟩
  · intro block rest hblock hrest hclosing
    apply split_of_block
    rw [joinLines_enclosed hblock hrest]
    exact ⟨rfl, hclosing⟩

/-- A note whose block is itself a line of hyphens, with line ends of two characters. -/
def hyphenNote : Text := "---\r\n---\r\n---x\r\n".toList

/-- The line end behind the opening hyphens does not close the block, with either kind of line
ends. -/
theorem split_at_block_hyphens :
    (∃ n block rest, Text.Joined hyphenNote n ∧ Encloses n "---".toList "x\n".toList ∧
      Block n block rest ∧ split hyphenNote = (some block, Text.strip rest)) ∧
    ('\r' ∉ "---".toList ∧ '\r' ∉ "x\n".toList ∧ ¬ "\n---".toList <:+: "---".toList) ∧
    split "---\n---\n---x\n".toList = (some "---".toList, "x".toList) := by
  refine ⟨?_, by decide, ?_⟩
  · rcases (split_at_block hyphenNote).1 with ⟨n, hjoined, -, hblock⟩
    have hn : Text.joinLines hyphenNote = n := (hjoined _).mp (Text.joined_joinLines _)
    have henclosed : Encloses n "---".toList "x\n".toList := by
      rw [← hn]
      unfold Encloses
      decide
    rcases hblock ⟨_, _, henclosed⟩ with ⟨block, rest, hfirst, -, hsplit⟩
    exact ⟨n, block, rest, (hjoined n).mpr rfl, henclosed, hfirst, hsplit⟩
  · exact (split_at_block []).2 "---".toList "x\n".toList (by decide) (by decide) (by decide)

end Header

end Notemark
