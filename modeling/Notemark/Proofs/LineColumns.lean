import Mathlib.Data.Set.Function
import Mathlib.Order.Bounds.Basic
import Notemark.Proofs.FaultPlaces

/-!
# Lines and columns

Every offset of a text has a position, and every line and column of the text is the position of one
offset. This module holds

* `BeginsLine`, `LineStart`: the places where lines begin, and the one that belongs to an offset,
* `getElem?_starts`: the line starts of a source map are these places, counted by line feeds,
* `splitOn_eq_map_starts`: the lines of a text are what stands behind them,
* `position_of_lineStart`: a position is a number of line feeds and a distance from a line start,
* `Places`, `Position.Before`: the lines and columns of a text, and their order,
* `positions_correspond`: offsets and places correspond one to one, in order.
-/

namespace Notemark.Body

/-! ## Where lines begin -/

/-- A line begins at the offset: at the start of the text, or just after a line feed. -/
def BeginsLine (t : Text) (s : Nat) : Prop := s = 0 ∨ ∃ n, s = n + 1 ∧ t[n]? = some '\n'

/-- The line of the offset `o` begins at `s`: no line feed stands between the two. -/
structure LineStart (t : Text) (o s : Nat) : Prop where
  le : s ≤ o
  begins : BeginsLine t s
  unbroken : '\n' ∉ (t.drop s).take (o - s)

section LineStart

variable {t : Text} {o s : Nat}

theorem BeginsLine.le_length (h : BeginsLine t s) : s ≤ t.length := by
  rcases h with rfl | ⟨n, rfl, hn⟩
  · exact Nat.zero_le _
  · exact (List.getElem?_eq_some_iff.mp hn).1

/-- A line feed before the offset, at or behind the start, would begin another line. -/
theorem LineStart.isGreatest (h : LineStart t o s) : IsGreatest {s | s ≤ o ∧ BeginsLine t s} s := by
  refine ⟨⟨h.le, h.begins⟩, ?_⟩
  rintro s' ⟨hle, hbegins⟩
  by_contra hlt
  rcases hbegins with rfl | ⟨n, rfl, hn⟩
  · exact hlt (Nat.zero_le s)
  · apply h.unbroken
    have hget : ((t.drop s).take (o - s))[n - s]? = some '\n' := by
      rw [List.getElem?_take_of_lt (by omega), List.getElem?_drop, show s + (n - s) = n by omega]
      exact hn
    exact List.mem_of_getElem? hget

/-- Going on by a character stays on the line, unless the character ends it. -/
theorem exists_lineStart (t : Text) (o : Nat) : ∃ s, LineStart t o s := by
  induction o with
  | zero => exact ⟨0, Nat.le_refl 0, Or.inl rfl, by simp⟩
  | succ o ih =>
    rcases ih with ⟨s, hle, hbegins, hunbroken⟩
    by_cases hnewline : t[o]? = some '\n'
    · exact ⟨o + 1, Nat.le_refl _, Or.inr ⟨o, rfl, hnewline⟩, by simp⟩
    · refine ⟨s, Nat.le_succ_of_le hle, hbegins, ?_⟩
      rw [Nat.succ_sub hle, List.take_add_one, List.getElem?_drop,
        show s + (o - s) = o by omega]
      simpa [hunbroken] using hnewline

end LineStart

/-! ## The table of line starts -/

theorem startsAfter_succ (base : Nat) (t : Text) :
    SourceMap.startsAfter (base + 1) t = (SourceMap.startsAfter base t).map (· + 1) := by
  induction t generalizing base with
  | nil => rfl
  | cons c cs ih =>
    unfold SourceMap.startsAfter
    split
    · rw [ih, List.map_cons]
    · exact ih _

theorem starts_newline (t : Text) :
    (SourceMap.ofText ('\n' :: t)).starts = 0 :: (SourceMap.ofText t).starts.map (· + 1) := by
  simp [SourceMap.ofText, SourceMap.startsAfter, startsAfter_succ]

theorem starts_other {c : Char} (hc : c ≠ '\n') (t : Text) :
    (SourceMap.ofText (c :: t)).starts = 0 :: (SourceMap.ofText t).starts.tail.map (· + 1) := by
  simp [SourceMap.ofText, SourceMap.startsAfter, startsAfter_succ, hc]

theorem head_starts (t : Text) :
    (SourceMap.ofText t).starts = 0 :: (SourceMap.ofText t).starts.tail := rfl

theorem getElem?_startsAfter {base i s : Nat} {t : Text} :
    (SourceMap.startsAfter base t)[i]? = some s ↔
      ∃ n, s = base + n + 1 ∧ t[n]? = some '\n' ∧ (t.take n).count '\n' = i := by
  induction t generalizing base i with
  | nil => simp [SourceMap.startsAfter]
  | cons c cs ih =>
    unfold SourceMap.startsAfter
    by_cases hc : c = '\n'
    · rw [if_pos hc]
      cases i with
      | zero =>
        constructor
        · intro h
          exact ⟨0, by simpa using h.symm, by simp [hc], rfl⟩
        · rintro ⟨n, rfl, -, hcount⟩
          cases n with
          | zero => rfl
          | succ n => simp [hc] at hcount
      | succ i =>
        rw [List.getElem?_cons_succ, ih]
        constructor
        · rintro ⟨n, rfl, hn, rfl⟩
          exact ⟨n + 1, by omega, hn, by simp [hc]⟩
        · rintro ⟨n, rfl, hn, hcount⟩
          cases n with
          | zero => simp at hcount
          | succ n => exact ⟨n, by omega, hn, by simpa [hc] using hcount⟩
    · rw [if_neg hc, ih]
      constructor
      · rintro ⟨n, rfl, hn, rfl⟩
        exact ⟨n + 1, by omega, hn, by simp [hc]⟩
      · rintro ⟨n, rfl, hn, rfl⟩
        cases n with
        | zero => simp [hc] at hn
        | succ n => exact ⟨n, by omega, hn, by simp [hc]⟩

/-- An entry of the table is the start of a line, numbered by the line feeds before it. -/
theorem getElem?_starts {t : Text} {i s : Nat} :
    (SourceMap.ofText t).starts[i]? = some s ↔ BeginsLine t s ∧ (t.take s).count '\n' = i := by
  have hcount : ∀ n, t[n]? = some '\n' →
      (t.take (n + 1)).count '\n' = (t.take n).count '\n' + 1 := by
    intro n hn
    simp [List.take_add_one, hn]
  cases i with
  | zero =>
    have hzero : (SourceMap.ofText t).starts[0]? = some 0 := rfl
    rw [hzero, Option.some.injEq]
    constructor
    · rintro rfl
      exact ⟨Or.inl rfl, rfl⟩
    · rintro ⟨rfl | ⟨n, rfl, hn⟩, hnone⟩
      · rfl
      · simp [hcount n hn] at hnone
  | succ i =>
    have hsucc : (SourceMap.ofText t).starts[i + 1]? = (SourceMap.startsAfter 0 t)[i]? := rfl
    rw [hsucc, getElem?_startsAfter]
    constructor
    · rintro ⟨n, rfl, hn, rfl⟩
      rw [Nat.zero_add]
      exact ⟨Or.inr ⟨n, rfl, hn⟩, hcount n hn⟩
    · rintro ⟨rfl | ⟨n, rfl, hn⟩, hi⟩
      · simp at hi
      · refine ⟨n, by omega, hn, ?_⟩
        rw [hcount n hn] at hi
        omega

/-- The lines of a text are what stands behind the line starts. -/
theorem splitOn_eq_map_starts (t : Text) :
    Text.splitOn '\n' t = (SourceMap.ofText t).starts.map fun s => Text.line (t.drop s) := by
  induction t with
  | nil => rfl
  | cons c cs ih =>
    by_cases hc : c = '\n'
    · subst hc
      rw [starts_newline, Text.splitOn, if_pos rfl, ih]
      simp [Text.line, Function.comp_def]
    · rw [starts_other hc, Text.splitOn, if_neg hc, ih, head_starts]
      simp [Text.line, hc, Function.comp_def]

/-! ## Positions -/

section Position

variable {t : Text} {o s : Nat}

/-- Behind the start of a line and a piece of the line, the column counts the piece. -/
theorem lineColumn_unbroken {before piece : Text}
    (hbefore : ∀ c, before.getLast? = some c → c = '\n') (hpiece : '\n' ∉ piece) :
    lineColumn (before ++ piece) = ⟨before.count '\n' + 1, piece.length + 1⟩ := by
  have hstop : before.reverse.takeWhile (· != '\n') = [] := by
    cases hlast : before.reverse with
    | nil => rfl
    | cons c cs =>
      have hc : c = '\n' := hbefore c (by rw [← List.head?_reverse, hlast, List.head?_cons])
      simp [hc]
  have hall : ∀ c ∈ piece.reverse, (c != '\n') = true := by
    intro c hc
    simp only [bne_iff_ne, ne_eq]
    rintro rfl
    exact hpiece (List.mem_reverse.mp hc)
  unfold lineColumn
  rw [List.reverse_append, List.takeWhile_append_of_pos hall, hstop, List.append_nil,
    List.length_reverse, List.count_append, List.count_eq_zero.mpr hpiece, Nat.add_zero]

theorem BeginsLine.getLast?_take (h : BeginsLine t s) {c : Char}
    (hc : (t.take s).getLast? = some c) : c = '\n' := by
  rcases h with rfl | ⟨n, rfl, hn⟩
  · simp at hc
  · rw [List.take_add_one, hn, Option.toList_some, List.getLast?_concat] at hc
    exact (Option.some.inj hc).symm

/-- The line feeds before an offset all stand before the start of its line. -/
theorem LineStart.count_take (h : LineStart t o s) :
    (t.take o).count '\n' = (t.take s).count '\n' := by
  rw [← Nat.add_sub_of_le h.le, List.take_add, List.count_append,
    List.count_eq_zero.mpr h.unbroken, Nat.add_zero]

/-- The line of a position counts line feeds, and its column counts from the start of the line. -/
theorem position_of_lineStart (ho : o ≤ t.length) (h : LineStart t o s) :
    (SourceMap.ofText t).position o = ⟨(t.take o).count '\n' + 1, o - s + 1⟩ := by
  have hsplit : t.take o = t.take s ++ (t.drop s).take (o - s) := by
    rw [← List.take_add, Nat.add_sub_of_le h.le]
  have hlength : ((t.drop s).take (o - s)).length = o - s := by
    rw [List.length_take, List.length_drop]
    omega
  rw [position_ofText ho, h.count_take, hsplit,
    lineColumn_unbroken (fun _ => h.begins.getLast?_take) h.unbroken, hlength]

/-- The table leads from a position back to the offset. -/
theorem starts_of_lineStart (ho : o ≤ t.length) (h : LineStart t o s) :
    (SourceMap.ofText t).starts[((SourceMap.ofText t).position o).line - 1]? = some s := by
  rw [position_of_lineStart ho h, getElem?_starts]
  exact ⟨h.begins, h.count_take.symm⟩

end Position

/-! ## Lines and columns of a text -/

/-- The lines of a text, and on each of them a column for every character and one for its end. -/
def Places (t : Text) : Set Position :=
  {p | (1 ≤ p.line ∧ p.line ≤ (Text.splitOn '\n' t).length) ∧
    1 ≤ p.column ∧ p.column ≤ ((Text.splitOn '\n' t).getD (p.line - 1) []).length + 1}

/-- Line by line, and from left to right on a line. -/
def Position.Before (p q : Position) : Prop :=
  p.line < q.line ∨ p.line = q.line ∧ p.column < q.column

section Places

variable {t : Text} {o o' : Nat}

/-- The line with a number is what stands behind its start. -/
theorem line_of_starts {i s : Nat} (h : (SourceMap.ofText t).starts[i]? = some s) :
    (Text.splitOn '\n' t)[i]? = some (Text.line (t.drop s)) := by
  rw [splitOn_eq_map_starts, List.getElem?_map, h, Option.map_some]

theorem length_starts (t : Text) :
    (SourceMap.ofText t).starts.length = (Text.splitOn '\n' t).length := by
  rw [splitOn_eq_map_starts, List.length_map]

/-- A piece without line feeds at the beginning of a text is a piece of its first line. -/
theorem unbroken_iff {n : Nat} (hn : n ≤ t.length) :
    '\n' ∉ t.take n ↔ n ≤ (Text.line t).length := by
  induction t generalizing n with
  | nil => simpa [Text.line] using hn
  | cons c cs ih =>
    cases n with
    | zero => simp
    | succ n =>
      by_cases hc : c = '\n'
      · simp [Text.line, hc]
      · have hcs := ih (Nat.le_of_succ_le_succ hn)
        simp only [Text.line] at hcs
        simp [Text.line, hc, Ne.symm hc, hcs]

theorem position_mapsTo (t : Text) :
    Set.MapsTo (SourceMap.ofText t).position {o | o ≤ t.length} (Places t) := by
  intro o ho
  rcases exists_lineStart t o with ⟨s, hs⟩
  have hline := line_of_starts (starts_of_lineStart ho hs)
  have hlength : o - s ≤ (t.drop s).length := by
    rw [List.length_drop]
    exact Nat.sub_le_sub_right ho s
  rw [position_of_lineStart ho hs] at hline ⊢
  have hnumber := (List.getElem?_eq_some_iff.mp hline).1
  refine ⟨⟨Nat.succ_pos _, Nat.succ_le_of_lt hnumber⟩, Nat.succ_pos _, ?_⟩
  rw [List.getD_eq_getElem?_getD, hline, Option.getD_some]
  exact Nat.succ_le_succ ((unbroken_iff hlength).mp hs.unbroken)

theorem position_surjOn (t : Text) :
    Set.SurjOn (SourceMap.ofText t).position {o | o ≤ t.length} (Places t) := by
  rintro ⟨line, column⟩ ⟨⟨hline, hlines⟩, hcolumn, hcolumns⟩
  dsimp only at hline hlines hcolumn hcolumns
  have hlt : line - 1 < (SourceMap.ofText t).starts.length := by
    rw [length_starts]
    omega
  have hs := List.getElem?_eq_getElem hlt
  generalize (SourceMap.ofText t).starts[line - 1] = s at hs
  rcases getElem?_starts.mp hs with ⟨hbegins, hcount⟩
  rw [List.getD_eq_getElem?_getD, line_of_starts hs, Option.getD_some] at hcolumns
  -- The offset lies as far behind the start as the column says, which is not beyond the line.
  have hcolumn' : column - 1 ≤ (Text.line (t.drop s)).length := by omega
  have hrest : column - 1 ≤ (t.drop s).length :=
    Nat.le_trans hcolumn' (List.takeWhile_prefix _).length_le
  have ho : s + (column - 1) ≤ t.length := by
    have hle := hbegins.le_length
    rw [List.length_drop] at hrest
    omega
  have hstart : LineStart t (s + (column - 1)) s := by
    refine ⟨Nat.le_add_right _ _, hbegins, ?_⟩
    rw [Nat.add_sub_cancel_left]
    exact (unbroken_iff hrest).mpr hcolumn'
  refine ⟨s + (column - 1), ho, ?_⟩
  rw [position_of_lineStart ho hstart, hstart.count_take, hcount, Position.mk.injEq]
  omega

/-- A later offset has more line feeds before it, or stands on the same line farther to the
right. -/
theorem position_before (ho : o ≤ t.length) (ho' : o' ≤ t.length) (h : o < o') :
    ((SourceMap.ofText t).position o).Before ((SourceMap.ofText t).position o') := by
  rcases exists_lineStart t o with ⟨s, hs⟩
  rcases exists_lineStart t o' with ⟨s', hs'⟩
  have hle : (t.take o).count '\n' ≤ (t.take o').count '\n' :=
    (List.take_sublist_take_left h.le).count_le '\n'
  rw [position_of_lineStart ho hs, position_of_lineStart ho' hs']
  rcases Nat.lt_or_eq_of_le hle with hlt | heq
  · exact Or.inl (Nat.succ_lt_succ hlt)
  · -- Lines with the same number have the same start.
    have hsame : s = s' := by
      have hstart := getElem?_starts.mpr ⟨hs.begins, rfl⟩
      have hstart' := getElem?_starts.mpr ⟨hs'.begins, rfl⟩
      rw [← hs'.count_take, ← heq, hs.count_take, hstart] at hstart'
      exact Option.some.inj hstart'
    have hle' := hs.le
    exact Or.inr ⟨congrArg (· + 1) heq, by dsimp only; omega⟩

theorem Position.Before.asymm {p q : Position} (h : p.Before q) : ¬ q.Before p := by
  unfold Position.Before at h ⊢
  omega

theorem position_before_iff (ho : o ≤ t.length) (ho' : o' ≤ t.length) :
    o < o' ↔ ((SourceMap.ofText t).position o).Before ((SourceMap.ofText t).position o') := by
  refine ⟨position_before ho ho', fun h => ?_⟩
  rcases Nat.lt_trichotomy o o' with hlt | rfl | hgt
  · exact hlt
  · exact absurd h h.asymm
  · exact absurd (position_before ho' ho hgt) h.asymm

theorem position_injOn (t : Text) :
    Set.InjOn (SourceMap.ofText t).position {o | o ≤ t.length} := by
  intro o ho o' ho' heq
  have hiff := position_before_iff ho ho'
  have hiff' := position_before_iff ho' ho
  rw [heq] at hiff hiff'
  unfold Position.Before at hiff hiff'
  omega

end Places

/-- The positions of a text. The line of an offset is one more than there are line feeds before it,
and its column counts from the offset just after the last of them, which the table of line starts
gives back. The offsets of a text, its end included, and the lines and columns of the text
correspond one to one, and their orders agree. -/
theorem positions_correspond (t : Text) :
    let map := SourceMap.ofText t
    (∀ o ≤ t.length, ∃ start, IsGreatest {s | s ≤ o ∧ BeginsLine t s} start ∧
      map.position o = ⟨1 + (t.take o).count '\n', o - start + 1⟩ ∧
      map.starts[(map.position o).line - 1]? = some start ∧
      start + (map.position o).column - 1 = o) ∧
    Set.BijOn map.position {o | o ≤ t.length} (Places t) ∧
    ∀ o ≤ t.length, ∀ o' ≤ t.length, o < o' ↔ (map.position o).Before (map.position o') := by
  intro map
  refine ⟨?_, ⟨position_mapsTo t, position_injOn t, position_surjOn t⟩,
    fun o ho o' ho' => position_before_iff ho ho'⟩
  intro o ho
  rcases exists_lineStart t o with ⟨s, hs⟩
  have hposition : map.position o = _ := position_of_lineStart ho hs
  refine ⟨s, hs.isGreatest, ?_, starts_of_lineStart ho hs, ?_⟩
  · rw [hposition, Nat.add_comm]
  · have hle := hs.le
    rw [hposition]
    dsimp only
    omega

/-- The end of a text with an empty line and an empty last one. -/
theorem positions_correspond_end :
    let map := SourceMap.ofText "ab\n\nc\n".toList
    (∃ start, IsGreatest {s | s ≤ 6 ∧ BeginsLine "ab\n\nc\n".toList s} start ∧
      start + (map.position 6).column - 1 = 6) ∧ map.position 6 = ⟨4, 1⟩ := by
  rcases (positions_correspond "ab\n\nc\n".toList).1 6 (by decide) with ⟨start, hstart, -, -, hback⟩
  exact ⟨⟨start, hstart, hback⟩, by decide⟩

end Notemark.Body
