import Mathlib.Order.Bounds.Basic
import Notemark.Proofs.Exchanges
import Notemark.Proofs.FaultPlaces
import Notemark.Proofs.Lines

/-!
# References and their braces

The braces of a variable reference are matched twice. The scanner pairs the braces of the line and
looks the closing one up; strict mode counts a depth over the piece that the scanner has cut out.
This module holds

* `Levels`: the running depth of braces is back at zero, on the first line of a text,
* `isLeast_of_braceDistance`, `not_levels_of_braceDistance`: the scanner finds the first such place,
* `braceDepth_pos_of_braceDistance`: without one, the other count stays above zero,
* `Scan.round_closed`, `Scan.round_open`: a round that meets a reference,
* `references_judged`: both matchers agree about every reference of a strict run.
-/

namespace Notemark.Body

/-! ## Depth zero -/

/-- Behind the character at the distance, braces that were open `depth` times before the text are
closed, and no line feed stands on the way. -/
def Levels (depth : Nat) (t : Text) (n : Nat) : Prop :=
  n < t.length ∧ '\n' ∉ t.take (n + 1) ∧
    (t.take (n + 1)).count '{' + depth = (t.take (n + 1)).count '}'

section Levels

variable {depth n : Nat} {c : Char} {t cs : Text}

theorem levels_zero :
    Levels depth (c :: cs) 0 ↔ c ≠ '\n' ∧ [c].count '{' + depth = [c].count '}' := by
  simp [Levels, eq_comm]

/-- One character less at the beginning, with the depth that it leaves. -/
theorem levels_succ {depth' : Nat} (hdepth : [c].count '}' + depth' = [c].count '{' + depth) :
    Levels depth (c :: cs) (n + 1) ↔ c ≠ '\n' ∧ Levels depth' cs n := by
  have hcount : (cs.take (n + 1)).count '{' + depth' = (cs.take (n + 1)).count '}' ↔
      (c :: cs.take (n + 1)).count '{' + depth = (c :: cs.take (n + 1)).count '}' := by
    rw [count_cons_split c '{', count_cons_split c '}']
    omega
  simp only [Levels, List.take_succ_cons, List.length_cons, Nat.add_lt_add_iff_right,
    List.mem_cons, not_or, ← hcount]
  tauto

/-- The search finds the first place where the depth is zero. -/
theorem isLeast_of_braceDistance (h : braceDistance (depth + 1) t = some n) :
    IsLeast {m | Levels (depth + 1) t m} n := by
  have hcloses := closes_of_braceDistance h
  have hlt := braceDistance_lt_length h
  refine ⟨⟨hlt, hcloses.line, hcloses.balanced.symm⟩, ?_⟩
  rintro m ⟨hm, -, hlevel⟩
  by_contra hless
  -- A piece that ends earlier has fewer closing braces than it needs.
  have hsplit : t.take (n + 1) = t.take (m + 1) ++ (t.drop (m + 1)).take (n - m) := by
    rw [← List.take_add]
    congr 1
    omega
  have hrest : (t.drop (m + 1)).take (n - m) ≠ [] := by
    apply List.ne_nil_of_length_pos
    rw [List.length_take, List.length_drop]
    omega
  have hnested := hcloses.nested _ _ hsplit hrest
  omega

/-- A search that finds nothing goes on behind the first character, from the depth that this
leaves. -/
theorem braceDistance_cons_eq_none (hc : c ≠ '\n') (h : braceDistance (depth + 1) (c :: cs) = none) :
    ∃ depth', [c].count '}' + (depth' + 1) = [c].count '{' + (depth + 1) ∧
      braceDistance (depth' + 1) cs = none := by
  rw [braceDistance, if_neg hc] at h
  by_cases hopen : c = '{'
  · rw [if_pos hopen, Option.map_eq_none_iff] at h
    exact ⟨depth + 1, by simp [hopen]; omega, h⟩
  · rw [if_neg hopen] at h
    by_cases hclose : c = '}'
    · rw [if_pos hclose] at h
      by_cases hlast : depth + 1 ≤ 1
      · simp [hlast] at h
      · rw [if_neg hlast, Option.map_eq_none_iff] at h
        obtain ⟨d, rfl⟩ : ∃ d, depth = d + 1 := ⟨depth - 1, by omega⟩
        exact ⟨d, by simp [hclose]; omega, h⟩
    · rw [if_neg hclose, Option.map_eq_none_iff] at h
      exact ⟨depth, by simp [hopen, hclose], h⟩

/-- If the search finds nothing, the depth never comes back to zero. -/
theorem not_levels_of_braceDistance (h : braceDistance (depth + 1) t = none) (n : Nat) :
    ¬ Levels (depth + 1) t n := by
  induction t generalizing depth n with
  | nil => simp [Levels]
  | cons c cs ih =>
    by_cases hc : c = '\n'
    · rintro ⟨-, hline, -⟩
      simp [hc] at hline
    · rcases braceDistance_cons_eq_none hc h with ⟨depth', hdepth, hrest⟩
      cases n with
      | zero =>
        rw [levels_zero]
        omega
      | succ n =>
        rw [levels_succ hdepth]
        exact fun hlevels => ih hrest n hlevels.2

theorem braceDepth_cons {depth' : Nat} (hdepth : [c].count '}' + depth' = [c].count '{' + depth) :
    braceDepth (depth : Int) (c :: cs) = braceDepth (depth' : Int) cs := by
  have hchange : (if c = '{' then (depth : Int) + 1 else if c = '}' then (depth : Int) - 1
      else (depth : Int)) = depth' := by
    by_cases hopen : c = '{'
    · simp [hopen] at hdepth ⊢
      omega
    · by_cases hclose : c = '}'
      · simp [hclose] at hdepth ⊢
        omega
      · simp [hopen, hclose] at hdepth ⊢
        omega
  have hnot : ¬ (depth' : Int) < 0 := by omega
  simp only [braceDepth, hchange, if_neg hnot]

/-- As long as the search finds nothing, the other count goes along above zero. -/
theorem braceDepth_pos_of_braceDistance (hline : '\n' ∉ t)
    (h : braceDistance (depth + 1) t = none) : 0 < braceDepth ((depth + 1 : Nat) : Int) t := by
  induction t generalizing depth with
  | nil => simp [braceDepth]
  | cons c cs ih =>
    rw [List.mem_cons, not_or] at hline
    rcases braceDistance_cons_eq_none (Ne.symm hline.1) h with ⟨depth', hdepth, hrest⟩
    rw [braceDepth_cons hdepth]
    exact ih hline.2 hrest

end Levels

/-! ## What stands at a reference -/

section Reference

variable {k : Cursor} {t : Text} {size : Nat}

/-- No marker begins as a reference does. -/
theorem readAt_reference (k : Cursor) (h : isReference t = true) :
    readAt k t = readReference k t := by
  rcases cons_of_isReference h with ⟨c, u, rfl, -⟩
  have hheads : ∀ head ∈ referenceHeads, ∀ v, (head ++ v).head? ≠ some '[' ∧
      (head ++ v).head? ≠ some '#' ∧ (head ++ v).head? ≠ some 'c' := by
    simp [referenceHeads]
  have hhead : (c :: u).head? ≠ some '[' ∧ (c :: u).head? ≠ some '#' ∧
      (c :: u).head? ≠ some 'c' := by
    rcases List.any_eq_true.mp h with ⟨head, hhead, hprefix⟩
    rcases List.isPrefixOf_iff_prefix.mp hprefix with ⟨v, hv⟩
    exact hv ▸ hheads head hhead v
  have hstyle : ¬ styleHead.isPrefixOf ('{' :: c :: u) = true := by
    intro hprefix
    rcases List.isPrefixOf_iff_prefix.mp hprefix with ⟨v, hv⟩
    exact hhead.2.2 (by rw [← (List.cons.inj hv).2]; rfl)
  rw [readAt_cons k (by decide) hhead.1, if_neg (by decide), if_neg (by decide), if_pos rfl,
    if_neg hhead.2.1, if_neg hstyle, if_pos h]

theorem getElem?_braceDistance {depth : Nat} (h : braceDistance depth t = some size) :
    t[size]? = some '}' := by
  induction t generalizing depth size with
  | nil => simp [braceDistance] at h
  | cons c cs ih =>
    have hlater : ∀ {d : Nat}, (braceDistance d cs).map (· + 1) = some size →
        (c :: cs)[size]? = some '}' := by
      intro d hd
      rcases Option.map_eq_some_iff.mp hd with ⟨n, hn, rfl⟩
      rw [List.getElem?_cons_succ]
      exact ih hn
    unfold braceDistance at h
    split at h
    · simp at h
    · split at h
      · exact hlater h
      · split at h
        · next hclose =>
          split at h
          · rw [← Option.some.inj h, hclose]
            rfl
          · exact hlater h
        · exact hlater h

/-- The first brace of a reference is open behind it. -/
theorem levels_open {n : Nat} : Levels 0 ('{' :: t) n ↔ ∃ m, n = m + 1 ∧ Levels 1 t m := by
  cases n with
  | zero => simp [levels_zero]
  | succ n =>
    have hdepth : ['{'].count '}' + 1 = ['{'].count '{' + 0 := by decide
    simp [levels_succ hdepth]

/-- The brace that the scanner finds is the one where the depth first comes back to zero, and it
finds none only if there is none. -/
theorem braceDistance_cases (h : isReference t = true) :
    (∃ size, braceDistance 0 t = some size ∧ t[size]? = some '}' ∧
      IsLeast {m | Levels 0 t m} size) ∨
    (braceDistance 0 t = none ∧ ∀ m, ¬ Levels 0 t m) := by
  rcases cons_of_isReference h with ⟨c, u, rfl, -⟩
  have hopen : braceDistance 0 ('{' :: c :: u) = (braceDistance 1 (c :: u)).map (· + 1) := rfl
  cases hsize : braceDistance 1 (c :: u) with
  | some n =>
    rw [hsize, Option.map_some] at hopen
    rcases isLeast_of_braceDistance hsize with ⟨hlevels, hleast⟩
    refine Or.inl ⟨n + 1, hopen, getElem?_braceDistance hopen, levels_open.mpr ⟨n, rfl, hlevels⟩, ?_⟩
    intro m hm
    rcases levels_open.mp hm with ⟨i, rfl, hi⟩
    exact Nat.succ_le_succ (hleast hi)
  | none =>
    rw [hsize, Option.map_none] at hopen
    refine Or.inr ⟨hopen, fun m hm => ?_⟩
    rcases levels_open.mp hm with ⟨i, rfl, hi⟩
    exact not_levels_of_braceDistance hsize i hi

/-- The rest of the line is refused for its braces if the first one is not closed there. -/
theorem check_reference_open (h : isReference t = true) (hnone : braceDistance 0 t = none) :
    Check.reference (t.take (Text.lineLength t)) =
      .error (.unbalancedReference (t.take (Text.lineLength t))) := by
  rw [← braceDistance_take_line] at hnone
  have hline := Memo.newline_notMem_line t
  rcases cons_of_isReference h with ⟨c, u, rfl, hblank, hbrace⟩
  have hnewline : c ≠ '\n' := by
    rintro rfl
    simp [Text.isBlank_newline] at hblank
  rw [lineLength_cons (by decide), lineLength_cons hnewline, List.take_succ_cons,
    List.take_succ_cons] at hnone hline ⊢
  rw [check_reference_eq rfl hblank hbrace, if_pos]
  have hopen : braceDistance 1 (c :: u.take (Text.lineLength u)) = none :=
    Option.map_eq_none_iff.mp hnone
  rw [List.mem_cons, not_or] at hline
  have hpos := braceDepth_pos_of_braceDistance hline.2 hopen
  have hfirst : braceDepth ((0 : Nat) : Int) ('{' :: c :: u.take (Text.lineLength u)) =
      braceDepth ((0 + 1 : Nat) : Int) (c :: u.take (Text.lineLength u)) :=
    braceDepth_cons (by decide)
  exact fun hzero => absurd (hfirst.symm.trans hzero) (Int.ne_of_gt hpos)

end Reference

/-! ## Rounds that meet a reference -/

namespace Scan

variable {content : Text} {s s' : Scan} {mode : Mode} {map : SourceMap} {size : Nat}

/-- A reference that is closed on its line becomes a token. -/
theorem round_closed (hs : s.Sound content) (h : isReference s.rest = true)
    (hsize : braceDistance 0 s.rest = some size) :
    ∃ s', s.round .strict map = .ok s' ∧
      s'.tokens = s.tokens ++ (flush s.pending ++ [.reference (s.rest.take (size + 1))]) ∧
      s'.pending = [] ∧ s'.rest = s.rest.drop (size + 1) := by
  have hread : readAt s.cursor s.rest = .reference (s.rest.take (size + 1)) := by
    rw [readAt_reference s.cursor h, readReference, hsize]
  have hcheck : Check.reference (s.rest.take (size + 1)) = .ok () :=
    check_reference_closed ⟨h, size, hsize, rfl⟩
  have hjudge : judge .strict map s.stack ⟨s.cursor.offset, readAt s.cursor s.rest⟩ =
      .ok s.stack := by
    rw [hread]
    simp only [judge, reviewStep, Placed.check, hcheck]
    rfl
  refine ⟨s.past .strict map s.stack, ?_, ?_, ?_, ?_⟩
  · rw [round_eq hs, hjudge]
    rfl
  · rw [tokens_past, hread]
    rfl
  · rw [pending_past, hread]
    rfl
  · have hlt := braceDistance_lt_length hsize
    have hspan : (readAt s.cursor s.rest).span.length = size + 1 := by
      rw [hread, Reading.span, List.length_take]
      omega
    rw [past, pass, hspan]

/-- A reference that is not closed on its line ends the run. -/
theorem round_open (hs : s.Sound content) (h : isReference s.rest = true)
    (hnone : braceDistance 0 s.rest = none) :
    s.round .strict map = .error ⟨.unbalancedReference (s.rest.take (Text.lineLength s.rest)),
      map.position s.cursor.offset⟩ := by
  have hcheck := check_reference_open h hnone
  rw [round_eq hs, readAt_reference s.cursor h, readReference, hnone]
  simp only [judge, reviewStep, plain, Placed.check, checkBreach, hcheck]
  rfl

theorem rounds_of_rest_nil (h : s.rest = []) (n : Nat) : s.rounds mode map n = .ok s := by
  cases n with
  | zero => rfl
  | succ n => rw [rounds, if_pos h]

theorem rounds_add (n m : Nat) :
    s.rounds mode map (n + m) = s.rounds mode map n >>= rounds mode map m := by
  induction n generalizing s with
  | zero => rw [Nat.zero_add]; rfl
  | succ n ih =>
    rw [Nat.add_right_comm, rounds, rounds]
    by_cases hrest : s.rest = []
    · rw [if_pos hrest, if_pos hrest]
      exact (rounds_of_rest_nil hrest m).symm
    · rw [if_neg hrest, if_neg hrest]
      cases s.round mode map with
      | error e => rfl
      | ok next => exact ih

/-- A round that fails, in a state that a run comes to, is the end of the whole body. -/
theorem tokenize_of_round {body : Text} {n : Nat} {e : ScanError}
    (hrounds : (start (Text.joinLines body)).rounds mode
      (SourceMap.ofText (Text.joinLines body)) n = .ok s) (hrest : s.rest ≠ [])
    (hround : s.round mode (SourceMap.ofText (Text.joinLines body)) = .error e) :
    tokenize mode body = .error e := by
  have hsound := sound_start (Text.joinLines body)
  have hmore : (Text.joinLines body).length ≤ n + ((Text.joinLines body).length + 1) := by omega
  have hall : (start (Text.joinLines body)).rounds mode (SourceMap.ofText (Text.joinLines body))
      (Text.joinLines body).length >>= finish mode = _ := rounds_finish hsound (Nat.le_refl _)
  rw [tokenize_eq_rounds, hall, ← rounds_finish hsound hmore, rounds_add, hrounds]
  have hstep : s.rounds mode (SourceMap.ofText (Text.joinLines body))
      ((Text.joinLines body).length + 1) = .error e := by
    rw [rounds, if_neg hrest, hround]
    rfl
  change (s.rounds mode _ _ >>= finish mode) = _
  rw [hstep]
  rfl

end Scan

/-- Both matchers agree about every reference that a strict run comes to. If the depth of braces
from its first one comes back to zero on the line, the scanner finds the first such brace, whatever
it remembers, the piece up to there passes, and the round emits it as one token. If not, the scanner
finds nothing, the rest of the line is refused for its braces, and the run ends with that fault at
the first brace. -/
theorem references_judged (body : Text) (n : Nat) (s : Scan) :
    let content := Text.joinLines body
    let map := SourceMap.ofText content
    let found := ((Lookahead.braceAhead s.cursor.offset s.rest : Memoised (Option Nat)).run s.memo).1
    (Scan.start content).rounds .strict map n = .ok s → isReference s.rest = true →
    (∃ size, IsLeast {m | Levels 0 s.rest m} size ∧ s.rest[size]? = some '}' ∧ found = some size ∧
      Check.reference (s.rest.take (size + 1)) = .ok () ∧
      ∃ s', s.round .strict map = .ok s' ∧
        s'.tokens = s.tokens ++ (flush s.pending ++ [.reference (s.rest.take (size + 1))]) ∧
        s'.pending = [] ∧ s'.rest = s.rest.drop (size + 1)) ∨
    (∀ m, ¬ Levels 0 s.rest m) ∧ found = none ∧
      ∃ e, e = ⟨.unbalancedReference (s.rest.take (Text.lineLength s.rest)),
          map.position s.cursor.offset⟩ ∧ e.fault.code = .unbalancedBraces ∧
        Check.reference (s.rest.take (Text.lineLength s.rest)) = .error e.fault ∧
        s.round .strict map = .error e ∧ tokenize .strict body = .error e := by
  intro content map found hrounds href
  have hs : s.Sound content := Scan.sound_of_rounds (Scan.sound_start content) hrounds
  have hhead : s.rest ≠ [] ∧ content[s.cursor.offset]? = some '{' := by
    rcases cons_of_isReference href with ⟨c, u, hcons, -⟩
    refine ⟨by simp [hcons], ?_⟩
    rw [← List.head?_drop, ← hs.rest, hcons, List.head?_cons]
  have hfound : found = braceDistance 0 s.rest :=
    (agrees_braceAhead hs.rest hhead.2 s.memo hs.memo).1
  rcases braceDistance_cases href with ⟨size, hsize, hclose, hleast⟩ | ⟨hnone, hlevels⟩
  · refine Or.inl ⟨size, hleast, hclose, hfound.trans hsize, ?_, Scan.round_closed hs href hsize⟩
    exact check_reference_closed ⟨href, size, hsize, rfl⟩
  · have hround : s.round .strict map = _ := Scan.round_open hs href hnone
    exact Or.inr ⟨hlevels, hfound.trans hnone, _, rfl, rfl, check_reference_open href hnone, hround,
      Scan.tokenize_of_round hrounds hhead.1 hround⟩

/-- The second reference of a line, whose braces were paired when the first was read, has a nested
brace and no end. -/
theorem references_judged_nested :
    let body := ['{', '$', 'a', '}', '{', '$', 'b', ' ', '{', 'c', '}']
    ∃ s, (Scan.start body).rounds .strict (SourceMap.ofText body) 1 = .ok s ∧
      isReference s.rest = true ∧ (∀ m, ¬ Levels 0 s.rest m) ∧
      tokenize .strict body =
        .error ⟨.unbalancedReference ['{', '$', 'b', ' ', '{', 'c', '}'], ⟨1, 5⟩⟩ := by
  intro body
  obtain ⟨s, hrounds, hrest, hoffset, hnone⟩ : ∃ s,
      (Scan.start body).rounds .strict (SourceMap.ofText body) 1 = .ok s ∧
      s.rest = ['{', '$', 'b', ' ', '{', 'c', '}'] ∧ s.cursor.offset = 4 ∧
      ((Lookahead.braceAhead s.cursor.offset s.rest : Memoised (Option Nat)).run s.memo).1 = none :=
    ⟨_, rfl, rfl, rfl, rfl⟩
  have href : isReference s.rest = true := by
    rw [hrest]
    decide
  refine ⟨s, hrounds, href, ?_⟩
  rcases references_judged body 1 s hrounds href with
    ⟨size, -, -, hfound, -⟩ | ⟨hlevels, -, e, rfl, -, -, -, htokenize⟩
  · simp [hnone] at hfound
  · refine ⟨hlevels, htokenize.trans ?_⟩
    rw [hrest, hoffset]
    rfl

end Notemark.Body
