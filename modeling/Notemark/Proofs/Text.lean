import Notemark.Text.Search

/-!
# Laws of text

What the other proofs need to know about searching, stripping and joining lines:

* `distance_eq_some_iff`, `distance_drop`: a search is answered by any later search that starts
  before its hit,
* `strip_cons_blank`, `strip_append_blank`: blank ends do not count,
* `words_append`, `words_of_mem_words`: words are separated by blanks and hold none,
* `Settled`: text that `joinLines` leaves alone, whatever follows it.
-/

namespace Notemark.Text

variable {a b t : Text} {c : Char} {n : Nat}

/-! ## Distances -/

theorem distance_eq_none_iff : distance c t = none ↔ c ∉ t := by
  induction t with
  | nil => simp [distance]
  | cons d ds ih =>
    by_cases hd : d = c
    · simp [distance, hd]
    · have hc : ¬ c = d := fun h => hd h.symm
      simp [distance, hd, hc, ih]

theorem distance_append_of_notMem (h : c ∉ a) :
    distance c (a ++ b) = (distance c b).map (a.length + ·) := by
  induction a with
  | nil => simp
  | cons d ds ih =>
    have hd : ¬ d = c := fun hdc => h (by simp [hdc])
    have hds : c ∉ ds := fun hmem => h (by simp [hmem])
    simp only [List.cons_append, distance, if_neg hd, ih hds, Option.map_map, List.length_cons]
    congr 1
    funext i
    simp only [Function.comp_apply]
    omega

theorem distance_append_cons (h : c ∉ a) : distance c (a ++ c :: b) = some a.length := by
  rw [distance_append_of_notMem h]
  simp [distance]

theorem distance_eq_some_iff :
    distance c t = some n ↔ ∃ a b, t = a ++ c :: b ∧ c ∉ a ∧ a.length = n := by
  constructor
  · intro h
    induction t generalizing n with
    | nil => simp [distance] at h
    | cons d ds ih =>
      by_cases hd : d = c
      · have hn : 0 = n := by simpa [distance, hd] using h
        exact ⟨[], ds, by simp [hd], by simp, hn⟩
      · obtain ⟨i, hi, rfl⟩ : ∃ i, distance c ds = some i ∧ i + 1 = n := by
          simpa [distance, hd] using h
        rcases ih hi with ⟨a, b, hds, ha, hlen⟩
        have hc : ¬ c = d := fun h => hd h.symm
        exact ⟨d :: a, b, by simp [hds], by simp [hc, ha], by simp [hlen]⟩
  · rintro ⟨a, b, rfl, ha, rfl⟩
    exact distance_append_cons ha

/-- A search that starts later, but not after the hit, has the same hit. -/
theorem distance_drop {d : Nat} (h : distance c t = some d) (hn : n ≤ d) :
    distance c (t.drop n) = some (d - n) := by
  rcases distance_eq_some_iff.mp h with ⟨a, b, rfl, ha, rfl⟩
  have hdrop : (a ++ c :: b).drop n = a.drop n ++ c :: b := List.drop_append_of_le_length hn
  have hmem : c ∉ a.drop n := fun hmem => ha (List.mem_of_mem_drop hmem)
  rw [hdrop, distance_append_cons hmem, List.length_drop]

theorem distance_drop_of_none (h : distance c t = none) : distance c (t.drop n) = none := by
  rw [distance_eq_none_iff] at h ⊢
  exact fun hmem => h (List.mem_of_mem_drop hmem)

theorem distance_append_of_some (h : distance c a = some n) : distance c (a ++ b) = some n := by
  rcases distance_eq_some_iff.mp h with ⟨u, v, rfl, hu, rfl⟩
  rw [List.append_assoc, List.cons_append, distance_append_cons hu]

theorem distance_lt_length (h : distance c t = some n) : n < t.length := by
  rcases distance_eq_some_iff.mp h with ⟨a, b, rfl, -, rfl⟩
  simp

theorem eq_take_append_of_distanceTo {needle : Text} (h : distanceTo needle t = some n) :
    ∃ later, t = t.take n ++ (needle ++ later) := by
  induction t generalizing n with
  | nil =>
    simp only [distanceTo] at h
    split at h
    · next hempty =>
      rw [List.isEmpty_iff.mp hempty]
      exact ⟨[], by simp⟩
    · simp at h
  | cons d ds ih =>
    simp only [distanceTo] at h
    split at h
    -- The needle stands right here.
    · next hprefix =>
      rcases List.isPrefixOf_iff_prefix.mp hprefix with ⟨later, hlater⟩
      rcases Option.some.inj h with rfl
      exact ⟨later, by simpa using hlater.symm⟩
    · rcases Option.map_eq_some_iff.mp h with ⟨i, hi, rfl⟩
      rcases ih hi with ⟨later, hlater⟩
      refine ⟨later, ?_⟩
      rw [List.take_succ_cons, List.cons_append, ← hlater]

/-- Text without the first character of the needle is passed over. -/
theorem distanceTo_append {first : Char} {needle : Text} (h : first ∉ a) :
    distanceTo (first :: needle) (a ++ t) =
      (distanceTo (first :: needle) t).map (a.length + ·) := by
  induction a with
  | nil => simp
  | cons d ds ih =>
    have hd : first ≠ d := fun hd => h (by simp [hd])
    have hds : first ∉ ds := fun hmem => h (by simp [hmem])
    have hprefix : (first :: needle).isPrefixOf (d :: (ds ++ t)) = false := by
      simp [List.isPrefixOf, hd]
    rw [List.cons_append, distanceTo, hprefix, ih hds, Option.map_map, List.length_cons]
    simp only [Bool.false_eq_true, if_false]
    congr 1
    funext i
    simp only [Function.comp_apply]
    omega

theorem drop_length_takeWhile (p : Char → Bool) (t : Text) :
    t.drop (t.takeWhile p).length = t.dropWhile p := by
  have hsplit : t.takeWhile p ++ t.dropWhile p = t := List.takeWhile_append_dropWhile
  calc
    t.drop (t.takeWhile p).length
        = (t.takeWhile p ++ t.dropWhile p).drop (t.takeWhile p).length := by rw [hsplit]
    _ = t.dropWhile p := List.drop_left

/-! ## Stripping -/

theorem stripStart_cons_blank (h : isBlank c = true) : stripStart (c :: t) = stripStart t := by
  simp [stripStart, h]

theorem stripStart_cons_of_not_blank (h : isBlank c = false) : stripStart (c :: t) = c :: t := by
  simp [stripStart, h]

theorem strip_cons_blank (h : isBlank c = true) : strip (c :: t) = strip t := by
  rw [strip, stripStart_cons_blank h, strip]

theorem stripEnd_append_blank (h : isBlank c = true) : stripEnd (t ++ [c]) = stripEnd t := by
  simp [stripEnd, h]

theorem length_stripStart_le (t : Text) : (stripStart t).length ≤ t.length :=
  (List.dropWhile_sublist isBlank).length_le

theorem length_stripEnd_le (t : Text) : (stripEnd t).length ≤ t.length := by
  have h := (List.dropWhile_sublist isBlank (l := t.reverse)).length_le
  simpa [stripEnd] using h

theorem strip_append_blank (h : isBlank c = true) : strip (t ++ [c]) = strip t := by
  induction t with
  | nil => simp [strip, stripStart, stripEnd, h]
  | cons d ds ih =>
    by_cases hd : isBlank d = true
    · rw [List.cons_append, strip_cons_blank hd, ih, strip_cons_blank hd]
    · have hd' : isBlank d = false := by simpa using hd
      rw [strip, List.cons_append, stripStart_cons_of_not_blank hd', ← List.cons_append,
        stripEnd_append_blank h, strip, stripStart_cons_of_not_blank hd']

/-- A stripped text has nothing to lose at its start. -/
theorem stripStart_eq_self (h : strip t = t) : stripStart t = t := by
  have hlen : t.length ≤ (stripStart t).length := by
    have hle := length_stripEnd_le (stripStart t)
    rwa [← strip, h] at hle
  exact (List.dropWhile_sublist isBlank).eq_of_length_le hlen

theorem stripEnd_eq_self (h : strip t = t) : stripEnd t = t := by
  have hs : strip t = stripEnd (stripStart t) := rfl
  rw [stripStart_eq_self h] at hs
  rw [← hs, h]

/-- A stripped text begins with a character that is not blank. -/
theorem not_blank_head (h : strip (c :: t) = c :: t) : isBlank c = false := by
  refine Bool.eq_false_iff.mpr fun hblank => ?_
  have hlen := length_stripStart_le t
  have hstart := stripStart_eq_self h
  rw [stripStart_cons_blank hblank] at hstart
  rw [hstart] at hlen
  simp only [List.length_cons] at hlen
  omega

/-- A stripped text ends in a character that is not blank. -/
theorem not_blank_last (h : strip (t ++ [c]) = t ++ [c]) : isBlank c = false := by
  refine Bool.eq_false_iff.mpr fun hblank => ?_
  have hlen := length_stripEnd_le t
  have hend := stripEnd_eq_self h
  rw [stripEnd_append_blank hblank] at hend
  rw [hend] at hlen
  simp only [List.length_append, List.length_cons, List.length_nil] at hlen
  omega

theorem allBlank_eq_false_of_strip (h : strip t = t) (hne : t ≠ []) : allBlank t = false := by
  cases t with
  | nil => exact absurd rfl hne
  | cons c cs => simp [allBlank, not_blank_head h]

theorem allBlank_of_dropWhile (h : t.dropWhile isBlank = []) : allBlank t = true := by
  have hall : t.takeWhile isBlank = t := by
    simpa [h] using List.takeWhile_append_dropWhile (p := isBlank) (l := t)
  rw [allBlank, ← hall]
  exact List.all_takeWhile

theorem stripStart_of_allBlank (h : allBlank t = true) : stripStart t = [] := by
  calc
    stripStart t = (t ++ []).dropWhile isBlank := by rw [List.append_nil]; rfl
    _ = [].dropWhile isBlank := List.dropWhile_append_of_pos (List.all_eq_true.mp h)
    _ = [] := rfl

theorem allBlank_stripStart (t : Text) : allBlank (stripStart t) = allBlank t := by
  have hsplit : t.takeWhile isBlank ++ t.dropWhile isBlank = t := List.takeWhile_append_dropWhile
  have hblank : (t.takeWhile isBlank).all isBlank = true := List.all_takeWhile
  calc
    allBlank (stripStart t)
        = ((t.takeWhile isBlank).all isBlank && (t.dropWhile isBlank).all isBlank) := by
          rw [hblank, Bool.true_and]
          rfl
    _ = (t.takeWhile isBlank ++ t.dropWhile isBlank).all isBlank := List.all_append.symm
    _ = allBlank t := by rw [hsplit]; rfl

/-- Only blank text has nothing left when it is stripped. -/
theorem allBlank_of_strip (h : strip t = []) : allBlank t = true := by
  cases hstart : stripStart t with
  | nil => exact allBlank_of_dropWhile hstart
  | cons c cs =>
    have hhead : isBlank c = false := by
      have hc := List.head?_dropWhile_not isBlank t
      rw [show t.dropWhile isBlank = c :: cs from hstart] at hc
      simpa using hc
    -- The end is stripped from a text that begins with `c`, and `c` is not blank.
    rw [strip, hstart] at h
    have hall := allBlank_of_dropWhile (List.reverse_eq_nil_iff.mp h)
    simp [allBlank, hhead] at hall

/-- A text is stripped if its ends are not blank. -/
theorem strip_eq_self (hhead : ∀ c, t.head? = some c → isBlank c = false)
    (hlast : ∀ c, t.getLast? = some c → isBlank c = false) : strip t = t := by
  cases t with
  | nil => rfl
  | cons c cs =>
    have hc : isBlank c = false := hhead c rfl
    rcases List.eq_nil_or_concat (c :: cs) with hnil | ⟨front, d, hfront⟩
    · cases hnil
    · rw [hfront, List.concat_eq_append] at hlast
      have hd : isBlank d = false := hlast d (by simp)
      rw [strip, stripStart_cons_of_not_blank hc, hfront, stripEnd]
      simp [hd]

/-- A stripped text has no blank ends. -/
theorem strip_strip (t : Text) : strip (strip t) = strip t := by
  have hprefix : strip t <+: stripStart t := by
    have hsuffix : (stripStart t).reverse.dropWhile isBlank <:+ (stripStart t).reverse :=
      List.dropWhile_suffix isBlank
    have hreverse := List.reverse_prefix.mpr hsuffix
    rwa [List.reverse_reverse] at hreverse
  refine strip_eq_self ?_ ?_
  · intro c hc
    rcases hprefix with ⟨later, hlater⟩
    have hhead : (t.dropWhile isBlank).head? = some c := by
      change (stripStart t).head? = some c
      rw [← hlater, List.head?_append, hc]
      rfl
    have hnot := List.head?_dropWhile_not isBlank t
    rw [hhead] at hnot
    exact hnot
  · intro c hc
    have hhead : ((stripStart t).reverse.dropWhile isBlank).head? = some c := by
      rw [← hc]
      exact List.getLast?_reverse.symm
    have hnot := List.head?_dropWhile_not isBlank (stripStart t).reverse
    rw [hhead] at hnot
    exact hnot

theorem strip_of_not_blank (h : ∀ c ∈ t, isBlank c = false) : strip t = t :=
  strip_eq_self (fun c hc => h c (List.mem_of_head? hc)) fun c hc => h c (List.mem_of_getLast? hc)

theorem not_blank_of_head? (h : strip t = t) (hc : t.head? = some c) : isBlank c = false := by
  cases t with
  | nil => simp at hc
  | cons d ds =>
    obtain rfl : d = c := Option.some.inj hc
    exact not_blank_head h

theorem not_blank_of_getLast? (h : strip t = t) (hc : t.getLast? = some c) :
    isBlank c = false := by
  rcases List.getLast?_eq_some_iff.mp hc with ⟨front, rfl⟩
  exact not_blank_last h

/-- Stripping keeps what stands between ends that are not blank. -/
theorem strip_append (ha : a ≠ []) (hb : b ≠ []) (hsa : strip a = a) (hsb : strip b = b)
    (middle : Text) : strip (a ++ (middle ++ b)) = a ++ (middle ++ b) := by
  refine strip_eq_self ?_ ?_
  · intro c hc
    cases a with
    | nil => exact absurd rfl ha
    | cons d ds => exact not_blank_of_head? hsa hc
  · intro c hc
    have hlast : b.getLast? = some (b.getLast hb) := List.getLast?_eq_some_getLast hb
    rw [← List.append_assoc, List.getLast?_append, hlast, Option.some_or] at hc
    exact not_blank_of_getLast? hsb (hlast.trans hc)

/-! ## Pieces -/

theorem splitOn_of_notMem (h : c ∉ t) : splitOn c t = [t] := by
  induction t with
  | nil => rfl
  | cons d t ih =>
    rw [List.mem_cons, not_or] at h
    rcases h with ⟨hd, ht⟩
    rw [splitOn, if_neg (Ne.symm hd), ih ht]

/-! ## Words -/

theorem wordsFrom_of_not_blank (h : ∀ c ∈ t, isBlank c = false) {current : Text}
    (hne : current ≠ [] ∨ t ≠ []) : wordsFrom current t = [current.reverse ++ t] := by
  induction t generalizing current with
  | nil =>
    have hcurrent : current ≠ [] := by simpa using hne
    simp [wordsFrom, hcurrent]
  | cons c t ih =>
    rw [wordsFrom, h c List.mem_cons_self]
    change wordsFrom (c :: current) t = _
    rw [ih (fun d hd => h d (List.mem_cons_of_mem c hd)) (Or.inl (List.cons_ne_nil c current))]
    simp

theorem words_of_not_blank (h : ∀ c ∈ t, isBlank c = false) (hne : t ≠ []) : words t = [t] :=
  wordsFrom_of_not_blank h (Or.inr hne)

/-- A blank ends the word that is being read. -/
theorem wordsFrom_append (h : isBlank c = true) (current a b : Text) :
    wordsFrom current (a ++ c :: b) = wordsFrom current a ++ wordsFrom [] b := by
  induction a generalizing current with
  | nil =>
    simp only [List.nil_append, wordsFrom, h, if_true]
    split
    · rfl
    · rfl
  | cons d a ih =>
    simp only [List.cons_append, wordsFrom]
    split
    · split
      · exact ih []
      · rw [ih [], List.cons_append]
    · exact ih (d :: current)

theorem words_append (h : isBlank c = true) (a b : Text) :
    words (a ++ c :: b) = words a ++ words b := wordsFrom_append h [] a b

theorem not_blank_of_mem_wordsFrom {current w : Text} (hcurrent : ∀ c ∈ current, isBlank c = false)
    (h : w ∈ wordsFrom current t) : w ≠ [] ∧ ∀ c ∈ w, isBlank c = false := by
  induction t generalizing current with
  | nil =>
    rw [wordsFrom] at h
    split at h
    · simp at h
    · next hempty =>
      obtain rfl := List.mem_singleton.mp h
      refine ⟨by simpa using hempty, fun c hc => hcurrent c (List.mem_reverse.mp hc)⟩
  | cons d t ih =>
    have hnone : ∀ c ∈ ([] : Text), isBlank c = false := by simp
    rw [wordsFrom] at h
    split at h
    · split at h
      · exact ih hnone h
      · next hempty =>
        rcases List.mem_cons.mp h with rfl | h
        · exact ⟨by simpa using hempty, fun c hc => hcurrent c (List.mem_reverse.mp hc)⟩
        · exact ih hnone h
    · next hd =>
      refine ih ?_ h
      intro c hc
      rcases List.mem_cons.mp hc with rfl | hc
      · simpa using hd
      · exact hcurrent c hc

/-- A word is one word. -/
theorem words_of_mem_words {w : Text} (h : w ∈ words t) : words w = [w] := by
  rcases not_blank_of_mem_wordsFrom (by simp) h with ⟨hne, hchars⟩
  exact words_of_not_blank hchars hne

/-! ## Joining lines -/

/-- Text without a carriage return that a line feed could swallow, inside it or at its end. -/
def Settled (t : Text) : Prop := ∀ rest, joinLines (t ++ rest) = t ++ joinLines rest

theorem settled_nil : Settled [] := fun _ => rfl

theorem Settled.append (ha : Settled a) (hb : Settled b) : Settled (a ++ b) := by
  intro rest
  rw [List.append_assoc, ha, hb, List.append_assoc]

theorem joinLines_cons (h : c ≠ '\r' ∨ t.head? ≠ some '\n') :
    joinLines (c :: t) = c :: joinLines t := by
  rw [joinLines.eq_def]
  split
  · next h' => cases h'
  · next cs heq =>
    rcases List.cons.inj heq with ⟨rfl, rfl⟩
    rcases h with h | h
    · exact absurd rfl h
    · simp at h
  · next d ds _ heq =>
    rcases List.cons.inj heq with ⟨rfl, rfl⟩
    rfl

theorem settled_of_notMem (h : '\r' ∉ t) : Settled t := by
  intro rest
  induction t with
  | nil => rfl
  | cons c cs ih =>
    have hc : c ≠ '\r' := fun hc => h (by simp [hc])
    have hcs : '\r' ∉ cs := fun hmem => h (by simp [hmem])
    rw [List.cons_append, joinLines_cons (Or.inl hc), ih hcs, List.cons_append]

/-- On one line a carriage return is harmless, unless it stands at the end. -/
theorem settled_of_line (h : '\n' ∉ t) (hlast : t.getLast? ≠ some '\r') : Settled t := by
  intro rest
  induction t with
  | nil => rfl
  | cons c cs ih =>
    have hcs : '\n' ∉ cs := fun hmem => h (by simp [hmem])
    cases cs with
    | nil =>
      have hc : c ≠ '\r' := fun hc => hlast (by simp [hc])
      rw [List.cons_append, joinLines_cons (Or.inl hc)]
      rfl
    | cons d ds =>
      have hd : ((d :: ds) ++ rest).head? ≠ some '\n' := by
        intro hd
        have hdn : d = '\n' := Option.some.inj hd
        exact hcs (by simp [hdn])
      have hlast' : (d :: ds).getLast? ≠ some '\r' := by
        simpa using hlast
      rw [List.cons_append, joinLines_cons (Or.inr hd), ih hcs hlast']
      rfl

theorem joinLines_of_settled (h : Settled t) : joinLines t = t := by
  have hnil := h []
  simpa [joinLines] using hnil

end Notemark.Text
