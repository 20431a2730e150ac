import Notemark.Proofs.Pieces

/-!
# Line by line

Scanners look for closing braces and stars through the whole text and ask afterwards whether they
were found on the line. So apart from tags nothing reaches beyond its line, and a text without
square brackets can be scanned one line at a time:

* `AgreeWithin`: a search finds what it finds on the line, or something behind it,
* `readAt_append_newline`: a further line changes no reading before it,
* `Cursor.Alike`: cursors that lead to the same readings, such as those at the start of a line,
* `Scans.lines`: the readings of two texts with a line break between them.
-/

namespace Notemark.Body

/-! ## The end of a line -/

section EndOfLine

variable {a u needle : Text} {c : Char}

theorem head?_append_endOfLine (hu : EndOfLine u) (hc : c ≠ '\n') :
    (a ++ u).head? = some c ↔ a.head? = some c := by
  cases a with
  | cons d ds => rfl
  | nil =>
    rcases hu.cases with rfl | ⟨later, rfl⟩
    · rfl
    · simpa using hc.symm

/-- A search that stops at line breaks does not leave the line. -/
theorem takeWhile_append_endOfLine {p : Char → Bool} (hp : p '\n' = false) (hu : EndOfLine u) :
    (a ++ u).takeWhile p = a.takeWhile p := by
  have hnil : u.takeWhile p = [] := by
    rcases hu.cases with rfl | ⟨later, rfl⟩
    · rfl
    · simp [hp]
  induction a with
  | nil => exact hnil
  | cons d ds ih => simp [List.takeWhile_cons, ih]

theorem isPrefixOf_append_endOfLine (hneedle : '\n' ∉ needle) (hu : EndOfLine u) :
    needle.isPrefixOf (a ++ u) = needle.isPrefixOf a := by
  induction needle generalizing a with
  | nil => simp
  | cons d ds ih =>
    rw [List.mem_cons, not_or] at hneedle
    cases a with
    | cons e es => simp [List.isPrefixOf, ih hneedle.2]
    | nil =>
      rcases hu.cases with rfl | ⟨later, rfl⟩
      · rfl
      · simp [List.isPrefixOf, Ne.symm hneedle.1]

/-- A search through a whole text finds what is found among its first `size` characters, or
something behind them. -/
def AgreeWithin (size : Nat) (all here : Option Nat) : Prop :=
  all = here ∨ here = none ∧ ∃ n, all = some n ∧ size < n

theorem distance_append_endOfLine (hc : c ≠ '\n') (hu : EndOfLine u) (a : Text) :
    AgreeWithin a.length (Text.distance c (a ++ u)) (Text.distance c a) := by
  cases ha : Text.distance c a with
  | some n => exact Or.inl (Text.distance_append_of_some ha)
  | none =>
    rw [Text.distance_append_of_notMem (Text.distance_eq_none_iff.mp ha)]
    rcases hu.cases with rfl | ⟨later, rfl⟩
    · exact Or.inl rfl
    · rw [Text.distance, if_neg hc.symm, Option.map_map]
      cases Text.distance c later with
      | none => exact Or.inl rfl
      | some n =>
        refine Or.inr ⟨rfl, _, rfl, ?_⟩
        simp only [Function.comp_apply]
        omega

theorem distanceTo_append_endOfLine (needle : Text) (hneedle : '\n' ∉ needle)
    (hne : needle ≠ []) (hu : EndOfLine u) (a : Text) :
    AgreeWithin a.length (Text.distanceTo needle (a ++ u)) (Text.distanceTo needle a) := by
  have hempty : needle.isEmpty = false := by simpa using hne
  -- The needle does not begin at a line break, so the search goes on behind it.
  have hstart : ∀ v : Text, Text.distanceTo needle ('\n' :: v) =
      (Text.distanceTo needle v).map (· + 1) := by
    intro v
    have hprefix : needle.isPrefixOf ('\n' :: v) = false := by
      cases needle with
      | nil => exact absurd rfl hne
      | cons d ds =>
        rw [List.mem_cons, not_or] at hneedle
        simp [List.isPrefixOf, Ne.symm hneedle.1]
    rw [Text.distanceTo, hprefix, if_neg Bool.false_ne_true]
  induction a with
  | nil =>
    have hnone : Text.distanceTo needle [] = none := by simp [Text.distanceTo, hempty]
    rw [List.nil_append, hnone]
    rcases hu.cases with rfl | ⟨later, rfl⟩
    · exact Or.inl hnone
    · rw [hstart]
      cases Text.distanceTo needle later with
      | none => exact Or.inl rfl
      | some n => exact Or.inr ⟨rfl, n + 1, rfl, by simp⟩
  | cons d ds ih =>
    have hprefix : needle.isPrefixOf (d :: (ds ++ u)) = needle.isPrefixOf (d :: ds) :=
      isPrefixOf_append_endOfLine (a := d :: ds) hneedle hu
    rw [List.cons_append, Text.distanceTo, Text.distanceTo, hprefix]
    cases needle.isPrefixOf (d :: ds) with
    | true => exact Or.inl rfl
    | false =>
      rw [if_neg Bool.false_ne_true, if_neg Bool.false_ne_true]
      rcases ih with hsame | ⟨hnone, n, hn, hlt⟩
      · exact Or.inl (by rw [hsame])
      · refine Or.inr ⟨by rw [hnone]; rfl, n + 1, by rw [hn]; rfl, ?_⟩
        rw [List.length_cons]
        omega

/-- A plain run ends with its line. -/
theorem runTail_append_endOfLine (indent : Bool) (hu : EndOfLine u) (a : Text) :
    runTail indent (a ++ u) = runTail indent a := by
  induction a generalizing indent with
  | nil =>
    rcases hu.cases with rfl | ⟨later, rfl⟩
    · rfl
    · simp [runTail]
  | cons d ds ih =>
    have himage : ((ds ++ u).head? == some '[') = (ds.head? == some '[') := by
      rw [Bool.eq_iff_iff, beq_iff_eq, beq_iff_eq]
      exact head?_append_endOfLine hu (by decide)
    rw [List.cons_append, runTail, runTail, himage, ih]

theorem plain_append_endOfLine (k : Cursor) (ha : a ≠ []) (hu : EndOfLine u)
    (breach : Option Breach) : plain k (a ++ u) breach = plain k a breach := by
  cases a with
  | nil => exact absurd rfl ha
  | cons d ds =>
    unfold plain
    rw [List.cons_append, plainRun, plainRun, runTail_append_endOfLine _ hu]

theorem braceDistance_append_endOfLine (depth : Nat) (hline : '\n' ∉ a) (hu : EndOfLine u) :
    braceDistance depth (a ++ u) = braceDistance depth a := by
  rcases hu.cases with rfl | ⟨later, rfl⟩
  · rw [List.append_nil]
  · exact braceDistance_append_newline hline depth later

theorem lineLength_of_notMem (hline : '\n' ∉ a) : Text.lineLength a = a.length := by
  simpa using lineLength_append hline (Or.inl rfl)

end EndOfLine

/-! ## Readers on a line -/

section Readers

variable {a u : Text} (k : Cursor)

/-- A reader that refuses what lies behind the line does not notice that there is more text. -/
theorem match_of_search {α : Type} {here all : Option Nat} {size : Nat} {fallback : α}
    {f g : Nat → α} :
    AgreeWithin size all here → (∀ n, here = some n → f n = g n) →
      (∀ n, size < n → f n = fallback) →
        (match all with | none => fallback | some n => f n) =
          match here with | none => fallback | some n => g n := by
  intro hsearch hline hbehind
  rcases hsearch with rfl | ⟨rfl, n, rfl, hn⟩
  · cases all with
    | none => rfl
    | some n => exact hline n rfl
  · exact hbehind n hn

theorem readHeading_append_endOfLine (ha : a ≠ []) (hline : '\n' ∉ a) (hu : EndOfLine u) :
    readHeading k (a ++ u) = readHeading k a := by
  have hsigns : (a ++ u).takeWhile (· == '#') = a.takeWhile (· == '#') :=
    takeWhile_append_endOfLine rfl hu
  have hafter : (a ++ u).drop (a.takeWhile (· == '#')).length =
      a.drop (a.takeWhile (· == '#')).length ++ u :=
    List.drop_append_of_le_length (List.takeWhile_prefix _).length_le
  have hrest : '\n' ∉ a.drop (a.takeWhile (· == '#')).length :=
    fun hmem => hline (List.mem_of_mem_drop hmem)
  rw [readHeading, readHeading, hsigns, hafter, lineLength_append hrest hu,
    lineLength_of_notMem hrest, List.take_left, List.take_length, plain_append_endOfLine k ha hu]
  -- The line may end right behind the signs, with the text or with a line break.
  cases a.drop (a.takeWhile (· == '#')).length with
  | cons c cs => rfl
  | nil =>
    rcases hu.cases with rfl | ⟨later, rfl⟩
    · rfl
    · rfl

theorem readIdMarker_append_endOfLine (hsize : 2 ≤ a.length) (hline : '\n' ∉ a)
    (hu : EndOfLine u) : readIdMarker k (a ++ u) = readIdMarker k a := by
  have ha : a ≠ [] := List.ne_nil_of_length_pos (by omega)
  rw [readIdMarker, readIdMarker, List.drop_append_of_le_length hsize,
    lineLength_append hline hu, lineLength_of_notMem hline, plain_append_endOfLine k ha hu]
  refine match_of_search (distance_append_endOfLine (c := '}') (by decide) hu (a.drop 2)) ?_ ?_
  · intro n hn
    rw [List.take_append_of_le_length (Nat.le_of_lt (Text.distance_lt_length hn))]
  -- A brace behind the line does not close the marker.
  · intro n hn
    rw [List.length_drop] at hn
    exact if_pos (by omega)

theorem styleClasses?_append_endOfLine (hsize : styleHead.length ≤ a.length) (hu : EndOfLine u) :
    styleClasses? (a ++ u) = styleClasses? a := by
  unfold styleClasses?
  rw [List.drop_append_of_le_length hsize]
  cases a.drop styleHead.length with
  | nil =>
    rcases hu.cases with rfl | ⟨later, rfl⟩
    · rfl
    · rfl
  | cons c cs =>
    by_cases hc : c = '"'
    · subst hc
      have hclasses : (cs ++ u).takeWhile (fun c => c != '"' && c != '\n') =
          cs.takeWhile fun c => c != '"' && c != '\n' := takeWhile_append_endOfLine rfl hu
      simp only [List.cons_append]
      rw [hclasses, List.drop_append_of_le_length (List.takeWhile_prefix _).length_le,
        isPrefixOf_append_endOfLine (by decide) hu]
    · simp [hc]

theorem readStyleMarker_append_endOfLine (hsize : styleHead.length ≤ a.length)
    (hline : '\n' ∉ a) (hu : EndOfLine u) :
    readStyleMarker k (a ++ u) = readStyleMarker k a := by
  have ha : a ≠ [] := by
    rintro rfl
    exact absurd hsize (by decide)
  rw [readStyleMarker, readStyleMarker, styleClasses?_append_endOfLine hsize hu,
    lineLength_append hline hu, lineLength_of_notMem hline, List.take_left, List.take_length,
    plain_append_endOfLine k ha hu]

theorem readReference_append_endOfLine (ha : a ≠ []) (hline : '\n' ∉ a) (hu : EndOfLine u) :
    readReference k (a ++ u) = readReference k a := by
  rw [readReference, readReference, braceDistance_append_endOfLine 0 hline hu,
    lineLength_append hline hu, lineLength_of_notMem hline, List.take_left, List.take_length,
    plain_append_endOfLine k ha hu]
  cases hd : braceDistance 0 a with
  | none => rfl
  | some size =>
    dsimp only
    rw [List.take_append_of_le_length (braceDistance_lt_length hd)]

theorem readBold_append_endOfLine (hsize : 2 ≤ a.length) (hline : '\n' ∉ a)
    (hu : EndOfLine u) : readBold k (a ++ u) = readBold k a := by
  have ha : a ≠ [] := List.ne_nil_of_length_pos (by omega)
  rw [readBold, readBold, List.drop_append_of_le_length hsize,
    lineLength_append hline hu, lineLength_of_notMem hline, plain_append_endOfLine k ha hu]
  have hsearch := distanceTo_append_endOfLine ['*', '*'] (by decide) (by decide) hu (a.drop 2)
  refine match_of_search hsearch ?_ ?_
  · intro n hn
    have hle : n ≤ (a.drop 2).length := by
      rcases Text.eq_take_append_of_distanceTo hn with ⟨later, hlater⟩
      have hlength := congrArg List.length hlater
      rw [List.length_append, List.length_append, List.length_take, List.length_cons] at hlength
      omega
    rw [List.take_append_of_le_length hle]
  · intro n hn
    rw [List.length_drop] at hn
    refine if_pos ?_
    simp only [Bool.or_eq_true, decide_eq_true_eq]
    exact Or.inr (by omega)

theorem readItalic_append_endOfLine (ha : a ≠ []) (hline : '\n' ∉ a) (hu : EndOfLine u) :
    readItalic k (a ++ u) = readItalic k a := by
  have hsize : 1 ≤ a.length := List.length_pos_iff.mpr ha
  have hstar : (((a ++ u).drop 1).head? == some '*') = ((a.drop 1).head? == some '*') := by
    rw [List.drop_append_of_le_length hsize, Bool.eq_iff_iff, beq_iff_eq, beq_iff_eq]
    exact head?_append_endOfLine hu (by decide)
  rw [readItalic, readItalic, hstar, List.drop_append_of_le_length hsize,
    lineLength_append hline hu, lineLength_of_notMem hline, plain_append_endOfLine k ha hu]
  congr 1
  refine match_of_search (distance_append_endOfLine (c := '*') (by decide) hu (a.drop 1)) ?_ ?_
  · intro n hn
    have hle := Nat.le_of_lt (Text.distance_lt_length hn)
    rw [List.take_append_of_le_length hle, List.drop_append_of_le_length hle,
      isPrefixOf_append_endOfLine (by decide) hu]
  · intro n hn
    rw [List.length_drop] at hn
    refine if_pos ?_
    simp only [Bool.or_eq_true, decide_eq_true_eq]
    exact Or.inr (by omega)

end Readers

/-! ## Readings on a line -/

section Readings

variable {k k' : Cursor} {a t u : Text} {c : Char}

/-- What the first character says, where neither a tag nor an image begins. -/
theorem readAt_cons (k : Cursor) (hc : c ≠ '[') (ht : t.head? ≠ some '[') :
    readAt k (c :: t) =
      if c = '\n' then .newline
      else if c = '#' then
        if k.fresh then readHeading k (c :: t) else plain k (c :: t) none
      else if c = '{' then
        if t.head? = some '#' then readIdMarker k (c :: t)
        else if styleHead.isPrefixOf (c :: t) then readStyleMarker k (c :: t)
        else if isReference (c :: t) then readReference k (c :: t)
        else plain k (c :: t) none
      else if c = '*' then
        if t.head? = some '*' then readBold k (c :: t)
        else readItalic k (c :: t)
      else plain k (c :: t) none := by
  unfold readAt
  split
  · next heq =>
    obtain ⟨rfl, rfl⟩ := List.cons.inj heq
    rfl
  · next heq =>
    obtain ⟨rfl, rfl⟩ := List.cons.inj heq
    cases k.fresh <;> rfl
  · next heq =>
    obtain ⟨rfl, rfl⟩ := List.cons.inj heq
    rfl
  · next hne heq =>
    obtain ⟨rfl, rfl⟩ := List.cons.inj heq
    have hsign : t.head? ≠ some '#' := by
      intro hhead
      rcases List.head?_eq_some_iff.mp hhead with ⟨ds, hds⟩
      exact hne ds (by rw [hds])
    rw [if_neg (by decide : '{' ≠ '\n'), if_neg (by decide : '{' ≠ '#'), if_pos rfl,
      if_neg hsign]
  · next heq =>
    obtain ⟨rfl, rfl⟩ := List.cons.inj heq
    exact absurd rfl ht
  · next heq => exact absurd (List.cons.inj heq).1 hc
  · next heq =>
    obtain ⟨rfl, rfl⟩ := List.cons.inj heq
    rfl
  · next hne heq =>
    obtain ⟨rfl, rfl⟩ := List.cons.inj heq
    have hstar : t.head? ≠ some '*' := by
      intro hhead
      rcases List.head?_eq_some_iff.mp hhead with ⟨ds, hds⟩
      exact hne ds (by rw [hds])
    rw [if_neg (by decide : '*' ≠ '\n'), if_neg (by decide : '*' ≠ '#'),
      if_neg (by decide : '*' ≠ '{'), if_pos rfl, if_neg hstar]
  · next hnewline hsign _ hbrace _ _ _ hstar =>
    rw [if_neg fun h => hnewline t (by rw [h]), if_neg fun h => hsign t (by rw [h]),
      if_neg fun h => hbrace t (by rw [h]), if_neg fun h => hstar t (by rw [h])]

theorem isReference_append_endOfLine (hu : EndOfLine u) :
    isReference (a ++ u) = isReference a := by
  cases a with
  | nil =>
    rcases hu.cases with rfl | ⟨later, rfl⟩
    · rfl
    · rfl
  | cons c cs =>
    by_cases hc : c = '{'
    · subst hc
      have hheads : ∀ head ∈ referenceHeads, '\n' ∉ head := by decide
      rw [List.cons_append, isReference, isReference, Bool.eq_iff_iff, List.any_eq_true,
        List.any_eq_true]
      refine exists_congr fun head => and_congr_right fun hhead => ?_
      rw [isPrefixOf_append_endOfLine (hheads head hhead) hu]
    · simp [isReference, hc]

/-- Nothing but a tag reaches beyond its line. -/
theorem readAt_append_endOfLine (k : Cursor) (ha : a ≠ []) (hline : '\n' ∉ a) (htag : '[' ∉ a)
    (hu : EndOfLine u) : readAt k (a ++ u) = readAt k a := by
  have hplain := plain_append_endOfLine k ha hu none
  have hheading := readHeading_append_endOfLine k ha hline hu
  have hreference := readReference_append_endOfLine k ha hline hu
  have hitalic := readItalic_append_endOfLine k ha hline hu
  have hstyle : styleHead.isPrefixOf (a ++ u) = styleHead.isPrefixOf a :=
    isPrefixOf_append_endOfLine (by decide) hu
  have hisReference := isReference_append_endOfLine (a := a) hu
  cases a with
  | nil => exact absurd rfl ha
  | cons c cs =>
    have hc : c ≠ '[' := fun h => htag (by simp [h])
    have hcs : cs.head? ≠ some '[' := fun h => htag (List.mem_cons_of_mem c (List.mem_of_head? h))
    have hhead : ∀ {d : Char}, d ≠ '\n' → ((cs ++ u).head? = some d) = (cs.head? = some d) :=
      fun hd => propext (head?_append_endOfLine hu hd)
    have htwo : ∀ {d : Char}, cs.head? = some d → 2 ≤ (c :: cs).length := by
      intro d hd
      have := List.length_pos_of_mem (List.mem_of_head? hd)
      rw [List.length_cons]
      omega
    rw [List.cons_append] at *
    rw [readAt_cons k hc (by rwa [Ne, hhead (by decide)]), readAt_cons k hc hcs]
    refine ite_congr rfl (fun _ => rfl) fun _ => ?_
    refine ite_congr rfl (fun _ => ite_congr rfl (fun _ => hheading) fun _ => hplain) fun _ => ?_
    refine ite_congr rfl (fun _ => ?_) fun _ => ?_
    -- After an opening brace: a marker, a reference, or plain text.
    · refine ite_congr (hhead (by decide)) ?_ fun _ => ?_
      · intro hsign
        exact readIdMarker_append_endOfLine k (htwo hsign) hline hu
      · rw [hstyle, hisReference]
        refine ite_congr rfl ?_ fun _ => ite_congr rfl (fun _ => hreference) fun _ => hplain
        intro hmarker
        have hsize := (List.isPrefixOf_iff_prefix.mp hmarker).length_le
        exact readStyleMarker_append_endOfLine k hsize hline hu
    · refine ite_congr rfl (fun _ => ?_) fun _ => hplain
      refine ite_congr (hhead (by decide)) ?_ fun _ => hitalic
      intro hstar
      exact readBold_append_endOfLine k (htwo hstar) hline hu

/-- What is read at a cursor stands on the first line, which ends with the text or with a line
break; so a further line changes nothing. -/
theorem readAt_append_newline (k : Cursor) (ht : t ≠ []) (htag : '[' ∉ t) (later : Text) :
    readAt k (t ++ '\n' :: later) = readAt k t := by
  obtain ⟨a, u, rfl, hline, hu⟩ : ∃ a u, t = a ++ u ∧ '\n' ∉ a ∧ EndOfLine u := by
    cases hd : Text.distance '\n' t with
    | none => exact ⟨t, [], by simp, Text.distance_eq_none_iff.mp hd, Or.inl rfl⟩
    | some n =>
      rcases Text.distance_eq_some_iff.mp hd with ⟨a, b, rfl, ha, -⟩
      exact ⟨a, '\n' :: b, rfl, ha, Or.inr rfl⟩
  have hafter : EndOfLine (u ++ '\n' :: later) := by
    rcases hu.cases with rfl | ⟨rest, rfl⟩
    · exact Or.inr rfl
    · exact Or.inr rfl
  by_cases ha : a = []
  -- The cursor is at the end of a line: a line break is read there.
  · subst ha
    rcases hu.cases with rfl | ⟨rest, rfl⟩
    · exact absurd rfl ht
    · rfl
  · have hsquare : '[' ∉ a := fun hmem => htag (List.mem_append_left u hmem)
    calc readAt k (a ++ u ++ '\n' :: later)
      _ = readAt k (a ++ (u ++ '\n' :: later)) := by rw [List.append_assoc]
      _ = readAt k a := readAt_append_endOfLine k ha hline hsquare hafter
      _ = readAt k (a ++ u) := (readAt_append_endOfLine k ha hline hsquare hu).symm

/-- Two cursors are alike if the text before them leads to the same readings behind them. -/
structure Cursor.Alike (k k' : Cursor) : Prop where
  fresh : k.fresh = k'.fresh
  star : (k.before == some '*') = (k'.before == some '*')

theorem Cursor.Alike.advance (h : k.Alike k') (t : Text) : (k.advance t).Alike (k'.advance t) := by
  induction t generalizing k k' with
  | nil => exact h
  | cons c cs ih => exact ih ⟨by simp only [Cursor.step, h.fresh], rfl⟩

/-- Every line starts like the first one. -/
theorem Cursor.alike_step_newline (k : Cursor) : Cursor.Alike {} (k.step '\n') where
  fresh := rfl
  star := rfl

theorem readAt_alike (h : k.Alike k') (htag : '[' ∉ t) : readAt k t = readAt k' t := by
  have hplain : ∀ breach, plain k t breach = plain k' t breach := by
    intro breach
    cases t with
    | nil => rfl
    | cons c cs => rw [plain, plain, plainRun, plainRun, h.fresh]
  cases t with
  | nil => exact hplain none
  | cons c cs =>
    have hc : c ≠ '[' := fun h => htag (by simp [h])
    have hcs : cs.head? ≠ some '[' := fun h => htag (List.mem_cons_of_mem c (List.mem_of_head? h))
    -- Plain text looks at the start of the line, and only italic text at the character before.
    simp only [readAt_cons _ hc hcs, readHeading, readIdMarker,
      readStyleMarker, readReference, readBold, readItalic, hplain,
      h.fresh, h.star]

end Readings

/-! ## Scans of lines -/

namespace Scans

variable {k k' : Cursor} {a b t rest : Text} {rs as bs : List Reading}

theorem alike (h : Scans k t rs rest) (hk : k.Alike k') (htag : '[' ∉ t) : Scans k' t rs rest := by
  induction h generalizing k' with
  | done k t => exact .done k' t
  | step hne hread _ ih =>
    refine .step hne ((readAt_alike hk htag).symm.trans hread) (ih (hk.advance _) ?_)
    exact fun hmem => htag (List.mem_append_right _ hmem)

/-- A scan goes on in the same way if more lines follow. -/
theorem append_newline (h : Scans k t rs rest) (htag : '[' ∉ t) (later : Text) :
    Scans k (t ++ '\n' :: later) rs (rest ++ '\n' :: later) := by
  induction h with
  | done k t => exact .done k _
  | @step k r t rest rs hne hread _ ih =>
    have hsame : readAt k (r.span ++ (t ++ '\n' :: later)) = r := by
      rw [← List.append_assoc, readAt_append_newline k (by simp [hne]) htag, hread]
    rw [List.append_assoc]
    exact .step hne hsame (ih fun hmem => htag (List.mem_append_right _ hmem))

/-- Two texts are scanned one after the other. -/
theorem lines (ha : Scans {} a as []) (hb : Scans {} b bs []) (htagA : '[' ∉ a) (htagB : '[' ∉ b) :
    Scans {} (a ++ '\n' :: b) (as ++ .newline :: bs) [] := by
  -- Behind the line break the cursor has another offset, which no reading depends on.
  refine (ha.append_newline htagA b).append ?_
  refine .step (r := .newline) (by decide) rfl ?_
  exact hb.alike (Cursor.alike_step_newline _) htagB

end Scans

end Notemark.Body
