import Notemark.Proofs.Readings
import Notemark.Proofs.Text

/-!
# Readings and the text they cover

* `bracketEnd`: the first closing bracket outside double quotes; `tagEnd_of_bracketEnd` says that a
  tag ends there,
* `readAt_covers`: the reading at a cursor covers a beginning of the text from there on, and not an
  empty one,
* `readFrom_step`: reading on after one reading,
* `Scans`: a scanning judgment that keeps the rest of the text, so that scans can be joined.
-/

namespace Notemark.Body

/-! ## The end of a tag -/

/-- How many characters stand before the first closing bracket outside double quotes; `quoted` says
whether the text begins inside quotes. -/
def bracketEnd (quoted : Bool) : Text → Option Nat
  | [] => none
  | c :: cs =>
    if c = '"' then (bracketEnd (!quoted) cs).map (· + 1)
    else if c = ']' && !quoted then some 0
    else (bracketEnd quoted cs).map (· + 1)

section BracketEnd

variable {a t : Text} {n : Nat}

private theorem map_succ_map (x : Option Nat) (m : Nat) :
    (x.map (m + ·)).map (· + 1) = x.map (m + 1 + ·) := by
  cases x with
  | none => rfl
  | some i =>
    simp only [Option.map_some, Option.some.injEq]
    omega

/-- Outside quotes, text without quotes and closing brackets is passed over. -/
theorem bracketEnd_append (h : ∀ c ∈ a, c ≠ '"' ∧ c ≠ ']') :
    bracketEnd false (a ++ t) = (bracketEnd false t).map (a.length + ·) := by
  induction a with
  | nil => simp
  | cons c cs ih =>
    obtain ⟨hq, hb⟩ := h c (by simp)
    have hcs : ∀ d ∈ cs, d ≠ '"' ∧ d ≠ ']' := fun d hd => h d (by simp [hd])
    simp only [List.cons_append, bracketEnd, if_neg hq, hb, decide_false, Bool.false_and,
      Bool.false_eq_true, if_false, ih hcs, map_succ_map, List.length_cons]

/-- Inside quotes everything up to the next quote is passed over. -/
theorem bracketEnd_quoted (h : '"' ∉ a) :
    bracketEnd true (a ++ '"' :: t) = (bracketEnd false t).map (a.length + 1 + ·) := by
  induction a with
  | nil =>
    simp only [List.nil_append, bracketEnd, if_true, Bool.not_true, List.length_nil, Nat.zero_add]
    congr 1
    funext i
    omega
  | cons c cs ih =>
    have hq : c ≠ '"' := fun hc => h (by simp [hc])
    have hcs : '"' ∉ cs := fun hmem => h (by simp [hmem])
    simp only [List.cons_append, bracketEnd, if_neg hq, Bool.not_true, Bool.and_false,
      Bool.false_eq_true, if_false, ih hcs, map_succ_map, List.length_cons]

theorem bracketEnd_quoted_of_notMem (h : '"' ∉ t) : bracketEnd true t = none := by
  induction t with
  | nil => rfl
  | cons c cs ih =>
    have hq : c ≠ '"' := fun hc => h (by simp [hc])
    have hcs : '"' ∉ cs := fun hmem => h (by simp [hmem])
    simp [bracketEnd, hq, ih hcs]

theorem mem_of_bracketEnd {quoted : Bool} (h : bracketEnd quoted t = some n) : ']' ∈ t := by
  induction t generalizing quoted n with
  | nil => simp [bracketEnd] at h
  | cons c cs ih =>
    simp only [bracketEnd] at h
    split at h
    · rcases Option.map_eq_some_iff.mp h with ⟨i, hi, -⟩
      exact List.mem_cons_of_mem c (ih hi)
    · split at h
      · next hc =>
        simp only [Bool.and_eq_true, decide_eq_true_eq] at hc
        simp [hc.1]
      · rcases Option.map_eq_some_iff.mp h with ⟨i, hi, -⟩
        exact List.mem_cons_of_mem c (ih hi)

/-- A closing bracket that comes before every quote is the end. -/
theorem bracketEnd_of_distance {bracket : Nat} (hb : Text.distance ']' t = some bracket)
    (hq : ∀ quote, Text.distance '"' t = some quote → bracket < quote) :
    bracketEnd false t = some bracket := by
  rcases Text.distance_eq_some_iff.mp hb with ⟨a, b, rfl, ha, rfl⟩
  have hquote : '"' ∉ a := by
    cases hd : Text.distance '"' a with
    | none => exact Text.distance_eq_none_iff.mp hd
    | some quote =>
      have hlt := Text.distance_lt_length hd
      have hle := hq quote (Text.distance_append_of_some hd)
      omega
  have hpass : ∀ c ∈ a, c ≠ '"' ∧ c ≠ ']' := by
    intro c hc
    exact ⟨fun h => hquote (h ▸ hc), fun h => ha (h ▸ hc)⟩
  rw [bracketEnd_append hpass]
  simp [bracketEnd]

/-- A quote that comes before every closing bracket begins a quoted text, which is passed over. -/
theorem bracketEnd_of_quote {quote : Nat} (hq : Text.distance '"' t = some quote)
    (hb : ∀ bracket, Text.distance ']' t = some bracket → quote ≤ bracket) :
    bracketEnd false t = (bracketEnd true (t.drop (quote + 1))).map (quote + 1 + ·) := by
  rcases Text.distance_eq_some_iff.mp hq with ⟨a, b, rfl, ha, rfl⟩
  have hbracket : ']' ∉ a := by
    cases hd : Text.distance ']' a with
    | none => exact Text.distance_eq_none_iff.mp hd
    | some bracket =>
      have hlt := Text.distance_lt_length hd
      have hle := hb bracket (Text.distance_append_of_some hd)
      omega
  have hpass : ∀ c ∈ a, c ≠ '"' ∧ c ≠ ']' := by
    intro c hc
    exact ⟨fun h => ha (h ▸ hc), fun h => hbracket (h ▸ hc)⟩
  have hdrop : (a ++ '"' :: b).drop (a.length + 1) = b := by
    rw [List.drop_append, List.drop_eq_nil_of_le (by omega)]
    simp
  rw [bracketEnd_append hpass, hdrop]
  simp only [bracketEnd, if_true, Bool.not_false, Option.map_map]
  congr 1
  funext i
  simp only [Function.comp_apply]
  omega

/-- One round of the search for the end of a tag. -/
theorem tagEndFrom_succ (start : Nat) (all : Text) (budget read : Nat) (t : Text) :
    Id.run (tagEndFrom start all (budget + 1) read t) =
      match Text.distance ']' t with
      | none => none
      | some bracket =>
        match Text.distance '"' t with
        | none => some (read + bracket)
        | some quote =>
          if bracket < quote then some (read + bracket)
          else
            match Text.distance '"' (t.drop (quote + 1)) with
            | none => Text.distance ']' all
            | some size =>
              Id.run (tagEndFrom start all budget (read + (quote + 1 + size + 1))
                (t.drop (quote + 1 + size + 1))) := rfl

theorem tagEndFrom_of_bracketEnd (start : Nat) (all : Text) (budget read : Nat)
    (hbudget : t.length < budget) (h : bracketEnd false t = some n) :
    Id.run (tagEndFrom start all budget read t) = some (read + n) := by
  induction budget generalizing t read n with
  | zero => omega
  | succ budget ih =>
    rw [tagEndFrom_succ]
    cases hb : Text.distance ']' t with
    | none => exact absurd (mem_of_bracketEnd h) (Text.distance_eq_none_iff.mp hb)
    | some bracket =>
      cases hq : Text.distance '"' t with
      | none =>
        have hend := bracketEnd_of_distance hb (by simp [hq])
        simp only [Option.some.inj (hend.symm.trans h)]
      | some quote =>
        -- Either the bracket comes first, or a quoted text is passed over and the search goes on.
        by_cases hlt : bracket < quote
        · have hend := bracketEnd_of_distance hb (by simpa [hq] using hlt)
          rcases Option.some.inj (hend.symm.trans h) with rfl
          simp only [if_pos hlt]
        · have hend := bracketEnd_of_quote hq (by simp only [hb, Option.some.injEq]; omega)
          simp only [if_neg hlt]
          cases hs : Text.distance '"' (t.drop (quote + 1)) with
          | none =>
            have hnone := bracketEnd_quoted_of_notMem (Text.distance_eq_none_iff.mp hs)
            rw [hend, hnone] at h
            simp at h
          | some size =>
            rcases Text.distance_eq_some_iff.mp hs with ⟨u, v, huv, hu, hlen⟩
            have hv : t.drop (quote + 1 + size + 1) = v := by
              rw [Nat.add_assoc, ← List.drop_drop, huv, ← hlen, List.drop_append,
                List.drop_eq_nil_of_le (by omega)]
              simp
            have hlt' : v.length < budget := by
              have := congrArg List.length hv
              rw [List.length_drop] at this
              have := Text.distance_lt_length hq
              omega
            rw [hend, huv, bracketEnd_quoted hu] at h
            rcases Option.map_eq_some_iff.mp h with ⟨i, hi, hin⟩
            rcases Option.map_eq_some_iff.mp hi with ⟨j, hj, hji⟩
            simp only [hv, ih (read + (quote + 1 + size + 1)) hlt' hj, Option.some.injEq]
            omega

/-- A tag ends at the first closing bracket outside double quotes. -/
theorem tagEnd_of_bracketEnd (start : Nat) (h : bracketEnd false t = some n) :
    Id.run (tagEnd start t) = some n := by
  have hrun := tagEndFrom_of_bracketEnd start t (t.length + 1) 0 (by omega) h
  rw [Nat.zero_add] at hrun
  exact hrun

/-- Wherever a tag ends, a closing bracket stands there. -/
theorem getElem?_tagEndFrom (start : Nat) (all : Text) (budget read : Nat)
    (ht : t = all.drop read) (h : Id.run (tagEndFrom start all budget read t) = some n) :
    all[n]? = some ']' := by
  have hat : ∀ {u : Text} {i : Nat}, Text.distance ']' u = some i → u[i]? = some ']' := by
    intro u i hi
    rcases Text.distance_eq_some_iff.mp hi with ⟨a, b, rfl, -, rfl⟩
    simp
  induction budget generalizing t read with
  | zero => exact absurd h (by simp [tagEndFrom])
  | succ budget ih =>
    rw [tagEndFrom_succ] at h
    split at h
    · simp at h
    · next bracket hb =>
      have hhere : all[read + bracket]? = some ']' := by
        rw [← List.getElem?_drop, ← ht]
        exact hat hb
      split at h
      · rwa [← Option.some.inj h]
      · next quote hq =>
        split at h
        · rwa [← Option.some.inj h]
        · split at h
          · exact hat h
          · next size hs =>
            refine ih (read + (quote + 1 + size + 1)) ?_ h
            rw [ht, List.drop_drop]

end BracketEnd

/-! ## Covered text -/

section Spans

variable {t rest : Text} {k : Cursor}

theorem runTail_prefix (indent : Bool) (t : Text) : ∃ later, t = runTail indent t ++ later := by
  induction t generalizing indent with
  | nil => exact ⟨[], rfl⟩
  | cons c cs ih =>
    unfold runTail
    split
    · exact ⟨c :: cs, rfl⟩
    · split
      · exact ⟨c :: cs, rfl⟩
      · split
        · exact ⟨c :: cs, rfl⟩
        · rcases ih (indent && Text.isIndent c) with ⟨later, hlater⟩
          exact ⟨later, by rw [List.cons_append, ← hlater]⟩

/-- A reading covers a beginning of the text, and not an empty one. -/
def Reading.Covers (r : Reading) (t : Text) : Prop := r.span ≠ [] ∧ ∃ later, t = r.span ++ later

theorem Reading.Covers.ite {r s : Reading} {p : Prop} [Decidable p] (hr : r.Covers t)
    (hs : s.Covers t) : (if p then r else s).Covers t := by
  split
  · exact hr
  · exact hs

theorem covers_plain (hrest : rest ≠ []) (breach : Option Breach) :
    (plain k rest breach).Covers rest := by
  cases rest with
  | nil => exact absurd rfl hrest
  | cons c cs =>
    refine ⟨by simp [plain, plainRun, Reading.span], ?_⟩
    rcases runTail_prefix (Text.isIndent c && k.fresh) cs with ⟨later, hlater⟩
    refine ⟨later, ?_⟩
    simp only [plain, plainRun, Reading.span, List.cons_append]
    rw [← hlater]

theorem takeWhile_eq_replicate (t : Text) :
    t.takeWhile (· == '#') = List.replicate (t.takeWhile (· == '#')).length '#' := by
  refine List.eq_replicate_iff.mpr ⟨rfl, ?_⟩
  intro c hc
  have hall := List.all_takeWhile (p := (· == '#')) (l := t)
  simpa using List.all_eq_true.mp hall c hc

theorem covers_readHeading (hhead : rest.head? = some '#') :
    (readHeading k rest).Covers rest := by
  have hrest : rest ≠ [] := fun h => by simp [h] at hhead
  have hlevel : (rest.takeWhile (· == '#')).length ≠ 0 := by
    cases rest with
    | nil => exact absurd rfl hrest
    | cons c cs => simp [Option.some.inj hhead]
  rw [readHeading]
  refine Reading.Covers.ite ⟨by simp [Reading.span, hlevel], ?_⟩ (covers_plain hrest none)
  refine ⟨(rest.drop (rest.takeWhile (· == '#')).length).drop
    (Text.lineLength (rest.drop (rest.takeWhile (· == '#')).length)), ?_⟩
  simp only [Reading.span]
  rw [← takeWhile_eq_replicate, List.append_assoc, List.take_append_drop,
    Text.drop_length_takeWhile, List.takeWhile_append_dropWhile]

/-- Text up to a character, that character, and what follows it. -/
theorem eq_take_append_of_distance {c : Char} {n : Nat} (h : Text.distance c t = some n) :
    t = t.take n ++ c :: t.drop (n + 1) := by
  rcases Text.distance_eq_some_iff.mp h with ⟨a, b, rfl, -, rfl⟩
  simp

theorem covers_readIdMarker (hrest : rest = '{' :: '#' :: t) :
    (readIdMarker k rest).Covers rest := by
  have hne : rest ≠ [] := by simp [hrest]
  rw [readIdMarker]
  cases hd : Text.distance '}' (rest.drop 2) with
  | none => exact covers_plain hne _
  | some size =>
    refine Reading.Covers.ite (covers_plain hne _) ⟨by simp [Reading.span], ?_⟩
    have hinner : rest.drop 2 = t := by rw [hrest]; rfl
    rw [hinner] at hd
    refine ⟨t.drop (size + 1), ?_⟩
    simp only [Reading.span, hinner, List.cons_append, List.append_assoc, List.nil_append]
    rw [← eq_take_append_of_distance hd, hrest]

theorem drop_of_styleClasses? {classes : Text} (h : styleClasses? rest = some classes) :
    ∃ later, rest.drop styleHead.length = '"' :: (classes ++ '"' :: '}' :: later) := by
  unfold styleClasses? at h
  split at h
  · next u hu =>
    dsimp only at h
    split at h
    · next hend =>
      rcases Option.some.inj h with rfl
      rcases List.isPrefixOf_iff_prefix.mp hend with ⟨later, hlater⟩
      refine ⟨later, ?_⟩
      have htail : '"' :: '}' :: later = u.dropWhile fun c => c != '"' && c != '\n' := by
        rw [← Text.drop_length_takeWhile, ← hlater]
        rfl
      rw [hu, htail, List.takeWhile_append_dropWhile]
    · simp at h
  · simp at h

theorem covers_readStyleMarker (hhead : styleHead.isPrefixOf rest = true) :
    (readStyleMarker k rest).Covers rest := by
  rcases List.isPrefixOf_iff_prefix.mp hhead with ⟨t, rfl⟩
  have hne : styleHead ++ t ≠ [] := by simp [styleHead]
  rw [readStyleMarker]
  cases hc : styleClasses? (styleHead ++ t) with
  | none => exact covers_plain hne _
  | some classes =>
    rcases drop_of_styleClasses? hc with ⟨later, hlater⟩
    rw [List.drop_left] at hlater
    refine ⟨by simp [Reading.span, styleHead], later, ?_⟩
    simp [Reading.span, hlater]

theorem drop_of_imageParts? {description source : Text}
    (h : imageParts? rest = some (description, source)) :
    ∃ later, rest.drop 2 = description ++ ']' :: '(' :: (source ++ ')' :: later) := by
  unfold imageParts? at h
  dsimp only at h
  split at h
  · next u hu =>
    split at h
    · next hend =>
      rcases Prod.mk.inj (Option.some.inj h) with ⟨rfl, rfl⟩
      rw [Text.drop_length_takeWhile] at hu hend
      obtain ⟨later, hlater⟩ : ∃ later,
          (u.dropWhile fun c => c != ')' && c != '\n') = ')' :: later := by
        cases hv : u.dropWhile fun c => c != ')' && c != '\n' with
        | nil => simp [hv] at hend
        | cons d ds =>
          rw [hv, List.head?_cons, Option.some.injEq] at hend
          exact ⟨ds, by rw [hend]⟩
      refine ⟨later, ?_⟩
      rw [← hlater, List.takeWhile_append_dropWhile, ← hu, List.takeWhile_append_dropWhile]
    · simp at h
  · simp at h

theorem covers_image (hrest : rest = '!' :: '[' :: t) {description source : Text}
    (h : imageParts? rest = some (description, source)) :
    (Reading.image description source).Covers rest := by
  rcases drop_of_imageParts? h with ⟨later, hlater⟩
  have hdrop : rest.drop 2 = t := by rw [hrest]; rfl
  refine ⟨by simp [Reading.span], later, ?_⟩
  rw [hrest, ← hdrop, hlater]
  simp [Reading.span]

theorem covers_readReference (hrest : rest ≠ []) :
    (readReference k rest).Covers rest := by
  rw [readReference]
  cases braceDistance 0 rest with
  | none => exact covers_plain hrest _
  | some size =>
    refine ⟨?_, rest.drop (size + 1), (List.take_append_drop (size + 1) rest).symm⟩
    simpa [Reading.span] using hrest

theorem covers_readTag (hrest : rest = '[' :: t) : (readTag k rest).Covers rest := by
  have hne : rest ≠ [] := by simp [hrest]
  have hdrop : rest.drop 1 = t := by rw [hrest]; rfl
  rw [readTag, hdrop]
  cases hd : Id.run (tagEnd k.offset t) with
  | none => exact covers_plain hne _
  | some size =>
    have hat : t[size]? = some ']' := getElem?_tagEndFrom k.offset t (t.length + 1) 0 rfl hd
    refine ⟨by simp [Reading.span], t.drop (size + 1), ?_⟩
    rcases List.getElem?_eq_some_iff.mp hat with ⟨hlt, hget⟩
    have hsplit : t = t.take size ++ ']' :: t.drop (size + 1) := by
      rw [← hget, ← List.drop_eq_getElem_cons hlt, List.take_append_drop]
    simp only [Reading.span, List.cons_append, List.append_assoc, List.nil_append]
    rw [← hsplit, hrest]

theorem covers_readBold (hrest : rest = '*' :: '*' :: t) :
    (readBold k rest).Covers rest := by
  have hne : rest ≠ [] := by simp [hrest]
  have hdrop : rest.drop 2 = t := by rw [hrest]; rfl
  rw [readBold, hdrop]
  cases hd : Text.distanceTo ['*', '*'] t with
  | none => exact covers_plain hne _
  | some size =>
    refine Reading.Covers.ite (covers_plain hne _) ⟨by simp [Reading.span], ?_⟩
    rcases Text.eq_take_append_of_distanceTo hd with ⟨later, hlater⟩
    refine ⟨later, ?_⟩
    simp only [Reading.span, List.cons_append, List.append_assoc]
    simp only [List.cons_append] at hlater
    rw [← hlater, hrest]

theorem covers_readItalic (hrest : rest = '*' :: t) :
    (readItalic k rest).Covers rest := by
  have hne : rest ≠ [] := by simp [hrest]
  have hdrop : rest.drop 1 = t := by rw [hrest]; rfl
  rw [readItalic, hdrop]
  refine Reading.Covers.ite (covers_plain hne _) ?_
  cases hd : Text.distance '*' t with
  | none => exact covers_plain hne _
  | some size =>
    refine Reading.Covers.ite (covers_plain hne _) (Reading.Covers.ite (covers_plain hne _) ?_)
    refine ⟨by simp [Reading.span], t.drop (size + 1), ?_⟩
    simp only [Reading.span, List.cons_append, List.append_assoc, List.nil_append]
    rw [← eq_take_append_of_distance hd, hrest]

/-- Whatever stands at a cursor covers a beginning of the text from there on. -/
theorem readAt_covers (k : Cursor) (hrest : rest ≠ []) : (readAt k rest).Covers rest := by
  unfold readAt
  split
  · next t => exact ⟨by simp [Reading.span], t, rfl⟩
  · exact Reading.Covers.ite (covers_readHeading rfl) (covers_plain hrest _)
  · exact covers_readIdMarker rfl
  · next t _ =>
    by_cases hstyle : styleHead.isPrefixOf ('{' :: t) = true
    · rw [if_pos hstyle]
      exact covers_readStyleMarker hstyle
    · rw [if_neg hstyle]
      exact Reading.Covers.ite (covers_readReference hrest) (covers_plain hrest _)
  · split
    · next himage => exact covers_image rfl himage
    · exact covers_plain hrest _
  · exact covers_readTag rfl
  · exact covers_readBold rfl
  · exact covers_readItalic rfl
  · exact covers_plain hrest _

end Spans

/-! ## Reading on -/

namespace Cursor

theorem step_offset (k : Cursor) (c : Char) : (k.step c).offset = k.offset + 1 := rfl

theorem advance_cons (k : Cursor) (c : Char) (t : Text) :
    k.advance (c :: t) = (k.step c).advance t := rfl

theorem advance_append (k : Cursor) (a b : Text) : k.advance (a ++ b) = (k.advance a).advance b :=
  List.foldl_append

theorem offset_advance (k : Cursor) (t : Text) : (k.advance t).offset = k.offset + t.length := by
  induction t generalizing k with
  | nil => rfl
  | cons c cs ih =>
    rw [advance_cons, ih, step_offset, List.length_cons]
    omega

end Cursor

/-- Passing over covered characters moves the cursor. -/
theorem readFrom_covered (covered : Nat) (k : Cursor) (t : Text) :
    readFrom covered k t = readFrom 0 (k.advance (t.take covered)) (t.drop covered) := by
  induction t generalizing covered k with
  | nil => rw [List.take_nil, List.drop_nil, readFrom, readFrom]
  | cons c cs ih =>
    cases covered with
    | zero => rfl
    | succ covered => exact ih covered (k.step c)

theorem Reading.Covers.take {r : Reading} {t : Text} (h : r.Covers t) :
    t.take r.span.length = r.span := by
  rcases h with ⟨-, later, hlater⟩
  rw [hlater, List.take_left]

/-- One reading, then the text behind it. -/
theorem readFrom_step (k : Cursor) {t : Text} (ht : t ≠ []) :
    readFrom 0 k t =
      ⟨k.offset, readAt k t⟩ ::
        readFrom 0 (k.advance (readAt k t).span) (t.drop (readAt k t).span.length) := by
  have hcovers := readAt_covers k ht
  have hsize : (readAt k t).span.length - 1 + 1 = (readAt k t).span.length := by
    have := List.length_pos_iff.mpr hcovers.1
    omega
  cases t with
  | nil => exact absurd rfl ht
  | cons c cs =>
    have hnext : readFrom ((readAt k (c :: cs)).span.length - 1) (k.step c) cs =
        readFrom 0 (k.advance ((c :: cs).take ((readAt k (c :: cs)).span.length - 1 + 1)))
          ((c :: cs).drop ((readAt k (c :: cs)).span.length - 1 + 1)) :=
      readFrom_covered _ (k.step c) cs
    rw [hsize, hcovers.take] at hnext
    rw [← hnext]
    rfl

/-! ## Scans -/

/-- Readings one behind the other, each with the offset of its first character. -/
def place (offset : Nat) : List Reading → List Placed
  | [] => []
  | r :: rs => ⟨offset, r⟩ :: place (offset + r.span.length) rs

theorem map_reading_place (offset : Nat) (rs : List Reading) :
    (place offset rs).map (·.reading) = rs := by
  induction rs generalizing offset with
  | nil => rfl
  | cons r rs ih => rw [place, List.map_cons, ih]

/-- Scanning from a cursor gives these readings and leaves the rest. The rest is part of the text
that is read, so that no reading can be cut short by joining two scans. -/
inductive Scans : Cursor → Text → List Reading → Text → Prop where
  | done (k : Cursor) (t : Text) : Scans k t [] t
  | step {k : Cursor} {r : Reading} {t rest : Text} {rs : List Reading} :
      r.span ≠ [] → readAt k (r.span ++ t) = r → Scans (k.advance r.span) t rs rest →
        Scans k (r.span ++ t) (r :: rs) rest

namespace Scans

variable {k : Cursor} {t rest : Text} {rs : List Reading}

/-- A scan of one reading. -/
theorem one {r : Reading} (hne : r.span ≠ []) (hread : readAt k (r.span ++ t) = r) :
    Scans k (r.span ++ t) [r] t :=
  .step hne hread (.done _ t)

theorem append {rs' : List Reading} {rest' : Text} (h : Scans k t rs rest)
    (h' : Scans (k.advance (rs.flatMap Reading.span)) rest rs' rest') :
    Scans k t (rs ++ rs') rest' := by
  induction h with
  | done k t => exact h'
  | step hne hread _ ih =>
    refine .step hne hread (ih ?_)
    rwa [List.flatMap_cons, Cursor.advance_append] at h'

/-- Scanning to the end of a text gives all its readings. -/
theorem readFrom_eq (h : Scans k t rs []) : readFrom 0 k t = place k.offset rs := by
  generalize hrest : ([] : Text) = rest at h
  induction h with
  | done k t =>
    subst hrest
    rfl
  | @step k r t rest rs hne hread _ ih =>
    have ht : r.span ++ t ≠ [] := by simp [hne]
    rw [readFrom_step k ht, hread, List.drop_left, ih hrest, Cursor.offset_advance]
    rfl

/-- Every text can be scanned to its end. -/
theorem total (k : Cursor) (t : Text) : ∃ rs, Scans k t rs [] := by
  induction hn : t.length using Nat.strongRecOn generalizing k t with
  | ind n ih =>
    by_cases ht : t = []
    · exact ⟨[], ht ▸ .done k []⟩
    -- A reading covers something, so what is left is shorter.
    · rcases readAt_covers k ht with ⟨hne, later, hlater⟩
      have hlen : later.length < n := by
        have hpos := List.length_pos_iff.mpr hne
        have hsum := congrArg List.length hlater
        rw [List.length_append] at hsum
        omega
      rcases ih later.length hlen (k.advance (readAt k t).span) later rfl with ⟨rs, hrs⟩
      refine ⟨readAt k t :: rs, ?_⟩
      have hread : readAt k ((readAt k t).span ++ later) = readAt k t := by rw [← hlater]
      have hstep := Scans.step hne hread hrs
      rwa [← hlater] at hstep

/-- Each reading of a scan is what stands at its offset. -/
theorem exists_readAt {content : Text} (h : Scans k t rs rest) (ht : t = content.drop k.offset) :
    ∀ p ∈ place k.offset rs, content.drop p.offset ≠ [] ∧
      ∃ k', readAt k' (content.drop p.offset) = p.reading := by
  induction h with
  | done k t => simp [place]
  | @step k r t rest rs hne hread _ ih =>
    intro p hp
    rcases List.mem_cons.mp hp with rfl | hp
    · rw [← ht]
      exact ⟨by simp [hne], k, hread⟩
    · rw [← Cursor.offset_advance] at hp
      refine ih ?_ p hp
      rw [Cursor.offset_advance, ← List.drop_drop, ← ht, List.drop_left]

end Scans

/-- The readings of a text are the readings of a scan to its end. -/
theorem exists_scans_readings (t : Text) :
    ∃ rs, Scans {} t rs [] ∧ readings t = place 0 rs := by
  rcases Scans.total {} t with ⟨rs, hrs⟩
  refine ⟨rs, hrs, ?_⟩
  exact hrs.readFrom_eq

/-- Each reading of a text is what stands at its offset. -/
theorem exists_readAt_of_mem_readings {t : Text} {p : Placed} (h : p ∈ readings t) :
    t.drop p.offset ≠ [] ∧ ∃ k, readAt k (t.drop p.offset) = p.reading := by
  rcases exists_scans_readings t with ⟨rs, hrs, hread⟩
  rw [hread] at h
  exact hrs.exists_readAt rfl p h

/-- Each reading of a text covers the text at its offset. -/
theorem covers_of_mem_readings {t : Text} {p : Placed} (h : p ∈ readings t) :
    p.reading.Covers (t.drop p.offset) := by
  rcases exists_readAt_of_mem_readings h with ⟨hne, k, hk⟩
  exact hk ▸ readAt_covers k hne

end Notemark.Body
