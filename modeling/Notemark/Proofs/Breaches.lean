import Notemark.Proofs.Coverage

/-!
# Broken constructs

What a reading says about the text that it was read from, where that text need not be well formed:

* `Breach.Fits`: the text really begins with a construct that is broken in the given way,
* `Reading.Fits`: the same for the breach of a reading; a reference ends with its closing brace,
* `readAt_fits`: every reading fits the text at its cursor,
* `enclosed_of_fits`: the braces of a reference balance, and not before its end.
-/

namespace Notemark.Body

/-- The text begins with a construct that is broken. The rest of a line is what stands before the
next line feed. -/
def Breach.Fits (t : Text) : Breach → Prop
  | idMarker => ['{', '#'] <+: t ∧ '}' ∉ t.take (Text.lineLength t)
  | styleMarker line =>
    styleHead <+: t ∧ styleClasses? t = none ∧ line = t.take (Text.lineLength t)
  | reference line =>
    isReference t = true ∧ braceDistance 0 t = none ∧ line = t.take (Text.lineLength t)
  | tag => t.head? = some '[' ∧ bracketEnd false (t.drop 1) = none

/-- A broken construct is the one that stands there, and a reference ends with the brace that closes
its first one. -/
def Reading.Fits (t : Text) : Reading → Prop
  | reference raw =>
    isReference t = true ∧ ∃ size, braceDistance 0 t = some size ∧ raw = t.take (size + 1)
  | text _ (some breach) => breach.Fits t
  | _ => True

section Fits

variable {k : Cursor} {t rest : Text} {r r' : Reading}

theorem Reading.Fits.ite {p : Prop} [Decidable p] (hr : p → r.Fits t) (hr' : ¬ p → r'.Fits t) :
    (if p then r else r').Fits t := by
  split
  · next hp => exact hr hp
  · next hp => exact hr' hp

theorem fits_plain (k : Cursor) (t : Text) : (plain k t none).Fits t := trivial

theorem fits_readHeading : (readHeading k rest).Fits rest := by
  rw [readHeading]
  exact .ite (fun _ => trivial) fun _ => fits_plain k rest

theorem fits_readIdMarker (hrest : rest = '{' :: '#' :: t) :
    (readIdMarker k rest).Fits rest := by
  have hhead : ['{', '#'] <+: rest := hrest ▸ List.prefix_append ['{', '#'] t
  rw [readIdMarker]
  cases hd : Text.distance '}' (rest.drop 2) with
  | none =>
    refine ⟨hhead, fun hmem => ?_⟩
    have hnone := Text.distance_eq_none_iff.mp hd
    have hrest' := List.mem_of_mem_take hmem
    subst hrest
    simp only [List.drop_succ_cons, List.drop_zero] at hnone
    simp [hnone] at hrest'
  | some size =>
    refine .ite (fun hsize => ⟨hhead, fun hmem => ?_⟩) fun _ => trivial
    rcases Text.distance_eq_some_iff.mp hd with ⟨a, b, hab, hfree, rfl⟩
    -- The line ends before the brace.
    have hall : rest = ('{' :: '#' :: a) ++ '}' :: b := by
      subst hrest
      simpa using hab
    have hline : Text.lineLength rest ≤ ('{' :: '#' :: a).length := by
      simpa using Nat.le_of_lt hsize
    rw [hall, List.take_append_of_le_length (hall ▸ hline)] at hmem
    have hbefore := List.mem_of_mem_take hmem
    simp [hfree] at hbefore

theorem fits_readStyleMarker (hhead : styleHead.isPrefixOf rest = true) :
    (readStyleMarker k rest).Fits rest := by
  rw [readStyleMarker]
  split
  · trivial
  · next hnone => exact ⟨List.isPrefixOf_iff_prefix.mp hhead, hnone, rfl⟩

theorem fits_readReference (hrest : isReference rest = true) :
    (readReference k rest).Fits rest := by
  rw [readReference]
  split
  · next size hsize => exact ⟨hrest, size, hsize, rfl⟩
  · next hnone => exact ⟨hrest, hnone, rfl⟩

theorem fits_readTag (hrest : rest = '[' :: t) : (readTag k rest).Fits rest := by
  rw [readTag]
  split
  · trivial
  · next hnone =>
    refine ⟨by rw [hrest]; rfl, ?_⟩
    cases hend : bracketEnd false (rest.drop 1) with
    | none => rfl
    | some n =>
      rw [tagEnd_of_bracketEnd k.offset hend] at hnone
      simp at hnone

theorem fits_readBold : (readBold k rest).Fits rest := by
  rw [readBold]
  split
  · exact fits_plain k rest
  · exact .ite (fun _ => fits_plain k rest) fun _ => trivial

theorem fits_readItalic : (readItalic k rest).Fits rest := by
  rw [readItalic]
  refine .ite (fun _ => fits_plain k rest) fun _ => ?_
  split
  · exact fits_plain k rest
  · refine .ite (fun _ => fits_plain k rest) fun _ => ?_
    exact .ite (fun _ => fits_plain k rest) fun _ => trivial

/-- Whatever is read at a cursor fits the text from there on. -/
theorem readAt_fits (k : Cursor) (rest : Text) : (readAt k rest).Fits rest := by
  unfold readAt
  split
  · trivial
  · exact .ite (fun _ => fits_readHeading) fun _ => fits_plain k _
  · exact fits_readIdMarker rfl
  · refine .ite fits_readStyleMarker fun _ => ?_
    exact .ite fits_readReference fun _ => fits_plain k _
  · split
    · trivial
    · exact fits_plain k _
  · exact fits_readTag rfl
  · exact fits_readBold
  · exact fits_readItalic
  · exact fits_plain k _

end Fits

theorem fits_of_mem_readings {content : Text} {p : Placed} (h : p ∈ readings content) :
    p.reading.Fits (content.drop p.offset) := by
  rcases exists_readAt_of_mem_readings h with ⟨-, k, hk⟩
  exact hk ▸ readAt_fits k _

/-! ## The braces of a reference -/

/-- The braces of a text up to the one that brings the depth to zero: they are on one line, they
balance together with the depth, and no earlier brace does so. -/
structure Closes (depth : Nat) (t : Text) : Prop where
  line : '\n' ∉ t
  balanced : t.count '}' = t.count '{' + depth
  nested : ∀ before after, t = before ++ after → after ≠ [] →
    before.count '}' < before.count '{' + depth

section Closes

variable {depth : Nat} {c : Char} {t : Text}

theorem closes_brace : Closes 1 ['}'] where
  line := by decide
  balanced := by decide
  nested := by
    intro before after hsplit hafter
    cases before with
    | nil => simp
    | cons d ds =>
      have hnil : ds ++ after = [] := (List.cons.inj hsplit).2.symm
      exact absurd (List.append_eq_nil_iff.mp hnil).2 hafter

theorem count_cons_split (c d : Char) (t : Text) :
    (c :: t).count d = [c].count d + t.count d := by
  rw [← List.count_append, List.singleton_append]

/-- One character more at the beginning, which makes the depth what it was. -/
theorem Closes.cons {depth' : Nat} (h : Closes depth' t) (hline : c ≠ '\n') (hdepth : 0 < depth)
    (hcount : [c].count '}' + depth' = [c].count '{' + depth) : Closes depth (c :: t) := by
  refine ⟨by simp [h.line, hline.symm], ?_, ?_⟩
  · have hbalanced := h.balanced
    rw [count_cons_split c '}' t, count_cons_split c '{' t]
    omega
  · intro before after hall hafter
    cases before with
    | nil => simpa using hdepth
    | cons d ds =>
      rcases List.cons.inj hall with ⟨rfl, hrest⟩
      have hnested := h.nested ds after hrest hafter
      rw [count_cons_split c '}' ds, count_cons_split c '{' ds]
      omega

/-- The search for a closing brace finds the first place where the depth is zero. -/
theorem closes_of_braceDistance {size : Nat} (h : braceDistance (depth + 1) t = some size) :
    Closes (depth + 1) (t.take (size + 1)) := by
  -- Each character leaves a depth from which the search goes on, so `Closes.cons` adds it in front.
  induction t generalizing depth size with
  | nil => simp [braceDistance] at h
  | cons c cs ih =>
    unfold braceDistance at h
    split at h
    · simp at h
    · next hline =>
      split at h
      · next hopen =>
        rcases Option.map_eq_some_iff.mp h with ⟨n, hn, rfl⟩
        exact (ih hn).cons hline (Nat.succ_pos depth) (by rw [hopen]; simp; omega)
      · next hopen =>
        split at h
        · next hclose =>
          split at h
          · next hlast =>
            obtain rfl : depth = 0 := by omega
            rw [← Option.some.inj h, hclose]
            exact closes_brace
          · next hlast =>
            obtain ⟨d, rfl⟩ : ∃ d, depth = d + 1 := ⟨depth - 1, by omega⟩
            rcases Option.map_eq_some_iff.mp h with ⟨n, hn, rfl⟩
            exact (ih hn).cons hline (Nat.succ_pos _) (by rw [hclose]; simp; omega)
        · next hclose =>
          rcases Option.map_eq_some_iff.mp h with ⟨n, hn, rfl⟩
          have hother : [c].count '}' = 0 ∧ [c].count '{' = 0 := by
            simp [hopen, hclose]
          exact (ih hn).cons hline (Nat.succ_pos depth) (by omega)

/-- The braces of a text balance on one line, and not before its end. -/
structure Enclosed (t : Text) : Prop where
  line : '\n' ∉ t
  balanced : t.count '{' = t.count '}'
  nested : ∀ before after, t = before ++ after → before ≠ [] → after ≠ [] →
    before.count '}' < before.count '{'

theorem Closes.enclosed (h : Closes 1 t) : Enclosed ('{' :: t) := by
  have hcount : ∀ u : Text, ('{' :: u).count '{' = u.count '{' + 1 ∧
      ('{' :: u).count '}' = u.count '}' := by simp
  refine ⟨?_, ?_, ?_⟩
  · simpa using h.line
  · rw [(hcount t).1, (hcount t).2, h.balanced]
  · intro before after hsplit hbefore hafter
    cases before with
    | nil => exact absurd rfl hbefore
    | cons d ds =>
      rcases List.cons.inj hsplit with ⟨rfl, hrest⟩
      rw [(hcount ds).1, (hcount ds).2]
      exact h.nested ds after hrest hafter

end Closes

/-- A reference begins with a brace and a character that is no blank and no brace. -/
theorem cons_of_isReference {t : Text} (h : isReference t = true) :
    ∃ c u, t = '{' :: c :: u ∧ Text.isBlank c = false ∧ c ≠ '}' := by
  unfold isReference at h
  split at h
  · next u =>
    rcases List.any_eq_true.mp h with ⟨head, hhead, hprefix⟩
    rcases List.isPrefixOf_iff_prefix.mp hprefix with ⟨later, rfl⟩
    have hheads : ∀ head ∈ referenceHeads, ∃ c cs, head = c :: cs ∧ Text.isBlank c = false ∧
        c ≠ '}' := by
      simp [referenceHeads]
      decide
    rcases hheads head hhead with ⟨c, cs, rfl, hc⟩
    exact ⟨c, cs ++ later, rfl, hc⟩
  · simp at h

/-- A reference ends with the brace that closes its first one. -/
theorem enclosed_of_fits {t raw : Text} (h : (Reading.reference raw).Fits t) :
    Enclosed raw ∧ ∃ c u, raw = '{' :: c :: u ∧ Text.isBlank c = false ∧ c ≠ '}' := by
  rcases h with ⟨href, size, hsize, rfl⟩
  rcases cons_of_isReference href with ⟨c, u, rfl, hc⟩
  have hopen : braceDistance 0 ('{' :: c :: u) = (braceDistance 1 (c :: u)).map (· + 1) := rfl
  rw [hopen] at hsize
  rcases Option.map_eq_some_iff.mp hsize with ⟨n, hn, rfl⟩
  exact ⟨(closes_of_braceDistance hn).enclosed, c, u.take n, rfl, hc⟩

end Notemark.Body
