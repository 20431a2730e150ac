import Notemark.Proofs.Coverage
import Notemark.Proofs.Lookahead

/-!
# Scanners and readings

A scanner takes what stands at the cursor, all of it, and in strict mode it gives up if and only if
a review of that reading finds a fault.

* `judge`: what a mode says of a reading,
* `taking`: what is taken if a reading stands at the cursor,
* `headingScan_alone` and so on: the scanner of each construct, where no other one begins,
* `scanAfresh_eq`: the scanners together take the reading at the cursor.
-/

namespace Notemark.Body

/-- Lenient mode judges nothing. -/
def judge (mode : Mode) (map : SourceMap) (stack : TagStack Container) (p : Placed) :
    Except ScanError (TagStack Container) :=
  match mode with
  | .lenient => .ok stack
  | .strict => reviewStep map stack p

/-- All of a reading is taken, if it is not refused. -/
def taking (mode : Mode) (map : SourceMap) (stack : TagStack Container) (p : Placed) :
    Except ScanError Taken :=
  (judge mode map stack p).map fun stack => ⟨p.reading.span.length, p.reading.output, stack⟩

section Scanners

variable {mode : Mode} {map : SourceMap} {stack : TagStack Container} {k : Cursor} {rest t : Text}

/-- What is taken if no other scanner begins at the cursor: what this one leaves is plain text. -/
def alone (stack : TagStack Container) (k : Cursor) (rest : Text) (scan : Afresh (Option Taken)) :
    Except ScanError Taken :=
  (Id.run scan.run).map fun taken? => taken?.getD (textScan stack k rest)

/-- What no scanner takes is plain text. -/
theorem alone_none : alone stack k rest (pure none) =
    taking mode map stack ⟨k.offset, plain k rest none⟩ := by
  cases mode <;> rfl

theorem taking_breach (breach : Breach) :
    taking mode map stack ⟨k.offset, plain k rest (some breach)⟩ =
      (mode.demand (checkBreach map k.offset breach)).map fun _ => textScan stack k rest := by
  cases mode with
  | lenient => rfl
  | strict =>
    change Except.map _ (checkBreach map k.offset breach >>= fun _ => .ok stack) = _
    cases checkBreach map k.offset breach <;> rfl

/-- A scanner that only refuses leaves plain text. -/
theorem alone_refusal (r : Except ScanError Unit) :
    alone stack k rest (ofExcept r >>= fun _ => pure none) =
      r.map fun _ => textScan stack k rest := by
  cases r <;> rfl

/-- A reading of which no rule speaks is taken by its length. -/
theorem alone_taken {r : Reading} {size : Nat} (hsize : r.span.length = size)
    (hfree : reviewStep map stack ⟨k.offset, r⟩ = .ok stack) :
    alone stack k rest (pure (some ⟨size, r.output, stack⟩)) =
      taking mode map stack ⟨k.offset, r⟩ := by
  have hjudge : judge mode map stack ⟨k.offset, r⟩ = .ok stack := by
    cases mode with
    | lenient => rfl
    | strict => exact hfree
  rw [taking, hjudge, hsize]
  rfl

theorem length_take_lineLength (t : Text) :
    (t.take (Text.lineLength t)).length = Text.lineLength t := by
  unfold Text.lineLength
  cases hd : Text.distance '\n' t with
  | none => simp
  | some n =>
    have hlt := Text.distance_lt_length hd
    rw [Option.getD_some, List.length_take]
    omega

theorem headingScan_alone (hhead : rest.head? = some '#') (hfresh : k.fresh = true) :
    alone stack k rest (headingScan stack k rest) =
      taking mode map stack ⟨k.offset, readHeading k rest⟩ := by
  unfold headingScan readHeading
  rw [if_pos (by simp [hhead, hfresh])]
  generalize (rest.takeWhile (· == '#')).length = level
  dsimp only
  by_cases htitle : (decide (level ≤ 6) && endsSigns (rest.drop level)) = true
  · rw [if_pos htitle, if_pos htitle]
    have hsize : (Reading.heading level ((rest.drop level).take
        (Text.lineLength (rest.drop level)))).span.length =
          level + Text.lineLength (rest.drop level) := by
      rw [Reading.span, List.length_append, List.length_replicate, length_take_lineLength]
    exact alone_taken hsize rfl
  · rw [if_neg htitle, if_neg htitle]
    exact alone_none

/-- The id of a marker ends at the first closing brace, which must stand on the same line. -/
theorem idLength_afresh : (idLength k rest : Afresh (Option Nat)) =
    pure (match Text.distance '}' (rest.drop 2) with
      | none => none
      | some size => if size + 2 > Text.lineLength rest then none else some size) := by
  unfold idLength
  change (match Text.distance '}' (rest.drop 2) with
    | none => pure none
    | some size => if size + 2 > Text.lineLength rest then pure none else pure (some size) :
      Afresh (Option Nat)) = _
  cases Text.distance '}' (rest.drop 2) with
  | none => rfl
  | some size =>
    dsimp only
    split <;> rfl

theorem idMarkerScan_alone (hhead : ['{', '#'].isPrefixOf rest = true) :
    alone stack k rest (idMarkerScan mode map stack k rest) =
      taking mode map stack ⟨k.offset, readIdMarker k rest⟩ := by
  have hopen : alone stack k rest
      (ofExcept (mode.demand (report map k.offset (.error .unterminatedIdMarker))) >>= fun _ =>
        pure none) = taking mode map stack ⟨k.offset, plain k rest (some .idMarker)⟩ := by
    rw [alone_refusal, taking_breach]
    rfl
  unfold idMarkerScan readIdMarker
  rw [if_pos hhead, idLength_afresh]
  cases hd : Text.distance '}' (rest.drop 2) with
  | none => exact hopen
  | some size =>
    rw [pure_bind]
    dsimp only
    by_cases hline : size + 2 > Text.lineLength rest
    · rw [if_pos hline, if_pos hline]
      exact hopen
    · rw [if_neg hline, if_neg hline]
      have hsize : (Reading.idMarker ((rest.drop 2).take size)).span.length = size + 3 := by
        have hlt := Text.distance_lt_length hd
        simp only [Reading.span, List.length_cons, List.length_append, List.length_take,
          List.length_nil]
        omega
      unfold taking judge reviewStep Placed.check Reading.output Reading.token?
      rw [hsize]
      dsimp only
      by_cases hid : (Text.strip ((rest.drop 2).take size)).isEmpty = true
      · rw [if_pos hid, if_pos hid, if_pos hid]
        cases mode <;> rfl
      · rw [if_neg hid, if_neg hid, if_neg hid]
        cases mode <;> rfl

/-- The first character of a line is that of the text, unless the text begins with a line feed. -/
theorem head?_line {c : Char} (hc : c ≠ '\n') :
    (t.take (Text.lineLength t)).head? = some c ↔ t.head? = some c := by
  cases t with
  | nil => simp
  | cons d ds =>
    by_cases hd : d = '\n'
    · simp [Text.lineLength, Text.distance, hd, hc.symm]
    · have hpos : Text.lineLength (d :: ds) = Text.lineLength ds + 1 := by
        unfold Text.lineLength
        rw [Text.distance, if_neg hd]
        cases Text.distance '\n' ds <;> rfl
      rw [hpos, List.take_succ_cons, List.head?_cons, List.head?_cons]

theorem refuseStyleMarker_afresh (hhead : styleHead.isPrefixOf rest = true) :
    (refuseStyleMarker map k rest : Afresh Unit) =
      ofExcept (checkBreach map k.offset (.styleMarker (rest.take (Text.lineLength rest)))) := by
  obtain ⟨u, rfl⟩ := List.isPrefixOf_iff_prefix.mp hhead
  have hline : Text.lineLength (styleHead ++ u) = styleHead.length + Text.lineLength u := by
    unfold Text.lineLength
    rw [Text.distance_append_of_notMem (by decide), List.length_append]
    cases Text.distance '\n' u <;> rfl
  have hquote : (((styleHead ++ u).take (Text.lineLength (styleHead ++ u))).drop
      styleHead.length).head? = some '"' ↔ u.head? = some '"' := by
    rw [hline, List.take_length_add_append, List.drop_left]
    exact head?_line (by decide)
  unfold refuseStyleMarker
  rw [checkBreach, List.drop_left]
  by_cases hopen : u.head? = some '"'
  · rw [if_pos hopen, if_neg (not_not_intro (hquote.mpr hopen))]
    change (ofExcept (checkQuotes map k.offset
      ((styleHead ++ u).take (Text.lineLength (styleHead ++ u)))) >>= fun _ =>
        ofExcept (report map k.offset (.error .malformedStyleMarker)) : Afresh Unit) = _
    cases checkQuotes map k.offset ((styleHead ++ u).take (Text.lineLength (styleHead ++ u))) <;>
      rfl
  · rw [if_neg hopen, if_pos (hquote.not.mpr hopen)]

theorem styleMarkerScan_alone (hhead : styleHead.isPrefixOf rest = true) :
    alone stack k rest (styleMarkerScan mode map stack k rest) =
      taking mode map stack ⟨k.offset, readStyleMarker k rest⟩ := by
  unfold styleMarkerScan readStyleMarker
  rw [if_pos hhead]
  cases hc : styleClasses? rest with
  | some classes =>
    have hsize : (Reading.styleMarker classes).span.length =
        styleHead.length + classes.length + 3 := by
      simp only [Reading.span, List.length_cons, List.length_append, List.length_nil]
      omega
    exact alone_taken hsize rfl
  | none =>
    dsimp only
    rw [taking_breach]
    cases mode with
    | lenient => rfl
    | strict =>
      rw [if_pos rfl, refuseStyleMarker_afresh hhead, alone_refusal]
      rfl

theorem variableScan_alone (hhead : isReference rest = true) :
    alone stack k rest (variableScan mode map stack k rest) =
      taking mode map stack ⟨k.offset, readReference k rest⟩ := by
  unfold variableScan readReference
  have hfound : (Lookahead.braceAhead k.offset rest : Afresh (Option Nat)) =
      pure (braceDistance 0 rest) := rfl
  rw [if_pos hhead, hfound, pure_bind]
  cases hd : braceDistance 0 rest with
  | some size =>
    have hsize : (Reading.reference (rest.take (size + 1))).span.length = size + 1 := by
      have hlt := braceDistance_lt_length hd
      rw [Reading.span, List.length_take]
      omega
    unfold taking judge reviewStep Placed.check
    rw [hsize]
    dsimp only
    cases mode with
    | lenient => rfl
    | strict => cases report map k.offset (Check.reference (rest.take (size + 1))) <;> rfl
  | none =>
    dsimp only
    rw [taking_breach]
    cases mode with
    | lenient => rfl
    | strict =>
      exact alone_refusal (checkBreach map k.offset (.reference (rest.take _)))

theorem imageScan_alone (hhead : ['!', '['].isPrefixOf rest = true) :
    alone stack k rest (imageScan stack rest) =
      taking mode map stack ⟨k.offset,
        match imageParts? rest with
        | some (description, source) => .image description source
        | none => plain k rest none⟩ := by
  unfold imageScan
  rw [if_pos hhead]
  cases imageParts? rest with
  | none => exact alone_none
  | some parts =>
    obtain ⟨description, source⟩ := parts
    have hsize : (Reading.image description source).span.length =
        description.length + source.length + 5 := by
      simp only [Reading.span, List.length_cons, List.length_append, List.length_nil]
      omega
    exact alone_taken hsize rfl

theorem tagScan_alone (hhead : rest.head? = some '[') :
    alone stack k rest (tagScan mode map stack k rest) =
      taking mode map stack ⟨k.offset, readTag k rest⟩ := by
  have hend : (tagEnd k.offset (rest.drop 1) : Afresh (Option Nat)) =
      pure (Id.run (tagEnd k.offset (rest.drop 1))) := Bridge.tagEnd_lift k rest
  unfold tagScan readTag
  rw [if_pos hhead, hend, pure_bind]
  cases hd : Id.run (tagEnd k.offset (rest.drop 1)) with
  | none =>
    dsimp only
    rw [taking_breach]
    cases mode <;> rfl
  | some size =>
    have hsize : (Reading.tag ((rest.drop 1).take size)).span.length = size + 2 := by
      have hat := getElem?_tagEndFrom k.offset (rest.drop 1) _ 0 rfl hd
      have hlt := (List.getElem?_eq_some_iff.mp hat).1
      simp only [Reading.span, List.length_cons, List.length_append, List.length_take,
        List.length_nil]
      omega
    -- The rules of the tag are demanded first, then its balance.
    have hjudge : judge mode map stack ⟨k.offset, .tag ((rest.drop 1).take size)⟩ =
        mode.demand (checkQuotes map (k.offset + 1) ((rest.drop 1).take size) >>= fun _ =>
          checkTag map k.offset (Tag.ofInner ((rest.drop 1).take size))) >>= fun _ =>
            mode.balance map stack k.offset (Tag.ofInner ((rest.drop 1).take size)) := by
      cases mode <;> rfl
    unfold taking
    rw [hsize, hjudge]
    dsimp only
    rw [takeTag_eq]
    cases mode.demand (checkQuotes map (k.offset + 1) ((rest.drop 1).take size) >>= fun _ =>
      checkTag map k.offset (Tag.ofInner ((rest.drop 1).take size))) with
    | error e => rfl
    | ok u => cases mode.balance map stack k.offset (Tag.ofInner ((rest.drop 1).take size)) <;> rfl

theorem boldScan_alone (hhead : ['*', '*'].isPrefixOf rest = true) :
    alone stack k rest (boldScan stack k rest) =
      taking mode map stack ⟨k.offset, readBold k rest⟩ := by
  unfold boldScan readBold
  rw [if_pos hhead]
  cases hd : Text.distanceTo ['*', '*'] (rest.drop 2) with
  | none => exact alone_none
  | some size =>
    dsimp only
    by_cases hempty : size = 0
    · rw [if_pos hempty, if_pos (by simp [hempty])]
      exact alone_none
    · rw [if_neg hempty]
      change alone stack k rest (if size + 2 > Text.lineLength rest then pure none else _) = _
      by_cases hline : size + 2 > Text.lineLength rest
      · rw [if_pos hline, if_pos (by simp [hline])]
        exact alone_none
      · rw [if_neg hline, if_neg (by simp [hempty, hline])]
        have hsize : (Reading.bold ((rest.drop 2).take size)).span.length = size + 4 := by
          rcases Text.eq_take_append_of_distanceTo hd with ⟨later, hlater⟩
          have hlen := congrArg List.length hlater
          simp only [Reading.span, List.length_cons, List.length_append, List.length_take,
            List.length_nil] at hlen ⊢
          omega
        exact alone_taken hsize rfl

theorem italicScan_alone (hhead : rest.head? = some '*') :
    alone stack k rest (italicScan stack k rest) =
      taking mode map stack ⟨k.offset, readItalic k rest⟩ := by
  unfold italicScan readItalic
  dsimp only
  generalize rest.drop 1 = t
  by_cases htouch : (t.head? == some '*' || k.before == some '*') = true
  · rw [if_pos htouch, if_neg]
    · exact alone_none
    · rw [Bool.or_eq_true, beq_iff_eq, beq_iff_eq] at htouch
      rcases htouch with hnext | hbefore
      · simp [hnext]
      · simp [hbefore]
  · rw [if_neg htouch, if_pos]
    · change alone stack k rest (match Text.distance '*' t with
        | none => pure none
        | some size => _) = _
      cases hd : Text.distance '*' t with
      | none => exact alone_none
      | some size =>
        dsimp only
        by_cases hempty : size = 0
        · rw [if_pos hempty, if_pos (by simp [hempty])]
          exact alone_none
        · rw [if_neg hempty]
          change alone stack k rest (if size + 1 > Text.lineLength rest ||
            ['*', '*'].isPrefixOf (t.drop size) then pure none else pure (some _)) = _
          have hsize : (Reading.italic (t.take size)).span.length = size + 2 := by
            have hlt := Text.distance_lt_length hd
            simp only [Reading.span, List.length_cons, List.length_append, List.length_take,
              List.length_nil]
            omega
          have htaken : alone stack k rest
              (pure (some ⟨size + 2, .token (.italic (t.take size)), stack⟩)) =
                taking mode map stack ⟨k.offset, .italic (t.take size)⟩ := alone_taken hsize rfl
          by_cases hline : size + 1 > Text.lineLength rest
          · simpa [hempty, hline] using alone_none
          · by_cases hstar : ['*', '*'].isPrefixOf (t.drop size) = true
            · simpa [hempty, hline, hstar] using alone_none
            · simpa [hempty, hline, hstar] using htaken
    · simp only [Bool.or_eq_true, beq_iff_eq, not_or] at htouch
      simp [hhead, htouch.1, htouch.2]

/-! ## All scanners -/

section Deciding

variable {m : Type → Type} [Monad m] [LawfulMonad m]

/-- If no scanner behind it begins at the cursor, a scanner decides. -/
theorem firstTaken_last (scan : m (Option Taken)) (n : Nat) :
    firstTaken (scan :: List.replicate n (pure none)) = scan := by
  have hnone : firstTaken (List.replicate n (pure none : m (Option Taken))) = pure none := by
    induction n with
    | zero => rfl
    | succ n ih => exact (pure_bind none _).trans ih
  rw [firstTaken]
  refine (bind_congr fun taken? => ?_).trans (bind_pure scan)
  cases taken? with
  | some taken => rfl
  | none => exact hnone

variable [Lookahead m] [MonadExceptOf ScanError m]

/-- If only one scanner begins at the cursor, it decides what is taken. -/
theorem scanAt_alone {scan : m (Option Taken)} (before after : Nat)
    (h : scanners mode map stack k rest =
      List.replicate before (pure none) ++ scan :: List.replicate after (pure none)) :
    scanAt mode map stack k rest =
      scan >>= fun taken? => pure (taken?.getD (textScan stack k rest)) := by
  have hfirst : firstTaken (scanners mode map stack k rest) = scan := by
    rw [h]
    clear h
    induction before with
    | zero => exact firstTaken_last scan after
    | succ n ih => exact (pure_bind none _).trans ih
  unfold scanAt
  rw [hfirst]
  apply bind_congr
  intro taken?
  cases taken? <;> rfl

end Deciding

theorem scanAfresh_alone {scan : Afresh (Option Taken)} (before after : Nat)
    (h : scanners mode map stack k rest =
      List.replicate before (pure none) ++ scan :: List.replicate after (pure none)) :
    scanAfresh mode map stack k rest = alone stack k rest scan := by
  rw [scanAfresh, scanAt_alone before after h]
  change Except ScanError (Option Taken) at scan
  cases scan <;> rfl

/-- A pair of characters stands at the beginning only if its second one comes second. -/
theorem isPrefixOf_pair_eq_false {c d : Char} (h : ∀ u, t = d :: u → False) :
    [c, d].isPrefixOf (c :: t) = false := by
  rw [Bool.eq_false_iff]
  intro hprefix
  obtain ⟨u, hu⟩ := List.isPrefixOf_iff_prefix.mp hprefix
  exact h u (List.cons.inj hu).2.symm

/-- At a brace that begins no marker for an id. -/
theorem scanAfresh_brace (hid : ∀ u, t = '#' :: u → False) :
    scanAfresh mode map stack k ('{' :: t) =
      taking mode map stack ⟨k.offset,
        if styleHead.isPrefixOf ('{' :: t) then readStyleMarker k ('{' :: t)
        else if isReference ('{' :: t) then readReference k ('{' :: t)
        else plain k ('{' :: t) none⟩ := by
  have hmarker : (idMarkerScan mode map stack k ('{' :: t) : Afresh (Option Taken)) = pure none :=
    if_neg (by simp [isPrefixOf_pair_eq_false hid])
  by_cases hstyle : styleHead.isPrefixOf ('{' :: t) = true
  · rw [if_pos hstyle, ← styleMarkerScan_alone hstyle]
    apply scanAfresh_alone 3 5
    unfold scanners
    rw [hmarker]
    obtain ⟨u, hu⟩ := List.isPrefixOf_iff_prefix.mp hstyle
    rw [← hu]
    rfl
  · have hskip : (styleMarkerScan mode map stack k ('{' :: t) : Afresh (Option Taken)) =
        pure none := if_neg hstyle
    rw [if_neg hstyle]
    by_cases href : isReference ('{' :: t) = true
    · rw [if_pos href, ← variableScan_alone href]
      apply scanAfresh_alone 4 4
      unfold scanners
      rw [hmarker, hskip]
      rfl
    · have hnone : (variableScan mode map stack k ('{' :: t) : Afresh (Option Taken)) =
          pure none := if_neg href
      rw [if_neg href, ← alone_none]
      apply scanAfresh_alone 0 8
      unfold scanners
      rw [hmarker, hskip, hnone]
      rfl

/-- Where no scanner begins. -/
theorem scanAfresh_plain (hnewline : ∀ u, rest = '\n' :: u → False)
    (hhash : ∀ u, rest = '#' :: u → False) (hbrace : ∀ u, rest = '{' :: u → False)
    (himage : ∀ u, rest = '!' :: '[' :: u → False) (hbracket : ∀ u, rest = '[' :: u → False)
    (hstar : ∀ u, rest = '*' :: u → False) :
    scanAfresh mode map stack k rest = taking mode map stack ⟨k.offset, plain k rest none⟩ := by
  have hhead : ∀ {c : Char}, (∀ u, rest = c :: u → False) → rest.head? ≠ some c := by
    intro c hc hrest
    obtain ⟨u, hu⟩ := List.head?_eq_some_iff.mp hrest
    exact hc u hu
  have hprefix : ∀ {c : Char} {needle : Text}, (∀ u, rest = c :: u → False) →
      ¬ (c :: needle).isPrefixOf rest = true := by
    intro c needle hc hrest
    obtain ⟨u, hu⟩ := List.isPrefixOf_iff_prefix.mp hrest
    exact hc (needle ++ u) hu.symm
  have hpair : ¬ ['!', '['].isPrefixOf rest = true := by
    intro hrest
    obtain ⟨u, hu⟩ := List.isPrefixOf_iff_prefix.mp hrest
    exact himage u hu.symm
  have hstyle : ¬ styleHead.isPrefixOf rest = true := hprefix hbrace
  have href : ¬ isReference rest = true := fun h => hhead hbrace (Bridge.head?_of_isReference h)
  have hnone : scanners mode map stack k rest =
      List.replicate 9 (pure none : Afresh (Option Taken)) := by
    unfold scanners newlineScan headingScan idMarkerScan styleMarkerScan variableScan imageScan
      tagScan boldScan italicScan
    simp only [hhead hnewline, hhead hhash, hhead hbracket, hhead hstar, hprefix hbrace,
      hprefix hstar, hpair, hstyle, href, decide_false, Bool.false_and, Bool.false_eq_true, if_false]
    rfl
  rw [← alone_none]
  exact scanAfresh_alone 0 8 hnone

/-- The scanners together take the reading at the cursor. -/
theorem scanAfresh_eq (mode : Mode) (map : SourceMap) (stack : TagStack Container) (k : Cursor)
    (rest : Text) :
    scanAfresh mode map stack k rest = taking mode map stack ⟨k.offset, readAt k rest⟩ := by
  unfold readAt
  split
  · next t => cases mode <;> rfl
  · next t =>
    by_cases hfresh : k.fresh = true
    · rw [if_pos hfresh, ← headingScan_alone rfl hfresh]
      exact scanAfresh_alone 1 7 rfl
    · have hskip : (headingScan stack k ('#' :: t) : Afresh (Option Taken)) = pure none :=
        if_neg (by simp [hfresh])
      rw [if_neg hfresh, ← alone_none]
      apply scanAfresh_alone 0 8
      unfold scanners
      rw [hskip]
      rfl
  · rw [← idMarkerScan_alone rfl]
    exact scanAfresh_alone 2 6 rfl
  · next t hid => exact scanAfresh_brace hid
  · exact (scanAfresh_alone 5 3 rfl).trans (imageScan_alone rfl)
  · rw [← tagScan_alone rfl]
    exact scanAfresh_alone 6 2 rfl
  · rw [← boldScan_alone rfl]
    exact scanAfresh_alone 7 1 rfl
  · next t hbold =>
    have hskip : (boldScan stack k ('*' :: t) : Afresh (Option Taken)) = pure none :=
      if_neg (by simp [isPrefixOf_pair_eq_false hbold])
    rw [← italicScan_alone rfl]
    apply scanAfresh_alone 8 0
    unfold scanners
    rw [hskip]
    rfl
  · next hnewline hhash _ hbrace himage hbracket _ hstar =>
    exact scanAfresh_plain hnewline hhash hbrace himage hbracket hstar

end Scanners

end Notemark.Body
