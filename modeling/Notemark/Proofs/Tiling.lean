import Notemark.Proofs.TokenList

/-!
# Tiling

Every round of the scanning loop takes a piece of the text that is not empty, and the pieces of a
body, put together again, are the body. This module says what the pieces are and which tokens they
make:

* `Spells`: the text of a construct and its token,
* `tokenOf`: the token as a function of that text,
* `Tile`: what one round takes, which is a construct, plain text, or a marker without an id,
* `Scan.Takes`: the rounds of the loop with the tile that each of them takes,
* `Woven`: the tokens of a row of tiles; what stands between two constructs is one text token.
-/

namespace Notemark.Body

/-! ## Constructs and their texts -/

/-- The text of a construct and the token it stands for. -/
inductive Spells : Text → Token → Prop where
  | newline : Spells ['\n'] .newline
  | heading {level : Nat} {rest : Text} : 1 ≤ level → level ≤ 6 → rest.head? ≠ some '#' →
      Spells (List.replicate level '#' ++ rest) (.heading (some level) (Text.strip rest))
  | idMarker {inner : Text} : Text.strip inner ≠ [] →
      Spells (['{', '#'] ++ inner ++ ['}']) (.idMarker (some (Text.strip inner)))
  | styleMarker {classes : Text} :
      Spells (['{', 'c', 'l', 'a', 's', 's', '=', '"'] ++ classes ++ ['"', '}'])
        (.styleMarker classes)
  | reference {raw : Text} : isReference raw = true → Spells raw (.reference raw)
  | image {description source : Text} : ']' ∉ description →
      Spells (['!', '['] ++ description ++ [']', '('] ++ source ++ [')'])
        (.image [(srcKey, Text.strip source), (altKey, description)])
  | tag {inner : Text} : Spells (['['] ++ inner ++ [']']) (Tag.ofInner inner).token
  | bold {inner : Text} : Spells (['*', '*'] ++ inner ++ ['*', '*']) (.bold inner)
  | italic {inner : Text} : inner ≠ [] → '*' ∉ inner →
      Spells (['*'] ++ inner ++ ['*']) (.italic inner)

/-- The token of a construct, from its text alone: the first characters tell which construct it is,
and the rest is what stands between its delimiters. -/
def tokenOf : Text → Token
  | '\n' :: _ => .newline
  | '#' :: t =>
    .heading (some ((t.takeWhile (· == '#')).length + 1 : Nat))
      (Text.strip (t.dropWhile (· == '#')))
  | '{' :: '#' :: t => .idMarker (some (Text.strip t.dropLast))
  | '{' :: 'c' :: t => .styleMarker ((t.drop 6).take ((t.drop 6).length - 2))
  | '{' :: t => .reference ('{' :: t)
  | '!' :: '[' :: t =>
    .image [(srcKey, Text.strip ((t.dropWhile (· != ']')).drop 2).dropLast),
      (altKey, t.takeWhile (· != ']'))]
  | '[' :: t => (Tag.ofInner t.dropLast).token
  | '*' :: '*' :: t => .bold (t.take (t.length - 2))
  | '*' :: t => .italic t.dropLast
  | _ => .eof

/-- A reference begins with a brace, and what follows tells it from the markers. -/
theorem exists_cons_of_isReference {raw : Text} (h : isReference raw = true) :
    ∃ c t, raw = '{' :: c :: t ∧ c ≠ '#' ∧ c ≠ 'c' := by
  unfold isReference at h
  split at h
  · next t =>
    rcases List.any_eq_true.mp h with ⟨head, hhead, hprefix⟩
    rcases List.isPrefixOf_iff_prefix.mp hprefix with ⟨later, rfl⟩
    simp only [referenceHeads, List.mem_cons, List.not_mem_nil, or_false] at hhead
    rcases hhead with rfl | rfl | rfl | rfl | rfl <;>
      exact ⟨_, _, rfl, by decide, by decide⟩
  · simp at h

namespace Spells

variable {span : Text} {token : Token}

theorem isText_eq_false (h : Spells span token) : token.isText = false := by
  cases h with
  | tag => exact Scan.isText_tag _
  | _ => rfl

/-- The text of a construct determines its token. -/
theorem tokenOf_eq (h : Spells span token) : tokenOf span = token := by
  cases h with
  | newline => rfl
  | @heading level rest hpos _ hrest =>
    obtain ⟨n, rfl⟩ : ∃ n, level = n + 1 := ⟨level - 1, by omega⟩
    have hstop : rest.takeWhile (· == '#') = [] := by
      cases rest with
      | nil => rfl
      | cons c cs =>
        have hc : c ≠ '#' := fun hc => hrest (by simp [hc])
        simp [hc]
    have htake : (List.replicate n '#' ++ rest).takeWhile (· == '#') = List.replicate n '#' := by
      rw [List.takeWhile_append_of_pos (by simp), hstop, List.append_nil]
    have hdrop : (List.replicate n '#' ++ rest).dropWhile (· == '#') = rest := by
      rw [← Text.drop_length_takeWhile, htake, List.drop_left]
    simp only [List.replicate_succ, List.cons_append, tokenOf, htake, hdrop,
      List.length_replicate]
  | idMarker _ => simp [tokenOf]
  | styleMarker => simp [tokenOf]
  | reference hraw =>
    rcases exists_cons_of_isReference hraw with ⟨c, t, rfl, hmarker, hstyle⟩
    simp [tokenOf, hmarker, hstyle]
  | @image description source hdescription =>
    have hpass : ∀ c ∈ description, (c != ']') = true := by
      intro c hc
      simpa using fun h : c = ']' => hdescription (h ▸ hc)
    have htake : (description ++ ']' :: '(' :: (source ++ [')'])).takeWhile (· != ']') =
        description := by
      rw [List.takeWhile_append_of_pos hpass]
      simp
    have hdrop : (description ++ ']' :: '(' :: (source ++ [')'])).dropWhile (· != ']') =
        ']' :: '(' :: (source ++ [')']) := by
      rw [← Text.drop_length_takeWhile, htake, List.drop_left]
    simp [tokenOf, htake, hdrop]
  | tag => simp [tokenOf]
  | bold => simp [tokenOf]
  | @italic inner hne hstar =>
    cases inner with
    | nil => exact absurd rfl hne
    | cons c cs =>
      have hc : c ≠ '*' := fun hc => hstar (by simp [hc])
      have hlast : (c :: (cs ++ ['*'])).dropLast = c :: cs := by
        rw [← List.cons_append, List.dropLast_concat]
      simp [tokenOf, hc, hlast]

end Spells

/-! ## What a reading takes -/

/-- What tells the constructs apart, beyond the delimiters that are part of their spans. -/
def Reading.Exact : Reading → Prop
  | heading level rest => 1 ≤ level ∧ level ≤ 6 ∧ rest.head? ≠ some '#'
  | reference raw => isReference raw = true
  | image description _ => ']' ∉ description
  | italic inner => inner ≠ [] ∧ '*' ∉ inner
  | _ => True

section Exact

variable {r r' : Reading} {k : Cursor} {rest t : Text}

theorem Reading.Exact.ite {p : Prop} [Decidable p] (hr : p → r.Exact) (hr' : ¬ p → r'.Exact) :
    (if p then r else r').Exact := by
  split
  · next hp => exact hr hp
  · next hp => exact hr' hp

theorem exact_plain (breach : Option Breach) : (plain k rest breach).Exact := trivial

theorem exact_readHeading (hhead : rest.head? = some '#') :
    (readHeading k rest).Exact := by
  rw [readHeading]
  refine .ite ?_ fun _ => exact_plain none
  intro hlevel
  simp only [Bool.and_eq_true, decide_eq_true_eq] at hlevel
  refine ⟨?_, hlevel.1, ?_⟩
  · cases rest with
    | nil => simp at hhead
    | cons c cs => simp [Option.some.inj hhead]
  -- The signs are counted as far as they go, so none is left over.
  · intro hsign
    rw [Text.drop_length_takeWhile] at hsign
    have hstop := List.head?_dropWhile_not (· == '#') rest
    cases hdrop : rest.dropWhile (· == '#') with
    | nil => simp [hdrop] at hsign
    | cons c cs =>
      rw [hdrop, List.head?_take] at hsign
      rw [hdrop] at hstop
      have hc : c = '#' := by
        split at hsign
        · simp at hsign
        · exact Option.some.inj hsign
      simp [hc] at hstop

/-- Text without braces and line ends does not change the depth. -/
theorem braceDistance_append {a : Text} (h : ∀ c ∈ a, c ≠ '{' ∧ c ≠ '}' ∧ c ≠ '\n')
    (depth : Nat) :
    braceDistance depth (a ++ t) = (braceDistance depth t).map (a.length + ·) := by
  induction a with
  | nil => simp
  | cons c cs ih =>
    obtain ⟨hopen, hclose, hline⟩ := h c (by simp)
    have hcs : ∀ d ∈ cs, d ≠ '{' ∧ d ≠ '}' ∧ d ≠ '\n' := fun d hd => h d (by simp [hd])
    simp only [List.cons_append, braceDistance, if_neg hline, if_neg hopen, if_neg hclose,
      ih hcs, Option.map_map, List.length_cons]
    congr 1
    funext i
    simp only [Function.comp_apply]
    omega

theorem exact_readReference (hrest : isReference rest = true) :
    (readReference k rest).Exact := by
  rw [readReference]
  cases hd : braceDistance 0 rest with
  | none => exact exact_plain _
  | some size =>
    change isReference (rest.take (size + 1)) = true
    unfold isReference at hrest
    split at hrest
    · next t =>
      rcases List.any_eq_true.mp hrest with ⟨head, hhead, hprefix⟩
      rcases List.isPrefixOf_iff_prefix.mp hprefix with ⟨later, rfl⟩
      have hheads : ∀ head ∈ referenceHeads, ∀ c ∈ head, c ≠ '{' ∧ c ≠ '}' ∧ c ≠ '\n' := by
        simp [referenceHeads]
      have hchars := hheads head hhead
      -- The closing brace comes after the head, so the head is part of what is taken.
      have hsize : head.length ≤ size := by
        have hopen : braceDistance 0 ('{' :: (head ++ later)) =
            (braceDistance 1 (head ++ later)).map (· + 1) := rfl
        rw [hopen, braceDistance_append hchars] at hd
        rcases Option.map_eq_some_iff.mp hd with ⟨i, hi, rfl⟩
        rcases Option.map_eq_some_iff.mp hi with ⟨j, -, rfl⟩
        omega
      have htake : (head ++ later).take size = head ++ later.take (size - head.length) := by
        rw [List.take_append, List.take_of_length_le hsize]
      rw [List.take_succ_cons, htake]
      refine List.any_eq_true.mpr ⟨head, hhead, ?_⟩
      exact List.isPrefixOf_iff_prefix.mpr ⟨_, rfl⟩
    · simp at hrest

theorem exact_image {description source : Text}
    (h : imageParts? rest = some (description, source)) :
    (Reading.image description source).Exact := by
  unfold imageParts? at h
  dsimp only at h
  split at h
  · split at h
    · rcases Prod.mk.inj (Option.some.inj h) with ⟨rfl, rfl⟩
      intro hmem
      have hall := List.all_takeWhile (p := fun c => c != ']' && c != '\n') (l := rest.drop 2)
      have hthis := List.all_eq_true.mp hall ']' hmem
      simp at hthis
    · simp at h
  · simp at h

theorem exact_readItalic : (readItalic k rest).Exact := by
  rw [readItalic]
  refine .ite (fun _ => exact_plain none) fun _ => ?_
  cases hd : Text.distance '*' (rest.drop 1) with
  | none => exact exact_plain none
  | some size =>
    refine .ite (fun _ => exact_plain none) fun hsize => ?_
    refine .ite (fun _ => exact_plain none) fun _ => ?_
    rcases Text.distance_eq_some_iff.mp hd with ⟨a, b, hab, hstar, rfl⟩
    simp only [Bool.or_eq_true, beq_iff_eq, decide_eq_true_eq, not_or] at hsize
    change (rest.drop 1).take a.length ≠ [] ∧ '*' ∉ (rest.drop 1).take a.length
    rw [hab, List.take_left]
    refine ⟨?_, hstar⟩
    intro hnil
    simp [hnil] at hsize

/-- Whatever stands at a cursor can be told from its text. -/
theorem readAt_exact (k : Cursor) (rest : Text) : (readAt k rest).Exact := by
  unfold readAt
  split
  · trivial
  · exact .ite (fun _ => exact_readHeading rfl) fun _ => exact_plain none
  · rw [readIdMarker]
    split
    · exact exact_plain _
    · exact .ite (fun _ => exact_plain _) fun _ => trivial
  · refine .ite (fun _ => ?_) fun _ => .ite exact_readReference fun _ => exact_plain none
    rw [readStyleMarker]
    split
    · trivial
    · exact exact_plain _
  · split
    · next himage => exact exact_image himage
    · exact exact_plain none
  · rw [readTag]
    split
    · trivial
    · exact exact_plain _
  · rw [readBold]
    split
    · exact exact_plain none
    · exact .ite (fun _ => exact_plain none) fun _ => trivial
  · exact exact_readItalic
  · exact exact_plain none

end Exact

/-- The span of a reading spells its token. -/
theorem Reading.Exact.spells {r : Reading} {token : Token} (hr : r.Exact)
    (h : r.token? = some token) : Spells r.span token := by
  cases r with
  | newline => exact Option.some.inj h ▸ .newline
  | heading level rest => exact Option.some.inj h ▸ .heading hr.1 hr.2.1 hr.2.2
  | idMarker inner =>
    simp only [Reading.token?] at h
    split at h
    · simp at h
    · next hid =>
      have hne : Text.strip inner ≠ [] := by simpa using hid
      exact Option.some.inj h ▸ .idMarker hne
  | styleMarker classes =>
    have hspells : Spells (['{', 'c', 'l', 'a', 's', 's', '=', '"'] ++ classes ++ ['"', '}'])
        (.styleMarker classes) := .styleMarker
    rw [← Option.some.inj h]
    simpa [Reading.span, styleHead] using hspells
  | reference raw => exact Option.some.inj h ▸ .reference hr
  | image description source =>
    have hspells : Spells (['!', '['] ++ description ++ [']', '('] ++ source ++ [')'])
        (.image [(srcKey, Text.strip source), (altKey, description)]) := .image hr
    rw [← Option.some.inj h]
    simpa [Reading.span] using hspells
  | tag inner => exact Option.some.inj h ▸ .tag
  | bold inner => exact Option.some.inj h ▸ .bold
  | italic inner => exact Option.some.inj h ▸ .italic hr.1 hr.2
  | text run breach => simp [Reading.token?] at h

/-- What one round of the loop takes from the text. -/
inductive Tile where
  | construct (span : Text) (token : Token)
  | plain (run : Text)
  | dropped (marker : Text)

namespace Tile

def text : Tile → Text
  | construct span _ => span
  | plain run => run
  | dropped marker => marker

/-- A construct is spelled as its token demands, and what lenient mode drops is a marker without an
id. Strict mode drops nothing. -/
def Proper (mode : Mode) : Tile → Prop
  | construct span token => Spells span token ∧ tokenOf span = token
  | plain _ => True
  | dropped marker =>
    mode = .lenient ∧
      ∃ blank, Text.allBlank blank = true ∧ marker = ['{', '#'] ++ blank ++ ['}']

/-- Only constructs have tokens of their own. -/
def isConstruct : Tile → Bool
  | construct .. => true
  | _ => false

/-- The text that is kept for a text token. -/
def kept : Tile → Text
  | plain run => run
  | _ => []

end Tile

/-- The tile of a reading. -/
def Reading.tile : Reading → Tile
  | text run _ => .plain run
  | r =>
    match r.token? with
    | some token => .construct r.span token
    | none => .dropped r.span

theorem Reading.tile_of_token? {r : Reading} {token : Token} (h : r.token? = some token) :
    r.tile = .construct r.span token := by
  cases r with
  | text run breach => simp [Reading.token?] at h
  | _ => simp only [Reading.tile, h]

theorem Reading.text_tile (r : Reading) : r.tile.text = r.span := by
  cases htoken : r.token? with
  | some token => rw [Reading.tile_of_token? htoken]; rfl
  | none =>
    cases r with
    | text run breach => rfl
    | _ => simp only [Reading.tile, htoken, Tile.text]

/-- In strict mode a marker without an id is a fault. -/
theorem strip_ne_nil_of_judge {map : SourceMap} {stack stack' : TagStack Container}
    {offset : Nat} {inner : Text}
    (h : judge .strict map stack ⟨offset, .idMarker inner⟩ = .ok stack') :
    Text.strip inner ≠ [] := by
  intro hnil
  have hcheck : Placed.check map ⟨offset, .idMarker inner⟩ =
      .error ⟨.emptyIdMarker, map.position offset⟩ := by
    unfold Placed.check
    dsimp only
    rw [hnil]
    rfl
  have hjudge : judge .strict map stack ⟨offset, .idMarker inner⟩ =
      .error ⟨.emptyIdMarker, map.position offset⟩ := by
    change (Placed.check map ⟨offset, .idMarker inner⟩ >>= fun _ => _) = _
    rw [hcheck]
    rfl
  rw [hjudge] at h
  simp at h

theorem proper_tile {mode : Mode} {map : SourceMap} {stack stack' : TagStack Container}
    {offset : Nat} {r : Reading} (hr : r.Exact)
    (h : judge mode map stack ⟨offset, r⟩ = .ok stack') : r.tile.Proper mode := by
  cases htoken : r.token? with
  | some token =>
    rw [Reading.tile_of_token? htoken]
    have hspells := hr.spells htoken
    exact ⟨hspells, hspells.tokenOf_eq⟩
  | none =>
    cases r with
    | text run breach => trivial
    | idMarker inner =>
      have hnil : Text.strip inner = [] := by simpa [Reading.token?] using htoken
      simp only [Reading.tile, htoken]
      refine ⟨?_, inner, Text.allBlank_of_strip hnil, rfl⟩
      cases mode with
      | lenient => rfl
      | strict => exact absurd hnil (strip_ne_nil_of_judge h)
    | _ => simp [Reading.token?] at htoken

/-! ## The rounds of the loop -/

namespace Scan

variable {content : Text} {s last : Scan} {mode : Mode} {map : SourceMap} {tiles : List Tile}

/-- The loop goes on as long as there is text, and every round takes a tile from the front of it. -/
inductive Takes (mode : Mode) (map : SourceMap) : Scan → List Tile → Scan → Prop where
  | done {s : Scan} : s.rest = [] → Takes mode map s [] s
  | round {s next last : Scan} {tile : Tile} {tiles : List Tile} :
      s.rest ≠ [] → s.round mode map = .ok next → s.rest = tile.text ++ next.rest →
        next.cursor.offset = s.cursor.offset + tile.text.length →
          Takes mode map next tiles last → Takes mode map s (tile :: tiles) last

theorem Takes.flatMap_text (h : Takes mode map s tiles last) :
    tiles.flatMap Tile.text = s.rest := by
  induction h with
  | done hrest => rw [hrest]; rfl
  | round _ _ htext _ _ ih => rw [List.flatMap_cons, ih, htext]

theorem Takes.offset_eq (h : Takes mode map s tiles last) :
    last.cursor.offset = s.cursor.offset + s.rest.length := by
  induction h with
  | done hrest => simp [hrest]
  | round _ _ htext hoffset _ ih =>
    rw [ih, hoffset, htext, List.length_append]
    omega

/-- One round: the reading at the cursor is taken from the front of the text. -/
theorem round_takes {next : Scan} (hs : s.Sound content) (hrest : s.rest ≠ [])
    (h : s.round mode map = .ok next) :
    s.rest = (readAt s.cursor s.rest).tile.text ++ next.rest ∧
      next.cursor.offset =
        s.cursor.offset + (readAt s.cursor s.rest).tile.text.length ∧
      (readAt s.cursor s.rest).tile.text ≠ [] ∧
      (readAt s.cursor s.rest).tile.Proper mode := by
  rcases round_eq_ok hs h with ⟨stack, hjudge, rfl, -⟩
  have hcovers := readAt_covers s.cursor hrest
  rw [Reading.text_tile]
  refine ⟨?_, ?_, hcovers.1, proper_tile (readAt_exact _ _) hjudge⟩
  · calc
      s.rest = s.rest.take (readAt s.cursor s.rest).span.length ++
          s.rest.drop (readAt s.cursor s.rest).span.length := (List.take_append_drop _ _).symm
      _ = (readAt s.cursor s.rest).span ++ s.rest.drop (readAt s.cursor s.rest).span.length := by
          rw [hcovers.take]
      _ = (readAt s.cursor s.rest).span ++ (s.past mode map stack).rest := rfl
  · exact Cursor.offset_advance _ _

/-- The rounds of a loop that runs to the end of the text take the tiles of the readings. -/
theorem takes_of_rounds {n : Nat} (hs : s.Sound content) (hn : s.rest.length ≤ n)
    (h : s.rounds mode map n = .ok last) :
    Takes mode map s (s.ahead.map (·.reading.tile)) last ∧
      ∀ p ∈ s.ahead, p.reading.tile.text ≠ [] ∧ p.reading.tile.Proper mode := by
  induction n generalizing s with
  | zero =>
    have hrest : s.rest = [] := List.length_eq_zero_iff.mp (by omega)
    rw [← Except.ok.inj h, ahead_of_rest_nil hrest]
    exact ⟨.done hrest, by simp⟩
  | succ n ih =>
    unfold rounds at h
    by_cases hrest : s.rest = []
    · rw [if_pos hrest] at h
      rw [← Except.ok.inj h, ahead_of_rest_nil hrest]
      exact ⟨.done hrest, by simp⟩
    · rw [if_neg hrest] at h
      cases hround : s.round mode map with
      | error e => simp [hround, bind, Except.bind] at h
      | ok next =>
        rw [hround] at h
        rcases round_takes hs hrest hround with ⟨htext, hoffset, hne, hproper⟩
        rcases round_eq_ok hs hround with ⟨stack, -, rfl, hnext⟩
        have hlt := length_rest_past mode map hrest stack
        rcases ih hnext (by omega) h with ⟨htakes, hall⟩
        rw [ahead_past mode map hrest stack]
        refine ⟨.round hrest hround htext hoffset htakes, ?_⟩
        intro p hp
        rcases List.mem_cons.mp hp with rfl | hp
        · exact ⟨hne, hproper⟩
        · exact hall p hp

end Scan

/-! ## The tokens of tiles -/

/-- The tokens of a row of tiles. Between two constructs, before the first and behind the last one,
the plain text is one token, unless there is none; markers without an id do not interrupt it. -/
inductive Woven : List Tile → List Token → Prop where
  | last {gap : List Tile} : (∀ tile ∈ gap, tile.isConstruct = false) →
      Woven gap (flush (gap.flatMap Tile.kept) ++ [.eof])
  | next {gap tiles : List Tile} {span : Text} {token : Token} {ts : List Token} :
      (∀ tile ∈ gap, tile.isConstruct = false) → Woven tiles ts →
        Woven (gap ++ .construct span token :: tiles)
          (flush (gap.flatMap Tile.kept) ++ token :: ts)

theorem woven_assembleAfter (rs : List Reading) (gap : List Tile)
    (hgap : ∀ tile ∈ gap, tile.isConstruct = false) :
    Woven (gap ++ rs.map Reading.tile) (assembleAfter (gap.flatMap Tile.kept) rs) := by
  induction rs generalizing gap with
  | nil =>
    rw [List.map_nil, List.append_nil]
    exact .last hgap
  | cons r rs ih =>
    -- A tile that is no construct widens the gap by what it keeps.
    have hwiden : ∀ tile : Tile, tile.isConstruct = false →
        Woven (gap ++ tile :: rs.map Reading.tile)
          (assembleAfter (gap.flatMap Tile.kept ++ tile.kept) rs) := by
      intro tile htile
      have hwider : ∀ other ∈ gap ++ [tile], other.isConstruct = false := by
        intro other hother
        rcases List.mem_append.mp hother with hother | hother
        · exact hgap other hother
        · exact List.mem_singleton.mp hother ▸ htile
      simpa using ih (gap ++ [tile]) hwider
    have hemit := Scan.assemble_emit [] (gap.flatMap Tile.kept) r rs
    rw [List.nil_append] at hemit
    rw [hemit, List.map_cons]
    cases htoken : r.token? with
    | some token =>
      have hnext : Woven (gap ++ .construct r.span token :: ([] ++ rs.map Reading.tile))
          (flush (gap.flatMap Tile.kept) ++ token :: assembleAfter [] rs) :=
        .next hgap (ih [] (by simp))
      rw [Reading.tile_of_token? htoken]
      cases r with
      | text run breach => simp [Reading.token?] at htoken
      | _ => simpa [Scan.emit, htoken] using hnext
    | none =>
      cases r with
      | text run breach => exact hwiden (.plain run) rfl
      | idMarker inner =>
        have hdropped := hwiden (.dropped (Reading.idMarker inner).span) rfl
        simpa [Scan.emit, Reading.tile, htoken, Tile.kept] using hdropped
      | _ => simp [Reading.token?] at htoken

/-- No two text tokens stand side by side. -/
def Separated (ts : List Token) : Prop :=
  ∀ before v w after, ts ≠ before ++ .text v :: .text w :: after

theorem flush_cases (pending : Text) :
    flush pending = [] ∨ pending ≠ [] ∧ flush pending = [.text pending] := by
  cases pending with
  | nil => exact Or.inl rfl
  | cons c cs => exact Or.inr ⟨List.cons_ne_nil c cs, rfl⟩

/-- A token that is no text keeps what follows it apart from the text before it. -/
theorem separated_flush {token : Token} {ts : List Token} (pending : Text)
    (htoken : token.isText = false) (hts : Separated ts) :
    Separated (flush pending ++ token :: ts) := by
  have htail : Separated (token :: ts) := by
    intro before v w after h
    cases before with
    | nil =>
      rw [(List.cons.inj h).1] at htoken
      simp [Token.isText] at htoken
    | cons first before => exact hts before v w after (List.cons.inj h).2
  rcases flush_cases pending with hflush | ⟨-, hflush⟩
  · rw [hflush]
    exact htail
  · rw [hflush]
    intro before v w after h
    cases before with
    | nil =>
      rw [(List.cons.inj (List.cons.inj h).2).1] at htoken
      simp [Token.isText] at htoken
    | cons first before => exact htail before v w after (List.cons.inj h).2

theorem text_of_mem_flush {pending v : Text} (h : .text v ∈ flush pending) : v ≠ [] := by
  rcases flush_cases pending with hflush | ⟨hne, hflush⟩
  · simp [hflush] at h
  · rw [hflush, List.mem_singleton] at h
    rw [Token.text.inj h]
    exact hne

namespace Woven

variable {mode : Mode} {tiles : List Tile} {ts : List Token}

theorem separated (h : Woven tiles ts) (hproper : ∀ tile ∈ tiles, tile.Proper mode) :
    Separated ts := by
  induction h with
  | last _ =>
    refine separated_flush _ rfl ?_
    intro before v w after hnil
    simp at hnil
  | @next gap tiles span token ts _ _ ih =>
    have hspells : Spells span token ∧ tokenOf span = token :=
      hproper (.construct span token) (by simp)
    refine separated_flush _ hspells.1.isText_eq_false (ih ?_)
    intro tile htile
    exact hproper tile (by simp [htile])

theorem text_ne_nil (h : Woven tiles ts) (hproper : ∀ tile ∈ tiles, tile.Proper mode) {v : Text}
    (hv : .text v ∈ ts) : v ≠ [] := by
  induction h with
  | last _ =>
    rcases List.mem_append.mp hv with hv | hv
    · exact text_of_mem_flush hv
    · simp at hv
  | @next gap tiles span token ts _ _ ih =>
    have hspells : Spells span token ∧ tokenOf span = token :=
      hproper (.construct span token) (by simp)
    rcases List.mem_append.mp hv with hv | hv
    · exact text_of_mem_flush hv
    · rcases List.mem_cons.mp hv with rfl | hv
      · exact absurd hspells.1.isText_eq_false (by simp [Token.isText])
      · exact ih (fun tile htile => hproper tile (by simp [htile])) hv

end Woven

/-! ## Bodies -/

/-- Tokenizing loses nothing. Lenient mode takes every body, and in either mode the loop runs to
the end of the text: each round takes a tile that is not empty, the tiles put together are the
text, every construct has the token that its text determines, and the tokens are these and the plain
text between them. No text token is empty or stands beside another one, and the end mark comes last
and only there. -/
theorem tokenize_tiles (body : Text) :
    (∃ ts, tokenize .lenient body = .ok ts) ∧
    ∀ mode ts, tokenize mode body = .ok ts →
      ∃ tiles last,
        Scan.Takes mode (SourceMap.ofText (Text.joinLines body))
          (Scan.start (Text.joinLines body)) tiles last ∧
        last.finish mode = .ok ts ∧
        last.cursor.offset = (Text.joinLines body).length ∧
        (∀ tile ∈ tiles, tile.text ≠ [] ∧ tile.Proper mode) ∧
        tiles.flatMap Tile.text = Text.joinLines body ∧
        Woven tiles ts ∧
        (∀ v, .text v ∈ ts → v ≠ []) ∧ Separated ts ∧
        ∃ before, ts = before ++ [.eof] ∧ .eof ∉ before := by
  refine ⟨exists_tokenize_lenient body, ?_⟩
  intro mode ts h
  have hts := eq_assemble_of_tokenize h
  have hlist := tokenList_of_tokenize h
  rw [tokenize_eq_rounds] at h
  cases hrounds : (Scan.start (Text.joinLines body)).rounds mode
      (SourceMap.ofText (Text.joinLines body)) (Text.joinLines body).length with
  | error e => simp [hrounds, bind, Except.bind] at h
  | ok last =>
    rw [hrounds] at h
    rcases Scan.takes_of_rounds (Scan.sound_start _) (Nat.le_refl _) hrounds with
      ⟨htakes, hall⟩
    rw [Scan.ahead_start] at htakes hall
    have htiles : ∀ tile ∈ (readings (Text.joinLines body)).map (·.reading.tile),
        tile.text ≠ [] ∧ tile.Proper mode := by
      intro tile htile
      rcases List.mem_map.mp htile with ⟨p, hp, rfl⟩
      exact hall p hp
    have hproper := fun tile htile => (htiles tile htile).2
    have hwoven : Woven ((readings (Text.joinLines body)).map (·.reading.tile)) ts := by
      have hweave := woven_assembleAfter ((readings (Text.joinLines body)).map (·.reading)) []
        (by simp)
      rw [List.map_map] at hweave
      rw [hts]
      exact hweave
    refine ⟨_, last, htakes, h, ?_, htiles, htakes.flatMap_text, hwoven,
      fun v hv => hwoven.text_ne_nil hproper hv, hwoven.separated hproper,
      untilEof ts, hlist.append_eof, eof_notMem_untilEof ts⟩
    rw [htakes.offset_eq]
    exact Nat.zero_add _

/-- A marker without an id inside a line of text, and a line end of two characters. -/
theorem tokenize_tiles_dropped_marker :
    tokenize .lenient ['a', '{', '#', ' ', '}', 'b', '\r', '\n', '*', '*', 'c', '*', '*'] =
      .ok [.text ['a', 'b'], .newline, .bold ['c'], .eof] ∧
    ∃ tiles : List Tile,
      tiles.flatMap Tile.text = ['a', '{', '#', ' ', '}', 'b', '\n', '*', '*', 'c', '*', '*'] ∧
        Woven tiles [.text ['a', 'b'], .newline, .bold ['c'], .eof] := by
  refine ⟨rfl, ?_⟩
  rcases (tokenize_tiles ['a', '{', '#', ' ', '}', 'b', '\r', '\n', '*', '*', 'c', '*', '*']).2
    .lenient _ rfl with ⟨tiles, last, -, -, -, -, htext, hwoven, -⟩
  exact ⟨tiles, htext, hwoven⟩

end Notemark.Body
