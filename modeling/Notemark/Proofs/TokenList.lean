import Notemark.Proofs.Builder
import Notemark.Proofs.TagBalance

/-!
# The token list of a text

* `assemble_eq_append_eof`: apart from plain text and the end mark, the tokens are those of the
  readings,
* `sound_of_mem_readings`: every reading of a text has a sound token,
* `TokenList`: what is known about the tokens of a body, in either mode,
* `TokenList.shaped`: the attributes of the tags that have a form of their own.
-/

namespace Notemark.Body

/-! ## Assembling -/

theorem ne_eof_tag (tag : Tag) : tag.token ≠ .eof := by
  cases tag with
  | closing name => exact Token.noConfusion
  | component name argument => exact Token.noConfusion
  | opening name clause =>
    unfold Tag.token
    dsimp only
    cases TagKind.ofName name <;> exact Token.noConfusion

theorem ne_eof_of_token? {reading : Reading} {token : Token} (h : reading.token? = some token) :
    token ≠ .eof := by
  cases reading with
  | tag inner => exact Option.some.inj h ▸ ne_eof_tag _
  | idMarker inner =>
    simp only [Reading.token?] at h
    split at h
    · simp at h
    · exact Option.some.inj h ▸ Token.noConfusion
  | text run breach => simp [Reading.token?] at h
  | _ => exact Option.some.inj h ▸ Token.noConfusion

theorem eof_notMem_flush (pending : Text) : .eof ∉ flush pending := by
  unfold flush
  split <;> simp

/-- Emitting a reading adds no end mark. -/
theorem eof_notMem_emit {tokens : List Token} (h : .eof ∉ tokens) (pending : Text)
    (reading : Reading) : .eof ∉ (Scan.emit tokens pending reading).1 := by
  unfold Scan.emit
  split
  · exact h
  · cases htoken : reading.token? with
    | none => exact h
    | some token =>
      have hne := ne_eof_of_token? htoken
      simp only [List.mem_append, List.mem_singleton, not_or]
      exact ⟨h, eof_notMem_flush pending, hne.symm⟩

/-- The end mark comes last and only there, and the tokens before it that are not plain text are
those of the readings. -/
theorem assemble_eq_append_eof {tokens : List Token} (h : .eof ∉ tokens) (pending : Text)
    (rs : List Reading) :
    ∃ ts, tokens ++ assembleAfter pending rs = ts ++ [.eof] ∧ .eof ∉ ts ∧
      ts.filter (!·.isText) = tokens.filter (!·.isText) ++ rs.filterMap Reading.token? := by
  induction rs generalizing tokens pending with
  | nil =>
    refine ⟨tokens ++ flush pending, by simp [assembleAfter], ?_, ?_⟩
    · rw [List.mem_append, not_or]
      exact ⟨h, eof_notMem_flush pending⟩
    · rw [List.filter_append, Scan.filter_flush]
      rfl
  | cons r rs ih =>
    rw [Scan.assemble_emit]
    rcases ih (eof_notMem_emit h pending r) (Scan.emit tokens pending r).2 with
      ⟨ts, hts, heof, hfilter⟩
    refine ⟨ts, hts, heof, ?_⟩
    rw [hfilter, Scan.filter_emit, List.append_assoc, List.filterMap_cons]
    cases r.token? <;> rfl

theorem eof_notMem_untilEof (ts : List Token) : .eof ∉ untilEof ts := by
  intro hmem
  have hall := List.all_takeWhile (p := (· ≠ .eof)) (l := ts)
  simpa using List.all_eq_true.mp hall .eof hmem

theorem untilEof_append_eof {ts : List Token} (h : .eof ∉ ts) : untilEof (ts ++ [.eof]) = ts := by
  unfold untilEof
  rw [List.takeWhile_append_of_pos]
  · simp
  · intro t ht
    have hne : t ≠ .eof := fun heof => h (heof ▸ ht)
    simpa using hne

/-! ## Sound tokens -/

/-- The reading is no variable reference, or the text begins with its brace. -/
def Reading.BraceFirst (r : Reading) (t : Text) : Prop :=
  ∀ raw, r = .reference raw → t.head? = some '{'

section BraceFirst

variable {r r' : Reading} {t : Text} {k : Cursor}

theorem Reading.BraceFirst.ite {p : Prop} [Decidable p] (hr : r.BraceFirst t)
    (hr' : r'.BraceFirst t) : (if p then r else r').BraceFirst t := by
  split
  · exact hr
  · exact hr'

theorem braceFirst_plain (breach : Option Breach) : (plain k t breach).BraceFirst t := by
  intro raw h
  simp [plain] at h

/-- Only a brace begins a reference. -/
theorem readAt_braceFirst (k : Cursor) (t : Text) : (readAt k t).BraceFirst t := by
  unfold readAt
  split
  · intro raw h
    simp at h
  · refine .ite ?_ (braceFirst_plain none)
    rw [readHeading]
    exact .ite (fun raw h => by simp at h) (braceFirst_plain none)
  · intro raw _
    rfl
  · intro raw _
    rfl
  · split
    · intro raw h
      simp at h
    · exact braceFirst_plain none
  · rw [readTag]
    split
    · intro raw h
      simp at h
    · exact braceFirst_plain _
  · rw [readBold]
    split
    · exact braceFirst_plain none
    · exact .ite (braceFirst_plain none) (fun raw h => by simp at h)
  · rw [readItalic]
    refine .ite (braceFirst_plain none) ?_
    split
    · exact braceFirst_plain none
    · exact .ite (braceFirst_plain none)
        (.ite (braceFirst_plain none) (fun raw h => by simp at h))
  · exact braceFirst_plain none

end BraceFirst

theorem sound_tag (tag : Tag) : tag.token.Sound := by
  cases tag with
  | closing name => rfl
  | component name argument => trivial
  | opening name clause =>
    unfold Tag.token
    dsimp only
    cases hkind : TagKind.ofName name with
    | container c => exact (TagKind.name_of_ofName hkind).symm
    | json => trivial
    | leaf => trivial

/-- A reading that covers the beginning of a text has a sound token. -/
theorem sound_of_readAt {k : Cursor} {t : Text} {r : Reading} (hne : r.span ≠ [])
    (hread : readAt k (r.span ++ t) = r) {token : Token} (htoken : r.token? = some token) :
    token.Sound := by
  cases r with
  | tag inner => exact Option.some.inj htoken ▸ sound_tag _
  | idMarker inner =>
    simp only [Reading.token?] at htoken
    split at htoken
    · simp at htoken
    · exact Option.some.inj htoken ▸ trivial
  | text run breach => simp [Reading.token?] at htoken
  | reference raw =>
    rcases Option.some.inj htoken with rfl
    -- A brace is not blank.
    have hhead := readAt_braceFirst k _ raw hread
    cases raw with
    | nil => exact absurd rfl hne
    | cons c cs =>
      have hc : c = '{' := Option.some.inj hhead
      subst hc
      rfl
  | _ => exact Option.some.inj htoken ▸ trivial

theorem sound_of_scans {k : Cursor} {t rest : Text} {rs : List Reading} (h : Scans k t rs rest) :
    ∀ token ∈ rs.filterMap Reading.token?, token.Sound := by
  induction h with
  | done k t =>
    intro token htoken
    simp at htoken
  | step hne hread _ ih =>
    intro token htoken
    rw [List.filterMap_cons] at htoken
    split at htoken
    · exact ih token htoken
    · next first hfirst =>
      rcases List.mem_cons.mp htoken with rfl | hlater
      · exact sound_of_readAt hne hread hfirst
      · exact ih token hlater

/-! ## Tokens of bodies -/

/-- What is known about the tokens of a body: the end mark comes last, all tokens before it are
sound, and those that are not plain text are the tokens of the readings. -/
structure TokenList (body : Text) (ts : List Token) : Prop where
  append_eof : ts = untilEof ts ++ [.eof]
  sound : ∀ t ∈ untilEof ts, t.Sound
  readings : (untilEof ts).filter (!·.isText) =
    (readings (Text.joinLines body)).filterMap (·.reading.token?)

/-- What holds of the end mark and of all tokens before it holds of all tokens. -/
theorem TokenList.forall_mem {body : Text} {ts : List Token} (h : TokenList body ts)
    {P : Token → Prop} (heof : P .eof) (hbefore : ∀ t ∈ untilEof ts, P t) : ∀ t ∈ ts, P t := by
  intro t ht
  rw [h.append_eof] at ht
  rcases List.mem_append.mp ht with hmem | hmem
  · exact hbefore t hmem
  · exact List.mem_singleton.mp hmem ▸ heof

/-- What holds of plain text and of the tokens of all readings holds of all tokens before the end
mark. -/
theorem TokenList.forall_mem_untilEof {body : Text} {ts : List Token} (h : TokenList body ts)
    {P : Token → Prop} (htext : ∀ value, P (.text value))
    (hreading : ∀ p ∈ Body.readings (Text.joinLines body), ∀ t, p.reading.token? = some t → P t) :
    ∀ t ∈ untilEof ts, P t := by
  intro t ht
  by_cases hkind : t.isText = true
  · cases t with
    | text value => exact htext value
    | _ => simp [Token.isText] at hkind
  · have hmem : t ∈ (untilEof ts).filter (!·.isText) := by simp [ht, hkind]
    rw [h.readings] at hmem
    rcases List.mem_filterMap.mp hmem with ⟨p, hp, htoken⟩
    exact hreading p hp t htoken

theorem tokenList_assemble (body : Text) :
    TokenList body (assemble ((readings (Text.joinLines body)).map (·.reading))) := by
  -- The readings of a text come from a scan, which knows where each of them was read.
  rcases exists_scans_readings (Text.joinLines body) with ⟨rs, hscans, hreadings⟩
  rw [hreadings, map_reading_place]
  rcases assemble_eq_append_eof List.not_mem_nil [] rs with ⟨ts, hts, heof, hfilter⟩
  have hts' : assemble rs = ts ++ [.eof] := hts
  have huntil : untilEof (assemble rs) = ts := by rw [hts', untilEof_append_eof heof]
  refine ⟨by rw [huntil, hts'], ?_, ?_⟩
  · rw [huntil]
    intro t ht
    -- Plain text is sound by itself; every other token belongs to a reading.
    by_cases htext : t.isText = true
    · cases t with
      | text value => trivial
      | _ => simp [Token.isText] at htext
    · have hmem : t ∈ ts.filter (!·.isText) := by simp [ht, htext]
      rw [hfilter] at hmem
      exact sound_of_scans hscans t hmem
  · have hmap : rs.filterMap Reading.token? =
        ((place 0 rs).map (·.reading)).filterMap Reading.token? := by rw [map_reading_place]
    rw [huntil, hfilter, hreadings, hmap, List.filterMap_map]
    rfl

/-- In either mode the tokens of a body are those of its readings. -/
theorem eq_assemble_of_tokenize {mode : Mode} {body : Text} {ts : List Token}
    (h : tokenize mode body = .ok ts) :
    ts = assemble ((readings (Text.joinLines body)).map (·.reading)) := by
  cases mode with
  | lenient =>
    rw [tokenize_eq_tokensOf] at h
    exact (Except.ok.inj h).symm
  | strict =>
    rw [tokenize_strict_eq] at h
    cases hreview : review (SourceMap.ofText (Text.joinLines body))
        (readings (Text.joinLines body)) with
    | error e => simp [hreview, Except.map] at h
    | ok u =>
      rw [hreview] at h
      exact (Except.ok.inj h).symm

/-- The tokens of a body, in either mode. -/
theorem tokenList_of_tokenize {mode : Mode} {body : Text} {ts : List Token}
    (h : tokenize mode body = .ok ts) : TokenList body ts := by
  rw [eq_assemble_of_tokenize h]
  exact tokenList_assemble body

/-- Lenient mode takes every body. -/
theorem exists_tokenize_lenient (body : Text) : ∃ ts, tokenize .lenient body = .ok ts :=
  ⟨_, tokenize_eq_tokensOf .lenient body⟩

/-! ## Attributes of tags -/

namespace Attributes

theorem get?_cons (a : Text × Text) (as : Attributes) (name : Text) :
    get? (a :: as) name = if a.1 = name then some a.2 else get? as name := by
  by_cases ha : a.1 = name
  · simp [get?, ha]
  · simp [get?, ha]

theorem get?_set (name value : Text) (as : Attributes) :
    get? (set name value as) name = some value := by
  induction as with
  | nil => simp [set, get?]
  | cons a as ih =>
    unfold set
    by_cases ha : a.1 = name
    · rw [if_pos ha, get?_cons, if_pos ha]
    · rw [if_neg ha, get?_cons, if_neg ha, ih]

end Attributes

/-- The tags whose attributes are not written as attributes have those that belong to them, and no
others. -/
def Token.Shaped : Token → Prop
  | .opening .each _ as =>
    ∃ source loopVariable, as = [(sourceKey, source), (variableKey, loopVariable)]
  | .opening .cond _ as => ∃ condition, as = [(conditionKey, condition)]
  | .leaf name as => name = jsonName → ∃ shown, as = [(variableKey, shown)]
  | .component _ as => ∃ name argument, as = [(aliasKey, name), (argumentKey, argument)]
  | _ => True

theorem attributes_ofEach (rest : Text) :
    ∃ source loopVariable, (Clause.ofEach rest).attributes =
      [(sourceKey, source), (variableKey, loopVariable)] := by
  unfold Clause.ofEach
  dsimp only
  split
  · exact ⟨_, _, rfl⟩
  · exact ⟨_, _, rfl⟩

/-- What follows the name of a tag is read by the kind of the tag. -/
theorem shaped_opening (name : Text) (offset : Nat) (rest : Text) :
    (Tag.opening name (Clause.ofText (TagKind.ofName name) offset rest)).token.Shaped := by
  unfold Tag.token
  dsimp only
  cases hkind : TagKind.ofName name with
  | container c =>
    cases c with
    | each => exact attributes_ofEach rest
    | cond => exact ⟨_, rfl⟩
    | _ => trivial
  | json => exact fun _ => ⟨_, rfl⟩
  | leaf =>
    intro hname
    subst hname
    exact absurd hkind (by decide)

theorem shaped_ofInner (inner : Text) : (Tag.ofInner inner).token.Shaped := by
  unfold Tag.ofInner
  split
  · trivial
  · exact ⟨_, _, rfl⟩
  · exact shaped_opening _ _ _

theorem shaped_of_token? {reading : Reading} {token : Token} (h : reading.token? = some token) :
    token.Shaped := by
  cases reading with
  | tag inner => exact Option.some.inj h ▸ shaped_ofInner inner
  | idMarker inner =>
    simp only [Reading.token?] at h
    split at h
    · simp at h
    · exact Option.some.inj h ▸ trivial
  | text run breach => simp [Reading.token?] at h
  | _ => exact Option.some.inj h ▸ trivial

theorem TokenList.shaped {body : Text} {ts : List Token} (h : TokenList body ts) :
    ∀ t ∈ untilEof ts, t.Shaped :=
  h.forall_mem_untilEof (fun _ => trivial) fun _ _ _ htoken => shaped_of_token? htoken

end Notemark.Body
