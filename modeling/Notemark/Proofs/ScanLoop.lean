import Notemark.Body.Tree
import Notemark.Proofs.Scanners

/-!
# The scanning loop

The loop scans, judges and emits in one go, and gives up at the first fault, before anything behind
the fault has been looked at. Reading a whole body first and reviewing the readings afterwards comes
to the same.

* `Scan.Sound`: the state belongs to a place in the content, and remembers nothing wrong,
* `Scan.round_eq`: a round judges the reading at the cursor, and passes over it,
* `Scan.rounds_finish`: from any state the loop gives what the readings from there on give,
* `tokenize_eq_tokensOf`: the tokens of a body are those of its readings,
* `Scan.Alike`, `Scan.rounds_lenient`: as long as strict mode goes on, lenient mode goes through
  states that differ in the open tags and in what is remembered at most.
-/

namespace Notemark.Body

/-- Plain text, as opposed to a token that has a reading of its own. -/
def Token.isText : Token → Bool
  | text _ => true
  | _ => false

/-- How many markers without an id a scanner takes. -/
def Output.drops : Output → Nat
  | dropped => 1
  | _ => 0

namespace Scan

/-- What a reading does to the emitted tokens and to the text that waits. -/
def emit (tokens : List Token) (pending : Text) : Reading → List Token × Text
  | .text run _ => (tokens, pending ++ run)
  | reading =>
    match reading.token? with
    | none => (tokens, pending)
    | some token => (tokens ++ (flush pending ++ [token]), [])

/-- The state behind a reading. -/
def pass (s : Scan) (reading : Reading) (memo : Memo) (stack : TagStack Container) : Scan where
  cursor := s.cursor.advance reading.span
  rest := s.rest.drop reading.span.length
  memo := memo
  emitted := (emit s.tokens s.pending reading).1.reverse
  held := (emit s.tokens s.pending reading).2.reverse
  stack := stack
  dropped := s.dropped + reading.output.drops

@[simp] theorem tokens_pass (s : Scan) (reading : Reading) (memo : Memo)
    (stack : TagStack Container) :
    (s.pass reading memo stack).tokens = (emit s.tokens s.pending reading).1 :=
  List.reverse_reverse _

@[simp] theorem pending_pass (s : Scan) (reading : Reading) (memo : Memo)
    (stack : TagStack Container) :
    (s.pass reading memo stack).pending = (emit s.tokens s.pending reading).2 :=
  List.reverse_reverse _

/-! ## One round -/

variable {content : Text} {s s' : Scan} {mode : Mode} {map : SourceMap}

/-- The state belongs to a place in the content, and what it remembers is right. -/
structure Sound (content : Text) (s : Scan) : Prop where
  rest : s.rest = content.drop s.cursor.offset
  memo : s.memo.Faithful content s.cursor.offset

theorem sound_start (content : Text) : Sound content (start content) where
  rest := rfl
  memo := Memo.faithful_empty content 0

theorem reverse_flush (pending : Text) : (flush pending).reverse = flush pending := by
  unfold flush
  split <;> rfl

/-- What stands at the cursor is taken, if it is not refused. -/
theorem look_eq (mode : Mode) (map : SourceMap) (hs : s.Sound content) :
    (s.look mode map).1 =
      taking mode map s.stack ⟨s.cursor.offset, readAt s.cursor s.rest⟩ := by
  rw [← scanAfresh_eq]
  exact (agrees_scanAt mode map s.stack hs.rest s.memo hs.memo).1

/-- The state behind the reading at the cursor. -/
def past (mode : Mode) (map : SourceMap) (s : Scan) (stack : TagStack Container) : Scan :=
  s.pass (readAt s.cursor s.rest) (s.look mode map).2 stack

@[simp] theorem tokens_past (s : Scan) (stack : TagStack Container) :
    (s.past mode map stack).tokens = (emit s.tokens s.pending (readAt s.cursor s.rest)).1 :=
  tokens_pass ..

@[simp] theorem pending_past (s : Scan) (stack : TagStack Container) :
    (s.past mode map stack).pending = (emit s.tokens s.pending (readAt s.cursor s.rest)).2 :=
  pending_pass ..

theorem sound_past (hs : s.Sound content) (stack : TagStack Container) :
    (s.past mode map stack).Sound content := by
  have hmemo := (agrees_scanAt mode map s.stack hs.rest s.memo hs.memo).2
  have hoffset : (s.past mode map stack).cursor.offset =
      s.cursor.offset + (readAt s.cursor s.rest).span.length := Cursor.offset_advance _ _
  refine ⟨?_, ?_⟩
  · rw [hoffset, ← List.drop_drop, ← hs.rest]
    rfl
  · rw [hoffset]
    exact hmemo.mono (by omega)

/-- Taking a reading leads to the state behind it. -/
theorem behind_taking (s : Scan) (stack : TagStack Container) (memo : Memo) :
    s.behind ⟨(readAt s.cursor s.rest).span.length, (readAt s.cursor s.rest).output, stack⟩ memo =
      s.pass (readAt s.cursor s.rest) memo stack := by
  have hspan : s.rest.take (readAt s.cursor s.rest).span.length =
      (readAt s.cursor s.rest).span := by
    by_cases hrest : s.rest = []
    · rw [hrest]
      rfl
    · exact (readAt_covers s.cursor hrest).take
  -- What waits is turned round when it becomes a token, and so are the tokens at the end.
  have htoken : ∀ token, (s.tokens ++ (flush s.pending ++ [token])).reverse =
      token :: (flush s.pending ++ s.emitted) := by
    intro token
    simp [tokens, reverse_flush]
  have htokens : s.tokens.reverse = s.emitted := List.reverse_reverse _
  have hpending : s.pending.reverse = s.held := List.reverse_reverse _
  unfold behind pass emit Reading.output
  rw [hspan]
  cases readAt s.cursor s.rest with
  | text run breach =>
    dsimp only
    rw [List.reverse_append, htokens, hpending]
    rfl
  | idMarker inner =>
    dsimp only
    cases Reading.token? (.idMarker inner) with
    | none =>
      dsimp only
      rw [htokens, hpending]
      rfl
    | some token =>
      dsimp only
      rw [htoken]
      rfl
  | _ =>
    dsimp only [Reading.token?]
    rw [htoken]
    rfl

/-- A round judges the reading at the cursor, and passes over it. -/
theorem round_eq (hs : s.Sound content) :
    s.round mode map =
      (judge mode map s.stack ⟨s.cursor.offset, readAt s.cursor s.rest⟩).map
        (s.past mode map) := by
  have hlook := look_eq mode map hs
  unfold round past
  rcases hround : s.look mode map with ⟨outcome, memo⟩
  have houtcome : outcome =
      taking mode map s.stack ⟨s.cursor.offset, readAt s.cursor s.rest⟩ := by rw [← hlook, hround]
  rw [houtcome, taking]
  cases judge mode map s.stack ⟨s.cursor.offset, readAt s.cursor s.rest⟩ with
  | error e => rfl
  | ok stack => exact congrArg Except.ok (behind_taking s stack memo)

/-- All that a round can do. -/
theorem round_eq_ok (hs : s.Sound content) (h : s.round mode map = .ok s') :
    ∃ stack, judge mode map s.stack ⟨s.cursor.offset, readAt s.cursor s.rest⟩ = .ok stack ∧
      s' = s.past mode map stack ∧ s'.Sound content := by
  rw [round_eq hs] at h
  cases hj : judge mode map s.stack ⟨s.cursor.offset, readAt s.cursor s.rest⟩ with
  | error e => simp [hj, Except.map] at h
  | ok stack =>
    have hs' : s.past mode map stack = s' := by simpa [hj, Except.map] using h
    exact ⟨stack, rfl, hs'.symm, hs' ▸ sound_past hs stack⟩

theorem isText_tag (tag : Tag) : tag.token.isText = false := by
  cases tag with
  | closing name => rfl
  | component name argument => rfl
  | opening name clause =>
    unfold Tag.token
    dsimp only
    cases TagKind.ofName name <;> rfl

theorem isText_of_token? {reading : Reading} {token : Token} (h : reading.token? = some token) :
    token.isText = false := by
  cases reading with
  | tag inner => exact Option.some.inj h ▸ isText_tag _
  | idMarker inner =>
    simp only [Reading.token?] at h
    split at h
    · simp at h
    · exact Option.some.inj h ▸ rfl
  | text run breach => simp [Reading.token?] at h
  | _ => exact Option.some.inj h ▸ rfl

theorem filter_flush (pending : Text) : (flush pending).filter (!·.isText) = [] := by
  unfold flush
  split <;> rfl

/-- Emitting a reading adds its token, if plain text does not count. -/
theorem filter_emit (tokens : List Token) (pending : Text) (reading : Reading) :
    (emit tokens pending reading).1.filter (!·.isText) =
      tokens.filter (!·.isText) ++ reading.token?.toList := by
  unfold emit
  split
  · simp [Reading.token?]
  · cases htoken : reading.token? with
    | none => simp
    | some token =>
      simp only [List.filter_append, filter_flush, List.nil_append, Option.toList_some]
      simp [isText_of_token? htoken]

/-- Emitting a reading and assembling the rest is assembling both. -/
theorem assemble_emit (tokens : List Token) (pending : Text) (reading : Reading)
    (later : List Reading) :
    tokens ++ assembleAfter pending (reading :: later) =
      (emit tokens pending reading).1 ++ assembleAfter (emit tokens pending reading).2 later := by
  cases reading with
  | text run breach => rfl
  | idMarker inner =>
    by_cases hid : (Text.strip inner).isEmpty = true
    · simp [emit, assembleAfter, Reading.token?, hid]
    · simp [emit, assembleAfter, Reading.token?, hid]
  | newline => simp [emit, assembleAfter, Reading.token?]
  | heading level rest => simp [emit, assembleAfter, Reading.token?]
  | styleMarker classes => simp [emit, assembleAfter, Reading.token?]
  | reference raw => simp [emit, assembleAfter, Reading.token?]
  | image description source => simp [emit, assembleAfter, Reading.token?]
  | tag inner => simp [emit, assembleAfter, Reading.token?]
  | bold inner => simp [emit, assembleAfter, Reading.token?]
  | italic inner => simp [emit, assembleAfter, Reading.token?]

/-! ## All rounds -/

/-- The readings from the cursor of a state on. -/
def ahead (s : Scan) : List Placed := readFrom 0 s.cursor s.rest

theorem ahead_start (content : Text) : (start content).ahead = readings content := rfl

theorem ahead_of_rest_nil (h : s.rest = []) : s.ahead = [] := by
  rw [ahead, h]
  rfl

theorem ahead_past (mode : Mode) (map : SourceMap) (hrest : s.rest ≠ [])
    (stack : TagStack Container) :
    s.ahead = ⟨s.cursor.offset, readAt s.cursor s.rest⟩ :: (s.past mode map stack).ahead :=
  readFrom_step s.cursor hrest

theorem length_rest_past (mode : Mode) (map : SourceMap) (hrest : s.rest ≠ [])
    (stack : TagStack Container) :
    (s.past mode map stack).rest.length < s.rest.length := by
  have hpos := List.length_pos_iff.mpr (readAt_covers s.cursor hrest).1
  have hlen := List.length_pos_iff.mpr hrest
  have hdrop : (s.past mode map stack).rest.length =
      s.rest.length - (readAt s.cursor s.rest).span.length := List.length_drop
  omega

/-- What the readings from the cursor on make of a state. -/
def outlook (mode : Mode) (map : SourceMap) (s : Scan) : Except ScanError (List Token) :=
  match mode with
  | .lenient => .ok (s.tokens ++ assembleAfter s.pending (s.ahead.map (·.reading)))
  | .strict => do
    let stack ← reviewFrom map s.stack s.ahead
    stack.finish.map fun _ => s.tokens ++ assembleAfter s.pending (s.ahead.map (·.reading))

theorem outlook_of_rest_nil (h : s.rest = []) : s.outlook mode map = s.finish mode := by
  unfold outlook finish
  rw [ahead_of_rest_nil h]
  cases mode with
  | lenient => rfl
  | strict =>
    change Except.map _ s.stack.finish = (s.stack.finish >>= fun _ => .ok _)
    cases s.stack.finish <;> rfl

/-- Judging one reading and looking on from the next state is looking on. -/
theorem outlook_step (hrest : s.rest ≠ []) :
    s.outlook mode map =
      judge mode map s.stack ⟨s.cursor.offset, readAt s.cursor s.rest⟩ >>= fun stack =>
        (s.past mode map stack).outlook mode map := by
  -- Emitting does not look at the stack, so this serves both modes.
  have htokens : ∀ stack : TagStack Container,
      s.tokens ++ assembleAfter s.pending (s.ahead.map (·.reading)) =
        (s.past mode map stack).tokens ++
          assembleAfter (s.past mode map stack).pending
            ((s.past mode map stack).ahead.map (·.reading)) := by
    intro stack
    rw [ahead_past mode map hrest stack, List.map_cons, assemble_emit, tokens_past, pending_past]
  cases mode with
  | lenient => exact congrArg Except.ok (htokens s.stack)
  | strict =>
    have hreview : reviewFrom map s.stack s.ahead =
        reviewStep map s.stack ⟨s.cursor.offset, readAt s.cursor s.rest⟩ >>= fun stack =>
          reviewFrom map stack (s.past .strict map stack).ahead := by
      rw [ahead_past .strict map hrest s.stack]
      rfl
    unfold outlook judge
    rw [hreview]
    cases reviewStep map s.stack ⟨s.cursor.offset, readAt s.cursor s.rest⟩ with
    | error e => rfl
    | ok stack =>
      rw [htokens stack]
      rfl

/-- From any state, enough rounds give what reading first and judging afterwards gives. -/
theorem rounds_finish (hs : s.Sound content) {n : Nat} (hn : s.rest.length ≤ n) :
    s.rounds mode map n >>= finish mode = s.outlook mode map := by
  induction n generalizing s with
  | zero =>
    have hnil : s.rest = [] := List.length_eq_zero_iff.mp (by omega)
    rw [outlook_of_rest_nil hnil]
    rfl
  | succ n ih =>
    unfold rounds
    by_cases hrest : s.rest = []
    · rw [if_pos hrest, outlook_of_rest_nil hrest]
      rfl
    · rw [if_neg hrest, outlook_step hrest, round_eq hs]
      cases judge mode map s.stack ⟨s.cursor.offset, readAt s.cursor s.rest⟩ with
      | error e => rfl
      | ok stack =>
        -- Every round shortens the text, so as many rounds as characters are enough.
        have hlt := length_rest_past mode map hrest stack
        exact ih (sound_past hs stack) (by omega)

/-- After some rounds so many readings have been judged, and their tokens emitted. -/
theorem rounds_eq_ok (hs : s.Sound content) {n : Nat} (h : s.rounds .strict map n = .ok s') :
    reviewFrom map s.stack (s.ahead.take n) = .ok s'.stack ∧
      s'.tokens.filter (!·.isText) =
        s.tokens.filter (!·.isText) ++ (s.ahead.take n).filterMap (·.reading.token?) := by
  induction n generalizing s with
  | zero =>
    rcases Except.ok.inj h with rfl
    simp [reviewFrom]
  | succ n ih =>
    unfold rounds at h
    by_cases hrest : s.rest = []
    · rw [if_pos hrest] at h
      rcases Except.ok.inj h with rfl
      simp [ahead_of_rest_nil hrest, reviewFrom]
    · rw [if_neg hrest] at h
      cases hround : s.round .strict map with
      | error e => simp [hround, bind, Except.bind] at h
      | ok next =>
        rw [hround] at h
        rcases round_eq_ok hs hround with ⟨stack, hjudge, rfl, hnext⟩
        rcases ih hnext h with ⟨hreview, htokens⟩
        have hstep : reviewStep map s.stack ⟨s.cursor.offset, readAt s.cursor s.rest⟩ =
            .ok stack := hjudge
        rw [ahead_past .strict map hrest stack, List.take_succ_cons]
        refine ⟨?_, ?_⟩
        · rw [reviewFrom, hstep]
          exact hreview
        · rw [htokens, tokens_past, filter_emit, List.append_assoc, List.filterMap_cons]
          cases (readAt s.cursor s.rest).token? <;> rfl

/-! ## Both modes -/

/-- The states of two scans agree in all but the open tags and what is remembered. -/
structure Alike (s s' : Scan) : Prop where
  cursor : s'.cursor = s.cursor
  rest : s'.rest = s.rest
  tokens : s'.tokens = s.tokens
  pending : s'.pending = s.pending
  dropped : s'.dropped = s.dropped

/-- The state behind a reading depends on the state before it only. -/
theorem Alike.past {r : Scan} (h : Alike s r) (mode mode' : Mode) (map : SourceMap)
    (stack stack' : TagStack Container) :
    Alike (s.past mode map stack) (r.past mode' map stack') := by
  rcases h with ⟨hcursor, hrest, htokens, hpending, hdropped⟩
  refine ⟨?_, ?_, ?_, ?_, ?_⟩
  · simp only [Scan.past, pass, hcursor, hrest]
  · simp only [Scan.past, pass, hcursor, hrest]
  · rw [tokens_past, tokens_past, htokens, hpending, hcursor, hrest]
  · rw [pending_past, pending_past, htokens, hpending, hcursor, hrest]
  · simp only [Scan.past, pass, hcursor, hrest, hdropped]

/-- What strict mode lets pass lenient mode takes too, as the same text and for the same token. -/
theorem round_lenient {r : Scan} (hs : s.Sound content) (hr : r.Sound content) (h : Alike s r)
    (hround : s.round .strict map = .ok s') :
    ∃ r', r.round .lenient map = .ok r' ∧ Alike s' r' ∧ s'.Sound content ∧ r'.Sound content := by
  rcases round_eq_ok hs hround with ⟨stack, -, rfl, hs'⟩
  refine ⟨r.past .lenient map r.stack, ?_, h.past .strict .lenient map stack r.stack, hs',
    sound_past hr r.stack⟩
  rw [round_eq hr]
  rfl

/-- As long as strict mode goes on, both modes go through states that are alike. -/
theorem rounds_lenient {r : Scan} (hs : s.Sound content) (hr : r.Sound content) (h : Alike s r)
    {n : Nat} (hrounds : s.rounds .strict map n = .ok s') :
    ∃ r', r.rounds .lenient map n = .ok r' ∧ Alike s' r' := by
  induction n generalizing s r with
  | zero => exact ⟨r, rfl, Except.ok.inj hrounds ▸ h⟩
  | succ n ih =>
    unfold rounds at hrounds ⊢
    by_cases hrest : s.rest = []
    · rw [if_pos hrest] at hrounds
      rw [if_pos (h.rest.trans hrest)]
      exact ⟨r, rfl, Except.ok.inj hrounds ▸ h⟩
    · rw [if_neg hrest] at hrounds
      rw [if_neg (h.rest ▸ hrest)]
      cases hround : s.round .strict map with
      | error e => simp [hround, bind, Except.bind] at hrounds
      | ok next =>
        rw [hround] at hrounds
        rcases round_lenient hs hr h hround with ⟨next', hround', halike, hnext, hnext'⟩
        rw [hround']
        exact ih hnext hnext' halike hrounds

theorem finish_lenient {r : Scan} (h : Alike s r) {ts : List Token}
    (hfinish : s.finish .strict = .ok ts) : r.finish .lenient = .ok ts := by
  have hts : s.tokens ++ (flush s.pending ++ [.eof]) = ts := by
    unfold finish Mode.demand at hfinish
    cases hstack : s.stack.finish with
    | error e => simp [hstack, bind, Except.bind] at hfinish
    | ok u => simpa [hstack, bind, Except.bind, pure, Except.pure] using hfinish
  rw [← hts, ← h.tokens, ← h.pending]
  rfl

end Scan

theorem tokenize_eq_rounds (mode : Mode) (body : Text) :
    tokenize mode body =
      (Scan.start (Text.joinLines body)).rounds mode (SourceMap.ofText (Text.joinLines body))
        (Text.joinLines body).length >>= Scan.finish mode := by
  unfold tokenize scan
  dsimp only
  cases (Scan.start (Text.joinLines body)).rounds mode
      (SourceMap.ofText (Text.joinLines body)) (Text.joinLines body).length with
  | error e => rfl
  | ok s =>
    change Except.map _ (s.finish mode >>= fun ts => .ok (ts, s.dropped)) = s.finish mode
    cases s.finish mode <;> rfl

/-- The tokens of a body are those of its readings: reading all of it first, and then judging the
readings one after the other, is the same as judging each of them in the round that takes it. -/
theorem tokenize_eq_tokensOf (mode : Mode) (body : Text) :
    tokenize mode body = tokensOf mode (Text.joinLines body) (readings (Text.joinLines body)) := by
  rw [tokenize_eq_rounds]
  refine (Scan.rounds_finish (Scan.sound_start _) (Nat.le_refl _)).trans ?_
  unfold tokensOf Scan.outlook
  rw [Scan.ahead_start]
  cases mode with
  | lenient => rfl
  | strict =>
    rw [if_pos rfl]
    unfold review
    simp only [Scan.start]
    cases reviewFrom (SourceMap.ofText (Text.joinLines body)) []
      (readings (Text.joinLines body)) with
    | error e => rfl
    | ok stack =>
      change Except.map _ stack.finish = (stack.finish >>= fun _ => .ok _)
      cases stack.finish <;> rfl

/-- Strict mode is a review of the readings that lenient mode takes as they are. -/
theorem tokenize_strict_eq (body : Text) :
    tokenize .strict body =
      (review (SourceMap.ofText (Text.joinLines body)) (readings (Text.joinLines body))).map
        fun _ => assemble ((readings (Text.joinLines body)).map (·.reading)) := by
  rw [tokenize_eq_tokensOf, tokensOf, if_pos rfl]
  cases review (SourceMap.ofText (Text.joinLines body)) (readings (Text.joinLines body)) <;> rfl

/-! ## Strict mode only filters -/

/-- A body that strict mode accepts has the same tokens, and so the same elements, in lenient
mode. -/
theorem tokenize_lenient_of_strict {body : Text} {ts : List Token}
    (h : tokenize .strict body = .ok ts) :
    tokenize .lenient body = .ok ts ∧
      ∀ ts', tokenize .lenient body = .ok ts' → parse ts' = parse ts := by
  have hlenient : tokenize .lenient body = .ok ts := by
    rw [tokenize_eq_rounds] at h ⊢
    have hstart := Scan.sound_start (Text.joinLines body)
    cases hrounds : (Scan.start (Text.joinLines body)).rounds .strict
        (SourceMap.ofText (Text.joinLines body)) (Text.joinLines body).length with
    | error e => simp [hrounds, bind, Except.bind] at h
    | ok s =>
      rw [hrounds] at h
      rcases Scan.rounds_lenient hstart hstart ⟨rfl, rfl, rfl, rfl, rfl⟩ hrounds with
        ⟨r, hsame, halike⟩
      rw [hsame]
      exact Scan.finish_lenient halike h
  refine ⟨hlenient, ?_⟩
  intro ts' hts'
  rw [hlenient] at hts'
  rw [Except.ok.inj hts']

/-- A box with a class and a reference, which both modes read alike. -/
theorem tokenize_lenient_of_strict_box :
    tokenize .strict ['[', 'd', 'i', 'v', ' ', 'a', '=', '"', ']', '"', ']', '{', '$', 'v', '}',
        '[', '/', 'd', 'i', 'v', ']'] =
      .ok [.opening .div ['d', 'i', 'v'] [(['a'], [']'])], .reference ['{', '$', 'v', '}'],
        .closing (some .div) ['d', 'i', 'v'], .eof] ∧
    tokenize .lenient ['[', 'd', 'i', 'v', ' ', 'a', '=', '"', ']', '"', ']', '{', '$', 'v', '}',
        '[', '/', 'd', 'i', 'v', ']'] =
      .ok [.opening .div ['d', 'i', 'v'] [(['a'], [']'])], .reference ['{', '$', 'v', '}'],
        .closing (some .div) ['d', 'i', 'v'], .eof] :=
  ⟨rfl, (tokenize_lenient_of_strict rfl).1⟩

end Notemark.Body
