import Notemark.Proofs.Pieces
import Notemark.Proofs.TokenList

/-!
# Printing and reading back

Strict reading and building the tree invert the printer of block trees:

* `OnLines`: pieces of which every one but line breaks has a line of its own,
* `scans_of_onLines`: such pieces are scanned one by one,
* `balanced_pieces`: the tags of a tree are balanced,
* `Between`: the states of the builder between two blocks,
* `run_pieces`: the builder turns the tokens of a tree into its element.
-/

namespace Notemark.Body

/-! ## Pieces on lines -/

/-- Every piece other than a line break is on a line of its own; `fresh` says whether the first
one is at the beginning of a line. -/
inductive OnLines : Bool → List Piece → Prop where
  | done (fresh : Bool) : OnLines fresh []
  | newline {fresh : Bool} {ps : List Piece} : OnLines true ps → OnLines fresh (.newline :: ps)
  | block {p : Piece} {ps : List Piece} : OnLines false ps → OnLines true (p :: ps)

section OnLines

variable {fresh : Bool} {ps rest : List Piece}

theorem OnLines.weaken (h : OnLines false ps) (fresh : Bool) : OnLines fresh ps := by
  cases h with
  | done => exact .done fresh
  | newline h => exact .newline h

/-- Line breaks may be added anywhere before a piece. -/
theorem OnLines.newlines (h : OnLines true ps) (n : Nat) (hn : fresh = true ∨ 0 < n) :
    OnLines fresh (List.replicate n .newline ++ ps) := by
  have hall : ∀ n, OnLines true (List.replicate n .newline ++ ps) := by
    intro n
    induction n with
    | zero => exact h
    | succ n ih =>
      rw [List.replicate_succ, List.cons_append]
      exact .newline ih
  cases n with
  | zero =>
    rcases hn with rfl | hpos
    · exact hall 0
    · exact absurd hpos (by decide)
  | succ n =>
    rw [List.replicate_succ, List.cons_append]
    exact .newline (hall n)

theorem BlockTree.gap_pos {before : Before} (h : before ≠ .nothing) (b : BlockTree) :
    0 < b.gap before := by
  cases b with
  | line blanks l => simp [gap, h]
  | container blanks o children last => simp [gap, h]
  | paragraph blanks p =>
    cases before with
    | nothing => exact absurd rfl h
    | other => simp [gap]
    | paragraph => simp [gap]

theorem BlockTree.before_ne (b : BlockTree) : b.before ≠ .nothing := by
  cases b <;> simp [before]

mutual

theorem onLines_pieces (b : BlockTree) {rest : List Piece} (h : OnLines false rest) :
    OnLines true (b.pieces ++ rest) := by
  match b with
  | .line _ l => exact .block h
  | .paragraph _ p => exact .block h
  | .container _ o children last =>
    have hclosing : OnLines true (.closing o.container :: rest) := .block h
    have hend : OnLines false
        (List.replicate (last + 1) .newline ++ .closing o.container :: rest) :=
      hclosing.newlines (last + 1) (Or.inr (by omega))
    have hinside := onLines_allPieces children .other hend
    rw [BlockTree.pieces, List.cons_append, List.append_assoc, List.append_assoc]
    exact .block hinside

theorem onLines_allPieces (bs : List BlockTree) (before : Before) {rest : List Piece}
    (h : OnLines false rest) :
    OnLines (before == .nothing) (BlockTree.allPieces before bs ++ rest) := by
  match bs with
  | [] => exact h.weaken _
  | b :: bs =>
    have hlater : OnLines false (BlockTree.allPieces b.before bs ++ rest) := by
      have hall := onLines_allPieces bs b.before h
      rwa [beq_eq_false_iff_ne.mpr b.before_ne] at hall
    have hblock := onLines_pieces b hlater
    rw [BlockTree.allPieces, List.append_assoc, List.append_assoc]
    refine hblock.newlines _ ?_
    by_cases hbefore : before = .nothing
    · exact Or.inl (by simp [hbefore])
    · exact Or.inr (b.gap_pos hbefore)

end

/-! ## Scanning -/

theorem Piece.print_ne_nil (p : Piece) : p.print ≠ [] := by
  cases p with
  | text p => exact p.ne_nil
  | newline => simp [print]
  | opening o => simp [print, bracketed]
  | closing c => simp [print, bracketed]
  | line l => cases l <;> simp [print, Line.print, bracketed]

theorem endOfLine_of_onLines (h : OnLines false ps) : EndOfLine (ps.flatMap Piece.print) := by
  cases h with
  | done => exact Or.inl rfl
  | newline h => exact Or.inr rfl

theorem scans_of_onLines (h : OnLines fresh ps) (k : Cursor) (hk : fresh = true → k.fresh = true) :
    Scans k (ps.flatMap Piece.print) (ps.map Piece.reading) [] := by
  induction h generalizing k with
  | done fresh => exact .done k []
  | @newline fresh ps _ ih =>
    have hscans := ih (k.advance ['\n']) (fun _ => rfl)
    exact Scans.step (r := .newline) (by simp [Reading.span]) rfl hscans
  | @block p ps h ih =>
    have hfits := p.fits
    -- The pieces behind it begin with a line break, if there are any.
    have hread := hfits.ownLine k (ps.flatMap Piece.print) (hk rfl) (endOfLine_of_onLines h)
    have hne : p.reading.span ≠ [] := by
      rw [hfits.span]
      exact p.print_ne_nil
    have hscans := Scans.step hne hread (ih (k.advance p.reading.span) (by simp))
    rwa [hfits.span] at hscans

theorem settled_pieces (ps : List Piece) : Text.Settled (ps.flatMap Piece.print) := by
  induction ps with
  | nil => exact Text.settled_nil
  | cons p ps ih =>
    rw [List.flatMap_cons]
    exact p.fits.settled.append ih

/-- The readings of printed pieces. -/
theorem readings_pieces (h : OnLines true ps) :
    readings (ps.flatMap Piece.print) = place 0 (ps.map Piece.reading) :=
  (scans_of_onLines h {} (fun _ => rfl)).readFrom_eq

end OnLines

/-! ## Rules and tags -/

theorem check_pieces (map : SourceMap) (offset : Nat) (ps : List Piece) :
    ∀ p ∈ place offset (ps.map Piece.reading), p.check map = .ok () := by
  induction ps generalizing offset with
  | nil => simp [place]
  | cons p ps ih =>
    intro q hq
    rcases List.mem_cons.mp hq with rfl | hq
    · exact p.fits.check map offset
    · exact ih _ q hq

/-- The tags of pieces, from some offset on. -/
def pieceTags (map : SourceMap) (offset : Nat) (ps : List Piece) :
    List (Bracket (OpenTag Container) ClosingTag) :=
  (place offset (ps.map Piece.reading)).filterMap (Placed.bracket? map)

section PieceTags

variable {map : SourceMap}

theorem pieceTags_append (map : SourceMap) (offset : Nat) (ps qs : List Piece) :
    ∃ offset', pieceTags map offset (ps ++ qs) =
      pieceTags map offset ps ++ pieceTags map offset' qs := by
  induction ps generalizing offset with
  | nil => exact ⟨offset, rfl⟩
  | cons p ps ih =>
    rcases ih (offset + p.reading.span.length) with ⟨offset', hsplit⟩
    refine ⟨offset', ?_⟩
    unfold pieceTags at hsplit ⊢
    rw [List.cons_append, List.map_cons, place, List.filterMap_cons, hsplit, List.map_cons, place,
      List.filterMap_cons]
    cases Placed.bracket? map ⟨offset, p.reading⟩ <;> rfl

theorem bracket?_piece (map : SourceMap) (offset : Nat) (p : Piece) :
    Placed.bracket? map ⟨offset, p.reading⟩ = Emitted.tag? map ⟨offset, p.token⟩ := by
  unfold Placed.bracket?
  rw [p.fits.token]
  cases p with
  | line l => cases l <;> rfl
  | _ => rfl

theorem pieceTags_cons (map : SourceMap) (offset : Nat) (p : Piece) (ps : List Piece) :
    ∃ offset', pieceTags map offset (p :: ps) =
      (Emitted.tag? map ⟨offset, p.token⟩).toList ++ pieceTags map offset' ps := by
  refine ⟨offset + p.reading.span.length, ?_⟩
  unfold pieceTags
  rw [List.map_cons, place, List.filterMap_cons, bracket?_piece]
  cases Emitted.tag? map ⟨offset, p.token⟩ <;> rfl

theorem pieceTags_newlines (map : SourceMap) (offset n : Nat) :
    pieceTags map offset (List.replicate n .newline) = [] := by
  induction n generalizing offset with
  | zero => rfl
  | succ n ih =>
    rcases pieceTags_cons map offset .newline (List.replicate n .newline) with ⟨offset', htags⟩
    rw [List.replicate_succ, htags, ih]
    rfl

mutual

/-- The tags of a tree are balanced. -/
theorem balanced_pieces (map : SourceMap) (offset : Nat) (b : BlockTree) :
    Balanced SameName (pieceTags map offset b.pieces) := by
  match b with
  | .line _ l =>
    rcases pieceTags_cons map offset (.line l) [] with ⟨offset', htags⟩
    have hnone : Emitted.tag? map ⟨offset, (Piece.line l).token⟩ = none := by
      cases l <;> rfl
    rw [BlockTree.pieces, htags, hnone]
    exact .nil
  | .paragraph _ p => exact .nil
  | .container _ o children last =>
    rw [BlockTree.pieces]
    rcases pieceTags_cons map offset (.opening o) _ with ⟨offset₁, hopening⟩
    rcases pieceTags_append map offset₁ (BlockTree.allPieces .other children)
      (List.replicate (last + 1) .newline ++ [.closing o.container]) with ⟨offset₂, hchildren⟩
    rcases pieceTags_append map offset₂ (List.replicate (last + 1) .newline)
      [.closing o.container] with ⟨offset₃, hnewlines⟩
    rcases pieceTags_cons map offset₃ (.closing o.container) [] with ⟨offset₄, hclosing⟩
    have hinside := balanced_allPieces map offset₁ children .other
    have hsame : SameName ⟨o.container, o.container.name, map.position offset⟩
        (o.container.name, map.position offset₃) := rfl
    rw [hopening, hchildren, hnewlines, pieceTags_newlines, hclosing, List.nil_append]
    exact .pair hsame hinside .nil

theorem balanced_allPieces (map : SourceMap) (offset : Nat) (bs : List BlockTree)
    (before : Before) :
    Balanced SameName (pieceTags map offset (BlockTree.allPieces before bs)) := by
  match bs with
  | [] => exact .nil
  | b :: bs =>
    rw [BlockTree.allPieces]
    rcases pieceTags_append map offset (List.replicate (b.gap before) .newline)
      (b.pieces ++ BlockTree.allPieces b.before bs) with ⟨offset₁, hnewlines⟩
    rcases pieceTags_append map offset₁ b.pieces (BlockTree.allPieces b.before bs) with
      ⟨offset₂, hblock⟩
    rw [hnewlines, pieceTags_newlines, hblock, List.nil_append]
    exact (balanced_pieces map offset₁ b).append (balanced_allPieces map offset₂ bs b.before)

end

end PieceTags

/-! ## Tokens -/

theorem assembleAfter_token {r : Reading} {token : Token} (h : r.token? = some token)
    (pending : Text) (rs : List Reading) :
    assembleAfter pending (r :: rs) = flush pending ++ token :: assembleAfter [] rs := by
  have hemit : Scan.emit [] pending r = (flush pending ++ [token], []) := by
    unfold Scan.emit
    split
    · simp [Reading.token?] at h
    · simp [h]
  have hassemble := Scan.assemble_emit [] pending r rs
  rw [List.nil_append, hemit] at hassemble
  simpa using hassemble

/-- Plain text at the end of its line is a token of its own. -/
theorem assembleAfter_of_onLines {ps : List Piece} (h : OnLines false ps) {run : Text}
    (hrun : run ≠ []) :
    assembleAfter run (ps.map Piece.reading) =
      .text run :: assembleAfter [] (ps.map Piece.reading) := by
  have hflush : flush run = [.text run] := by simp [flush, hrun]
  have hnewline : Piece.newline.reading.token? = some .newline := rfl
  cases h with
  | done => simp [assembleAfter, flush, hrun]
  | newline _ =>
    rw [List.map_cons, assembleAfter_token hnewline, assembleAfter_token hnewline, hflush]
    rfl

theorem assemble_pieces {fresh : Bool} {ps : List Piece} (h : OnLines fresh ps) :
    assembleAfter [] (ps.map Piece.reading) = ps.map Piece.token ++ [.eof] := by
  induction h with
  | done => rfl
  | newline _ ih =>
    have hnewline : Piece.newline.reading.token? = some .newline := rfl
    rw [List.map_cons, assembleAfter_token hnewline, ih]
    rfl
  | @block p ps h ih =>
    rw [List.map_cons, List.map_cons]
    have htoken := p.fits.token
    cases p with
    -- Text waits for the token behind it, which is a line break or the end mark.
    | text p =>
      have hrun : assembleAfter [] ((Piece.text p).reading :: ps.map Piece.reading) =
          assembleAfter p.text (ps.map Piece.reading) := rfl
      rw [hrun, assembleAfter_of_onLines h p.ne_nil, ih]
      rfl
    | line l =>
      have hsome : (Piece.line l).reading.token? = some (Piece.line l).token := by
        cases l <;> exact htoken
      rw [assembleAfter_token hsome, ih]
      rfl
    | newline =>
      rw [assembleAfter_token htoken, ih]
      rfl
    | opening o =>
      rw [assembleAfter_token htoken, ih]
      rfl
    | closing c =>
      rw [assembleAfter_token htoken, ih]
      rfl

/-- The tokens of a printed list of pieces. -/
theorem tokenize_pieces {ps : List Piece} (hlines : OnLines true ps)
    (hbalanced : ∀ map offset, Balanced SameName (pieceTags map offset ps)) :
    tokenize .strict (ps.flatMap Piece.print) = .ok (ps.map Piece.token ++ [.eof]) := by
  have hjoin := Text.joinLines_of_settled (settled_pieces ps)
  have hreadings := readings_pieces hlines
  have hsound : LocallySound (ps.flatMap Piece.print) := by
    unfold LocallySound
    rw [hjoin, hreadings]
    exact check_pieces _ 0 ps
  have htags : bodyTags (ps.flatMap Piece.print) =
      pieceTags (SourceMap.ofText (ps.flatMap Piece.print)) 0 ps := by
    unfold bodyTags pieceTags
    rw [tagWord_emitted, hjoin, hreadings]
  rw [tokenize_of_settle hsound, htags, settle_of_balanced (hbalanced _ 0), hjoin, hreadings,
    map_reading_place]
  exact congrArg Except.ok (assemble_pieces hlines)

/-! ## Building -/

namespace Builder

/-- Nothing is pending, except that the last token may have been a line break. -/
def clean (es : List Element) (fs : List Frame) (afterNewline : Bool) : Builder :=
  ⟨{}, ⟨es, { afterNewline := afterNewline }⟩, fs⟩

/-- A paragraph of one text is pending: right behind the text, or after a line break. -/
def pending (es : List Element) (fs : List Frame) (p : PlainText) (afterNewline : Bool) : Builder :=
  ⟨{}, ⟨es, ⟨if afterNewline then [.text p.text, .text [' ']] else [.text p.text], afterNewline,
    true⟩⟩, fs⟩

/-- The element of a paragraph of one text. -/
def paragraphElement (p : PlainText) : Element := .mk (.paragraph [.text p.text]) {} []

/-- The states between two blocks, after these elements and inside these frames. The flag says
whether the next text begins a paragraph. -/
inductive Between : List Element → List Frame → Bool → Builder → Prop where
  | clean (es : List Element) (fs : List Frame) (afterNewline : Bool) :
      Between es fs true (clean es fs afterNewline)
  | pending (es : List Element) (fs : List Frame) (p : PlainText) (afterNewline : Bool) :
      Between (es ++ [paragraphElement p]) fs false (pending es fs p afterNewline)

variable {es : List Element} {fs : List Frame} {clear : Bool} {b : Builder}

theorem not_blank_text (p : PlainText) : Paragraph.isBlankText (.text p.text) = false :=
  Text.allBlank_eq_false_of_strip p.stripped p.ne_nil

theorem trimmed_pending (p : PlainText) (afterNewline : Bool) :
    Paragraph.trimmed (if afterNewline then [.text p.text, .text [' ']] else [.text p.text]) =
      [.text p.text] := by
  have hspace : Paragraph.isBlankText (.text [' ']) = true := by decide
  cases afterNewline with
  | true => simp [Paragraph.trimmed, hspace, not_blank_text p]
  | false => simp [Paragraph.trimmed, not_blank_text p]

/-- Ending the paragraph leads to a clean state. -/
theorem Between.flush_eq (h : Between es fs clear b) :
    b.flush = .ok (Builder.clean es fs false) := by
  cases h with
  | clean es fs afterNewline => rfl
  | pending es fs p afterNewline =>
    have hitems := trimmed_pending p afterNewline
    unfold flush
    simp only [Builder.pending, Paragraph.flush, if_true, hitems]
    rfl

/-! ## Line breaks -/

theorem step_newline_clean (es : List Element) (fs : List Frame) (afterNewline : Bool) :
    (clean es fs afterNewline).step .newline = .ok (clean es fs (!afterNewline)) := by
  cases afterNewline <;> rfl

theorem step_newline_pending (es : List Element) (fs : List Frame) (p : PlainText) :
    (pending es fs p false).step .newline = .ok (pending es fs p true) := by
  -- The text is stripped, so the line break becomes a space of its own.
  have hlast : p.text.getLast? ≠ some ' ' := by
    intro hspace
    exact absurd (Text.not_blank_of_getLast? p.stripped hspace) (by decide)
  simp [step, addNewline, pending, Paragraph.breakLine, Paragraph.endsInSpace, hlast, withParagraph]

/-- A second line break ends the paragraph. -/
theorem step_newline_broken (es : List Element) (fs : List Frame) (p : PlainText) :
    (pending es fs p true).step .newline = .ok (clean (es ++ [paragraphElement p]) fs false) := by
  have hitems := trimmed_pending p true
  simp only [if_true] at hitems
  simp only [step, addNewline, pending, if_true, withParagraph, flush, Paragraph.flush, hitems]
  rfl

theorem run_newlines_clean (es : List Element) (fs : List Frame) (afterNewline : Bool) (n : Nat) :
    ∃ afterNewline', (clean es fs afterNewline).run (List.replicate n .newline) =
      .ok (clean es fs afterNewline') := by
  induction n generalizing afterNewline with
  | zero => exact ⟨afterNewline, rfl⟩
  | succ n ih =>
    rcases ih (!afterNewline) with ⟨afterNewline', hrun⟩
    refine ⟨afterNewline', ?_⟩
    rw [List.replicate_succ, run, step_newline_clean]
    exact hrun

/-- Line breaks keep the builder between two blocks; after two of them a paragraph can begin. -/
theorem Between.newlines (h : Between es fs clear b) (n : Nat) :
    ∃ b' clear', b.run (List.replicate n .newline) = .ok b' ∧ Between es fs clear' b' ∧
      (clear = true ∨ 2 ≤ n → clear' = true) := by
  cases h with
  | clean es fs afterNewline =>
    rcases run_newlines_clean es fs afterNewline n with ⟨afterNewline', hrun⟩
    exact ⟨_, true, hrun, .clean es fs afterNewline', fun _ => rfl⟩
  | pending es fs p afterNewline =>
    cases n with
    | zero => exact ⟨_, false, rfl, .pending es fs p afterNewline, by simp⟩
    | succ n =>
      rw [List.replicate_succ, run]
      cases afterNewline with
      | true =>
        rcases run_newlines_clean (es ++ [paragraphElement p]) fs false n with ⟨flag, hrun⟩
        rw [step_newline_broken]
        exact ⟨_, true, hrun, .clean _ fs flag, fun _ => rfl⟩
      | false =>
        rw [step_newline_pending]
        cases n with
        | zero => exact ⟨_, false, rfl, .pending es fs p true, by simp⟩
        | succ n =>
          rcases run_newlines_clean (es ++ [paragraphElement p]) fs false n with ⟨flag, hrun⟩
          refine ⟨_, true, ?_, .clean _ fs flag, fun _ => rfl⟩
          change (Builder.pending es fs p true).run (List.replicate (n + 1) .newline) = _
          rw [List.replicate_succ, run, step_newline_broken]
          exact hrun

/-! ## Blocks -/

/-- The frame of an open container. -/
def frameOf (o : Opener) (es : List Element) : Frame :=
  ⟨.container o.head none, {}, o.container, ⟨es, {}⟩⟩

theorem Line.step_token (l : Line) (b : Builder) : b.step l.token = b.addBlock l.block := by
  cases l with
  | heading level title => rfl
  | image description source => rfl
  | component name argument => rfl
  | leaf name attributes =>
    have hleaf : Block.ofLeaf name.name attributes.entries = (Line.leaf name attributes).block := by
      have hcontent : ∀ a ∈ attributes.entries, a.1 ≠ contentKey :=
        fun a ha => (attributes.writable.reserved a ha).1
      rw [Block.ofLeaf, if_neg name.notJson, get?_of_notMem hcontent, erase_of_notMem hcontent]
      rfl
    change b.addBlock (Block.ofLeaf name.name attributes.entries) = _
    rw [hleaf]

theorem Between.step_line (h : Between es fs clear b) (l : Line) :
    b.step l.token = .ok (Builder.clean (es ++ [.mk l.block {} []]) fs false) := by
  rw [Line.step_token, addBlock_of_flush h.flush_eq]
  rfl

/-- Where a paragraph can begin, a text begins one. -/
theorem Between.step_text (h : Between es fs true b) (p : PlainText) :
    b.step (.text p.text) = .ok (Builder.pending es fs p false) := by
  cases h with
  | clean es fs afterNewline =>
    have hstrip : Text.stripStart p.text = p.text := Text.stripStart_eq_self p.stripped
    have hblank : Text.allBlank p.text = false := not_blank_text p
    cases afterNewline with
    | true =>
      simp [step, Builder.clean, Builder.pending, withParagraph, Paragraph.addText, hstrip, hblank,
        p.ne_nil]
    | false =>
      simp [step, Builder.clean, Builder.pending, withParagraph, Paragraph.addText, hblank]

/-- An event at the end of the attributes is found there and taken out again. -/
theorem head_form (event : EventName) (attributes : AttributeList) :
    Head.ofAttributes Head.formName (attributes.entries ++ [(eventKey, event.text)]) =
      .form event.text attributes.entries := by
  have hevent : ∀ a ∈ attributes.entries, a.1 ≠ eventKey :=
    fun a ha => (attributes.writable.reserved a ha).2
  have hfind : attributes.entries.find? (fun a => a.1 == eventKey) = none := by
    refine List.find?_eq_none.mpr ?_
    intro a ha
    simpa using hevent a ha
  have hget : Attributes.getD (attributes.entries ++ [(eventKey, event.text)]) eventKey [] =
      event.text := by
    simp [Attributes.getD, Attributes.get?, List.find?_append, hfind]
  have herase : Attributes.erase (attributes.entries ++ [(eventKey, event.text)]) eventKey =
      attributes.entries := by
    have hself : attributes.entries.filter (fun a => a.1 != eventKey) = attributes.entries :=
      erase_of_notMem hevent
    simp [Attributes.erase, List.filter_append, hself]
  unfold Head.ofAttributes
  rw [if_pos rfl, hget, herase]

/-- The block of an opening tag that was read back. -/
theorem block_of_opener (o : Opener) :
    Block.ofOpening o.container o.container.name o.attributes = .container o.head none := by
  cases o with
  | box kind attributes =>
    have hcontent : ∀ a ∈ attributes.entries, a.1 ≠ contentKey :=
      fun a ha => (attributes.writable.reserved a ha).1
    simp only [Block.ofOpening, Opener.attributes, erase_of_notMem hcontent,
      get?_of_notMem hcontent]
    cases kind <;> rfl
  | form event attributes =>
    have hcontent : ∀ a ∈ attributes.entries ++ [(eventKey, event.text)], a.1 ≠ contentKey := by
      intro a ha
      rcases List.mem_append.mp ha with ha | ha
      · exact (attributes.writable.reserved a ha).1
      · have hkeys : eventKey ≠ contentKey := by decide
        rw [List.mem_singleton.mp ha]
        exact hkeys
    simp only [Block.ofOpening, Opener.attributes, erase_of_notMem hcontent,
      get?_of_notMem hcontent]
    exact congrArg (Block.container · none) (head_form event attributes)
  | loop source loopVariable => rfl
  | cond condition => rfl

theorem Between.step_opening (h : Between es fs clear b) (o : Opener) :
    b.step (Piece.opening o).token = .ok (Builder.clean [] (frameOf o es :: fs) false) := by
  change b.openFrame o.container
    (Block.ofOpening o.container o.container.name o.attributes) = _
  rw [block_of_opener, openFrame_of_flush h.flush_eq]
  rfl

theorem Between.step_closing {o : Opener} {children : List Element}
    (h : Between children (frameOf o es :: fs) clear b) :
    b.step (Piece.closing o.container).token =
      .ok (Builder.clean (es ++ [.mk (.container o.head none) {} children]) fs false) := by
  have hframes : b.frames = frameOf o es :: fs := by
    cases h <;> rfl
  exact close_of_flush h.flush_eq hframes

/-! ## Trees -/

theorem map_token_newlines (n : Nat) :
    (List.replicate n Piece.newline).map Piece.token = List.replicate n .newline :=
  List.map_replicate

mutual

/-- The tokens of a block add its element. -/
theorem run_pieces (tree : BlockTree) {es : List Element} {fs : List Frame} {clear : Bool}
    {b : Builder} (h : Between es fs clear b) (hclear : tree.before = .paragraph → clear = true) :
    ∃ b', b.run (tree.pieces.map Piece.token) = .ok b' ∧
      Between (es ++ [tree.element]) fs (tree.before != .paragraph) b' := by
  match tree with
  | .line _ l => exact ⟨_, run_of_step (h.step_line l) [], .clean _ fs false⟩
  | .paragraph _ p =>
    rcases hclear rfl with rfl
    exact ⟨_, run_of_step (h.step_text p) [], .pending es fs p false⟩
  | .container _ o children last =>
    -- Inside the container the builder starts anew, with one frame more.
    have hstart : Between [] (frameOf o es :: fs) (Before.other != .paragraph)
        (Builder.clean [] (frameOf o es :: fs) false) := .clean _ _ false
    rcases run_allPieces children .other hstart with ⟨b₁, clear₁, hchildren, hbetween₁⟩
    rcases hbetween₁.newlines (last + 1) with ⟨b₂, clear₂, hnewlines, hbetween₂, -⟩
    refine ⟨Builder.clean
      (es ++ [Element.mk (.container o.head none) {} (BlockTree.elements children)]) fs false, ?_,
      .clean _ fs false⟩
    simp only [BlockTree.pieces, List.map_cons, List.map_append, map_token_newlines, List.map_nil]
    calc
      b.run ((Piece.opening o).token ::
            ((BlockTree.allPieces .other children).map Piece.token ++
              (List.replicate (last + 1) .newline ++ [(Piece.closing o.container).token])))
          = (Builder.clean [] (frameOf o es :: fs) false).run
              ((BlockTree.allPieces .other children).map Piece.token ++
                (List.replicate (last + 1) .newline ++ [(Piece.closing o.container).token])) :=
            run_of_step (h.step_opening o) _
      _ = b₁.run (List.replicate (last + 1) .newline ++ [(Piece.closing o.container).token]) :=
            run_append_of_run hchildren _
      _ = b₂.run [(Piece.closing o.container).token] := run_append_of_run hnewlines _
      _ = .ok (Builder.clean
            (es ++ [Element.mk (.container o.head none) {} (BlockTree.elements children)]) fs
              false) :=
            run_of_step hbetween₂.step_closing []

/-- The tokens of a list of blocks add their elements. -/
theorem run_allPieces (trees : List BlockTree) (before : Before) {es : List Element}
    {fs : List Frame} {b : Builder} (h : Between es fs (before != .paragraph) b) :
    ∃ b' clear', b.run ((BlockTree.allPieces before trees).map Piece.token) = .ok b' ∧
      Between (es ++ BlockTree.elements trees) fs clear' b' := by
  match trees with
  | [] => exact ⟨b, _, rfl, by simpa [BlockTree.elements] using h⟩
  | tree :: trees =>
    rcases h.newlines (tree.gap before) with ⟨b₁, clear₁, hnewlines, hbetween₁, hclear⟩
    -- Between two paragraphs there are two line breaks at least.
    have hready : tree.before = .paragraph → clear₁ = true := by
      intro hparagraph
      refine hclear ?_
      cases tree with
      | paragraph blanks p =>
        cases before with
        | nothing => exact Or.inl rfl
        | other => exact Or.inl rfl
        | paragraph => exact Or.inr (by simp [BlockTree.gap])
      | line blanks l => simp [BlockTree.before] at hparagraph
      | container blanks o children last => simp [BlockTree.before] at hparagraph
    rcases run_pieces tree hbetween₁ hready with ⟨b₂, htree, hbetween₂⟩
    rcases run_allPieces trees tree.before hbetween₂ with ⟨b₃, clear₃, htrees, hbetween₃⟩
    refine ⟨b₃, clear₃, ?_, ?_⟩
    · simp only [BlockTree.allPieces, List.map_append, map_token_newlines]
      calc
        b.run (List.replicate (tree.gap before) .newline ++
              (tree.pieces.map Piece.token ++
                (BlockTree.allPieces tree.before trees).map Piece.token))
            = b₁.run (tree.pieces.map Piece.token ++
                (BlockTree.allPieces tree.before trees).map Piece.token) :=
              run_append_of_run hnewlines _
        _ = b₂.run ((BlockTree.allPieces tree.before trees).map Piece.token) :=
              run_append_of_run htree _
        _ = .ok b₃ := htrees
    · rw [List.append_assoc] at hbetween₃
      exact hbetween₃

end

theorem Between.finish_eq (h : Between es [] clear b) : b.finish = .ok es := by
  have hframes : b.frames = [] := by
    cases h <;> rfl
  unfold finish
  rw [hframes]
  simp only [List.length_nil, closeFrames, bind, Except.bind, h.flush_eq]
  rfl

end Builder

/-! ## The round trip -/

theorem Piece.token_ne_eof (p : Piece) : p.token ≠ .eof := by
  cases p with
  | line l => cases l <;> exact Token.noConfusion
  | _ => exact Token.noConfusion

theorem onLines_document (bs : List BlockTree) (last : Nat) :
    OnLines true (documentPieces bs last) := by
  have hend : OnLines false (List.replicate last Piece.newline) := by
    cases last with
    | zero => exact .done false
    | succ n =>
      have hall : OnLines true (List.replicate n .newline ++ []) :=
        (OnLines.done true).newlines n (Or.inl rfl)
      rw [List.append_nil] at hall
      exact .newline hall
  exact onLines_allPieces bs .nothing hend

theorem balanced_document (map : SourceMap) (offset : Nat) (bs : List BlockTree) (last : Nat) :
    Balanced SameName (pieceTags map offset (documentPieces bs last)) := by
  rcases pieceTags_append map offset (BlockTree.allPieces .nothing bs)
    (List.replicate last .newline) with ⟨offset', htags⟩
  rw [documentPieces, htags, pieceTags_newlines, List.append_nil]
  exact balanced_allPieces map offset bs .nothing

/-- The builder turns the tokens of a list of blocks into their elements. -/
theorem parse_document (bs : List BlockTree) (last : Nat) :
    parse ((documentPieces bs last).map Piece.token ++ [.eof]) =
      .ok (BlockTree.elements bs) := by
  have heof : .eof ∉ (documentPieces bs last).map Piece.token := by
    intro hmem
    rcases List.mem_map.mp hmem with ⟨p, -, hp⟩
    exact p.token_ne_eof hp
  have hstart : Builder.Between [] [] (Before.nothing != .paragraph) {} := .clean [] [] false
  rcases Builder.run_allPieces bs .nothing hstart with ⟨b₁, clear₁, hrun, hbetween₁⟩
  rcases hbetween₁.newlines last with ⟨b₂, clear₂, hnewlines, hbetween₂, -⟩
  unfold parse
  rw [untilEof_append_eof heof, documentPieces, List.map_append, Builder.run_append_of_run hrun,
    Builder.map_token_newlines, hnewlines]
  exact hbetween₂.finish_eq

/-- Strict reading accepts every printed list of blocks, and building the tree gives back the
elements that the blocks stand for. -/
theorem parse_tokenize_print (bs : List BlockTree) (last : Nat) :
    ∃ ts, tokenize .strict (print bs last) = .ok ts ∧ parse ts = .ok (BlockTree.elements bs) :=
  ⟨_, tokenize_pieces (onLines_document bs last) fun map offset =>
    balanced_document map offset bs last, parse_document bs last⟩

-- A heading, and a box with a paragraph in it.
example :
    print
      [.line 0 (.heading 1 ⟨['H', 'i'], by decide, by decide⟩),
        .container 0 (.box .div ⟨[], by simp, by simp, by simp, by simp⟩)
          [.paragraph 0 ⟨['x'], by simp, by decide, by simp⟩] 0] 0 =
      ['#', '#', ' ', 'H', 'i', '\n', '[', 'd', 'i', 'v', ']', '\n', 'x', '\n', '[', '/', 'd', 'i',
        'v', ']'] := rfl

end Notemark.Body
