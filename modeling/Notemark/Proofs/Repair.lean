import Notemark.Proofs.Nesting

/-!
# Repaired token lists

A closing tag that does not fit the innermost open container is not an error for the tree builder:
it closes the containers inside the one that is meant, or it is passed over. The same tree comes
from a token list in which this has been made explicit.

* `repair`: the token list with the closing tags that are missing, and without those that fit
  nothing,
* `Builder.close_top`, `Builder.close_below`, `Builder.close_stray`: recovery, one container at a
  time,
* `Builder.run_repairFrom`: from any state, repaired tokens lead to the same elements,
* `unwinds_repairFrom`: repaired tokens close everything that is opened.
-/

namespace Notemark.Body

/-! ## Repaired token lists -/

/-- The closing tag of a container. -/
def Token.ending (c : Container) : Token := .closing (some c) c.name

/-- The tokens before the end mark, repaired. The containers that are open stand on the stack,
innermost first. -/
def repairFrom (stack : List Container) : List Token → List Token
  | [] => stack.map Token.ending
  | .eof :: _ => stack.map Token.ending
  | .opening c name as :: ts => .opening c name as :: repairFrom (c :: stack) ts
  | .closing none _ :: ts => repairFrom stack ts
  | .closing (some c) name :: ts =>
    -- The containers inside the one that is meant are closed first.
    if c ∈ stack then
      (stack.takeWhile (· ≠ c)).map Token.ending ++
        .closing (some c) name :: repairFrom (stack.dropWhile (· ≠ c)).tail ts
    else repairFrom stack ts
  | t :: ts => t :: repairFrom stack ts

def repair (ts : List Token) : List Token := repairFrom [] ts

/-- A closing tag that fits nothing, and one that closes the condition inside its box. -/
example :
    repair [.opening .div ['d', 'i', 'v'] [], .closing none ['h', 'r'],
        .opening .cond ['i', 'f'] [], .text ['x'], .closing (some .div) ['d', 'i', 'v'],
        .opening .span ['s', 'p', 'a', 'n'] [], .eof] =
      [.opening .div ['d', 'i', 'v'] [], .opening .cond ['i', 'f'] [], .text ['x'],
        .closing (some .cond) ['i', 'f'], .closing (some .div) ['d', 'i', 'v'],
        .opening .span ['s', 'p', 'a', 'n'] [], .closing (some .span) ['s', 'p', 'a', 'n']] := rfl

/-! ## Recovery, one container at a time -/

namespace Builder

variable {b b' : Builder} {c k : Container} {ks : List Container}

/-- The kinds of the open containers, innermost first. -/
def kinds (b : Builder) : List Container := b.frames.map (·.closes)

theorem kinds_cons {f : Frame} {fs : List Frame} (h : b.frames = f :: fs) :
    b.kinds = f.closes :: fs.map (·.closes) := by
  unfold kinds
  rw [h]
  rfl

theorem length_kinds (b : Builder) : b.kinds.length = b.frames.length := List.length_map _

theorem closingDepth?_eq (b : Builder) (c : Container) :
    b.closingDepth? (some c) = (b.kinds.findIdx? (· == c)).map (· + 1) := by
  simp only [closingDepth?, kinds, List.findIdx?_map]
  rfl

theorem frames_of_closeFrame (h : b.closeFrame = .ok b') : b'.frames = b.frames.tail := by
  cases hflush : b.flush with
  | error e => simp [closeFrame, hflush, bind, Except.bind] at h
  | ok b₁ =>
    have hframes := frames_of_flush hflush
    rw [closeFrame_of_flush hflush] at h
    rw [← Except.ok.inj h, ← hframes]
    cases hb₁ : b₁.frames with
    | nil => simp [hb₁]
    | cons f fs => rfl

theorem kinds_of_closeFrame (h : b.closeFrame = .ok b') : b'.kinds = b.kinds.tail := by
  unfold kinds
  rw [frames_of_closeFrame h, List.map_tail]

theorem close_of_depth {depth : Nat} (h : b.closingDepth? (some c) = some depth) :
    b.close (some c) = closeFrames depth b := by
  unfold close
  rw [h]

/-- A closing tag of the innermost kind closes one container. -/
theorem close_top (h : b.kinds = k :: ks) : b.close (some k) = b.closeFrame := by
  have hdepth : b.closingDepth? (some k) = some 1 := by
    rw [closingDepth?_eq, h]
    simp [List.findIdx?_cons]
  rw [close_of_depth hdepth]
  change (b.closeFrame >>= fun b' => .ok b') = b.closeFrame
  cases b.closeFrame <;> rfl

/-- A closing tag that fits a container further out closes the innermost one, and then does what
it does to the rest. -/
theorem close_below (h : b.kinds = k :: ks) (hne : k ≠ c) (hmem : c ∈ ks) :
    b.close (some c) = b.closeFrame >>= fun b' => b'.close (some c) := by
  obtain ⟨depth, hdepth⟩ : ∃ depth, ks.findIdx? (· == c) = some depth := by
    cases hfind : ks.findIdx? (· == c) with
    | some depth => exact ⟨depth, rfl⟩
    | none =>
      have hall := List.findIdx?_eq_none_iff.mp hfind c hmem
      simp at hall
  have hhere : b.closingDepth? (some c) = some (depth + 1 + 1) := by
    rw [closingDepth?_eq, h, List.findIdx?_cons]
    simp [hne, hdepth]
  rw [close_of_depth hhere]
  change (b.closeFrame >>= fun b' => closeFrames (depth + 1) b') = _
  cases hclose : b.closeFrame with
  | error e => rfl
  | ok b' =>
    -- One container less is open, so one less has to be closed.
    have hthere : b'.closingDepth? (some c) = some (depth + 1) := by
      rw [closingDepth?_eq, kinds_of_closeFrame hclose, h]
      simp [hdepth]
    exact (close_of_depth hthere).symm

/-- A closing tag that fits no open container does nothing. -/
theorem close_stray (h : c ∉ b.kinds) : b.close (some c) = .ok b := by
  have hdepth : b.closingDepth? (some c) = none := by
    rw [closingDepth?_eq, Option.map_eq_none_iff, List.findIdx?_eq_none_iff]
    intro d hd
    simpa using fun hdc : d = c => h (hdc ▸ hd)
  unfold close
  rw [hdepth]

theorem close_none (b : Builder) : b.close none = .ok b := rfl

theorem kinds_of_close (hmem : c ∈ b.kinds) (h : b.close (some c) = .ok b') :
    b'.kinds = (b.kinds.dropWhile (· ≠ c)).tail := by
  generalize hks : b.kinds = ks at hmem
  induction ks generalizing b with
  | nil => simp at hmem
  | cons k ks ih =>
    by_cases hk : k = c
    · subst hk
      rw [close_top hks] at h
      simp [kinds_of_closeFrame h, hks]
    · have hrest : c ∈ ks := by
        rcases List.mem_cons.mp hmem with hc | hc
        · exact absurd hc.symm hk
        · exact hc
      rw [close_below hks hk hrest] at h
      cases hclose : b.closeFrame with
      | error e => simp [hclose, bind, Except.bind] at h
      | ok b₁ =>
        rw [hclose] at h
        have hks₁ : b₁.kinds = ks := by rw [kinds_of_closeFrame hclose, hks]; rfl
        rw [ih h hks₁ hrest]
        simp [hk]

/-- At the end the open containers are closed one by one. -/
theorem finish_cons (h : b.kinds = k :: ks) :
    b.finish = b.closeFrame >>= fun b' => b'.finish := by
  have hlen : b.frames.length = ks.length + 1 := by
    simpa [kinds] using congrArg List.length h
  unfold finish
  rw [hlen]
  change ((b.closeFrame >>= fun b' => closeFrames ks.length b') >>= fun b' => _) = _
  cases hclose : b.closeFrame with
  | error e => rfl
  | ok b' =>
    have hlen' : b'.frames.length = ks.length := by
      rw [frames_of_closeFrame hclose, List.length_tail, hlen]
      rfl
    change (closeFrames ks.length b' >>= fun b' => _) =
      (closeFrames b'.frames.length b' >>= fun b' => _)
    rw [hlen']

theorem finish_nil (h : b.kinds = []) :
    b.finish = b.flush >>= fun b' => .ok b'.level.elements := by
  have hframes : b.frames = [] := List.map_eq_nil_iff.mp h
  unfold finish
  rw [hframes]
  rfl

/-! ## Steps and the open containers -/

theorem kinds_of_flush (h : b.flush = .ok b') : b'.kinds = b.kinds := by
  unfold kinds
  rw [frames_of_flush h]

theorem kinds_of_addBlock {block : Block} (h : b.addBlock block = .ok b') :
    b'.kinds = b.kinds := by
  cases hflush : b.flush with
  | error e => simp [addBlock, hflush, bind, Except.bind] at h
  | ok b₁ =>
    have hkinds := kinds_of_flush hflush
    rw [addBlock_of_flush hflush] at h
    rw [← Except.ok.inj h]
    exact hkinds

theorem kinds_of_addMark {change : Mark → Mark} (h : b.addMark change = .ok b') :
    b'.kinds = b.kinds := by
  unfold addMark at h
  by_cases hcontent : b.level.paragraph.hasContent = true
  · rw [if_pos hcontent] at h
    cases hflush : b.flush with
    | error e => simp [hflush, bind, Except.bind] at h
    | ok b₁ =>
      have hkinds := kinds_of_flush hflush
      rw [hflush] at h
      rw [← Except.ok.inj h]
      exact hkinds
  · rw [if_neg hcontent] at h
    rw [← Except.ok.inj h]
    rfl

theorem kinds_of_addNewline (h : b.addNewline = .ok b') : b'.kinds = b.kinds := by
  unfold addNewline at h
  by_cases hafter : b.level.paragraph.afterNewline = true
  · simp only [hafter, if_true] at h
    exact kinds_of_flush h
  · simp only [hafter, Bool.false_eq_true, if_false] at h
    rw [← Except.ok.inj h]
    rfl

/-- A token without a bracket opens and closes nothing. -/
theorem kinds_of_step {t : Token} (ht : t.bracket? = none) (h : b.step t = .ok b') :
    b'.kinds = b.kinds := by
  cases t with
  | opening c name as => simp [Token.bracket?] at ht
  | closing c name => simp [Token.bracket?] at ht
  | newline => exact kinds_of_addNewline h
  | idMarker id =>
    have hmark : b.addMark (fun mark => { mark with id := id }) = .ok b' := h
    exact kinds_of_addMark hmark
  | styleMarker classes =>
    have hmark : b.addMark (fun mark => { mark with style := some classes }) = .ok b' := h
    exact kinds_of_addMark hmark
  | heading level value => exact kinds_of_addBlock h
  | image as => exact kinds_of_addBlock h
  | component value as => exact kinds_of_addBlock h
  | leaf name as => exact kinds_of_addBlock h
  | text value => exact Except.ok.inj h ▸ rfl
  | reference value => exact Except.ok.inj h ▸ rfl
  | bold value => exact Except.ok.inj h ▸ rfl
  | italic value => exact Except.ok.inj h ▸ rfl
  | eof => exact Except.ok.inj h ▸ rfl

theorem kinds_of_opening {name : Text} {as : Attributes}
    (h : b.step (.opening c name as) = .ok b') : b'.kinds = c :: b.kinds := by
  change b.openFrame c _ = .ok b' at h
  cases hflush : b.flush with
  | error e => simp [openFrame, hflush, bind, Except.bind] at h
  | ok b₁ =>
    rw [openFrame_of_flush hflush] at h
    rw [← Except.ok.inj h, ← kinds_of_flush hflush]
    rfl

end Builder

/-! ## The tree of a repaired list -/

theorem untilEof_cons {t : Token} (h : t ≠ .eof) (ts : List Token) :
    untilEof (t :: ts) = t :: untilEof ts := by
  simp [untilEof, h]

/-- A token that opens and closes nothing is kept. -/
theorem repairFrom_plain {t : Token} (ht : t.bracket? = none) (heof : t ≠ .eof)
    (stack : List Container) (ts : List Token) :
    repairFrom stack (t :: ts) = t :: repairFrom stack ts := by
  cases t with
  | opening c name as => simp [Token.bracket?] at ht
  | closing c name => simp [Token.bracket?] at ht
  | eof => exact absurd rfl heof
  | _ => rfl

theorem eof_notMem_endings (stack : List Container) : .eof ∉ stack.map Token.ending := by
  simp [Token.ending]

theorem eof_notMem_repairFrom (stack : List Container) (ts : List Token) :
    .eof ∉ repairFrom stack ts := by
  induction ts generalizing stack with
  | nil => exact eof_notMem_endings stack
  | cons t ts ih =>
    cases t with
    | eof => exact eof_notMem_endings stack
    | opening c name as =>
      simp only [repairFrom, List.mem_cons, reduceCtorEq, false_or]
      exact ih (c :: stack)
    | closing c name =>
      cases c with
      | none => exact ih stack
      | some c =>
        unfold repairFrom
        split
        · simp only [List.mem_append, List.mem_cons, reduceCtorEq, false_or, not_or]
          exact ⟨eof_notMem_endings _, ih _⟩
        · exact ih stack
    | _ =>
      simp only [repairFrom, List.mem_cons, reduceCtorEq, false_or]
      exact ih stack

namespace Builder

variable {b b' : Builder} {c k : Container} {ks : List Container}

/-- The closing tags of all containers inside the one that is meant, followed by its own, do what
its own does alone. -/
theorem run_endings (hmem : c ∈ b.kinds) (name : Text) (us : List Token) :
    b.run ((b.kinds.takeWhile (· ≠ c)).map Token.ending ++ .closing (some c) name :: us) =
      b.close (some c) >>= fun b' => b'.run us := by
  generalize hks : b.kinds = ks at hmem
  induction ks generalizing b with
  | nil => simp at hmem
  | cons k ks ih =>
    by_cases hk : k = c
    · simp only [hk, ne_eq, not_true_eq_false, decide_false, List.takeWhile_cons,
        Bool.false_eq_true, if_false, List.map_nil, List.nil_append]
      rfl
    · have hrest : c ∈ ks := by
        rcases List.mem_cons.mp hmem with hc | hc
        · exact absurd hc.symm hk
        · exact hc
      have htake : (k :: ks).takeWhile (· ≠ c) = k :: ks.takeWhile (· ≠ c) := by simp [hk]
      rw [htake, close_below hks hk hrest]
      -- The innermost container is closed by a tag of its own.
      change (b.close (some k) >>= fun b₁ => b₁.run _) = _
      rw [close_top hks]
      cases hclose : b.closeFrame with
      | error e => rfl
      | ok b₁ =>
        have hks₁ : b₁.kinds = ks := by rw [kinds_of_closeFrame hclose, hks]; rfl
        exact ih hks₁ hrest

/-- The closing tags of all open containers do what the end does. -/
theorem run_endings_finish (b : Builder) :
    (b.run (b.kinds.map Token.ending) >>= fun b' => b'.finish) = b.finish := by
  generalize hks : b.kinds = ks
  induction ks generalizing b with
  | nil => rfl
  | cons k ks ih =>
    rw [finish_cons hks]
    change ((b.close (some k) >>= fun b₁ => b₁.run _) >>= fun b' => b'.finish) = _
    rw [close_top hks]
    cases hclose : b.closeFrame with
    | error e => rfl
    | ok b₁ =>
      have hks₁ : b₁.kinds = ks := by rw [kinds_of_closeFrame hclose, hks]; rfl
      exact ih b₁ hks₁

/-- From any state, repaired tokens lead to the same elements. -/
theorem run_repairFrom (b : Builder) (ts : List Token) :
    (b.run (repairFrom b.kinds ts) >>= fun b' => b'.finish) =
      (b.run (untilEof ts) >>= fun b' => b'.finish) := by
  induction ts generalizing b with
  | nil => exact run_endings_finish b
  | cons t ts ih =>
    by_cases heof : t = .eof
    · subst heof
      exact run_endings_finish b
    · rw [untilEof_cons heof]
      cases hbracket : t.bracket? with
      | none =>
        rw [repairFrom_plain hbracket heof]
        change ((b.step t >>= fun b₁ => b₁.run _) >>= fun b' => b'.finish) =
          ((b.step t >>= fun b₁ => b₁.run _) >>= fun b' => b'.finish)
        cases hstep : b.step t with
        | error e => rfl
        | ok b₁ =>
          rw [← kinds_of_step hbracket hstep]
          exact ih b₁
      | some bracket =>
        cases t with
        | opening c name as =>
          change ((b.step (.opening c name as) >>= fun b₁ => b₁.run _) >>= fun b' => b'.finish) =
            ((b.step (.opening c name as) >>= fun b₁ => b₁.run _) >>= fun b' => b'.finish)
          cases hstep : b.step (.opening c name as) with
          | error e => rfl
          | ok b₁ =>
            rw [← kinds_of_opening hstep]
            exact ih b₁
        | closing c name =>
          cases c with
          | none => exact ih b
          | some c =>
            change _ = ((b.close (some c) >>= fun b₁ => b₁.run _) >>= fun b' => b'.finish)
            by_cases hmem : c ∈ b.kinds
            · rw [repairFrom, if_pos hmem, run_endings hmem]
              cases hclose : b.close (some c) with
              | error e => rfl
              | ok b₁ =>
                rw [← kinds_of_close hmem hclose]
                exact ih b₁
            · rw [repairFrom, if_neg hmem, close_stray hmem]
              exact ih b
        | _ => simp [Token.bracket?] at hbracket

end Builder

theorem untilEof_eq_self {ts : List Token} (h : .eof ∉ ts) : untilEof ts = ts := by
  induction ts with
  | nil => rfl
  | cons t ts ih =>
    have hne : t ≠ .eof := fun heof => h (by simp [heof])
    have hts : .eof ∉ ts := fun hmem => h (by simp [hmem])
    rw [untilEof_cons hne, ih hts]

theorem parse_repair (ts : List Token) : parse (repair ts) = parse ts := by
  have hrun := Builder.run_repairFrom {} ts
  unfold parse repair
  rw [untilEof_eq_self (eof_notMem_repairFrom [] ts)]
  exact hrun

/-! ## Repaired lists are nested -/

/-- The closing tags of all open containers close them. -/
theorem unwinds_endings (stack : List (Container × Block)) :
    Unwinds SameKind stack (((stack.map (·.1)).map Token.ending).filterMap Token.bracket?) := by
  induction stack with
  | nil => rfl
  | cons top stack ih =>
    have hfits : SameKind top (some top.1) := rfl
    exact (Unwinds.closed_iff hfits).mpr ih

/-- A repaired closing tag closes the container that is meant and all inside it; what follows has
to close the rest. -/
theorem unwinds_closing {c : Container} {stack : List (Container × Block)}
    (hmem : c ∈ stack.map (·.1)) (name : Text) {us : List Token}
    (hrest : ∀ outer : List (Container × Block),
      outer.map (·.1) = ((stack.map (·.1)).dropWhile (· ≠ c)).tail →
        Unwinds SameKind outer (us.filterMap Token.bracket?)) :
    Unwinds SameKind stack
      ((((stack.map (·.1)).takeWhile (· ≠ c)).map Token.ending ++
        .closing (some c) name :: us).filterMap Token.bracket?) := by
  induction stack with
  | nil => simp at hmem
  | cons top stack ih =>
    have hfits : SameKind top (some top.1) := rfl
    by_cases htop : top.1 = c
    · subst htop
      have hdone : Unwinds SameKind stack (us.filterMap Token.bracket?) := by
        refine hrest stack ?_
        simp
      simpa [Token.bracket?] using (Unwinds.closed_iff hfits).mpr hdone
    · have hmem' : c ∈ stack.map (·.1) := by
        rcases List.mem_cons.mp hmem with hc | hc
        · exact absurd hc.symm htop
        · exact hc
      have hdone := ih hmem' (by simpa [htop] using hrest)
      simpa [htop, Token.ending, Token.bracket?] using (Unwinds.closed_iff hfits).mpr hdone

/-- From any stack, repaired tokens close everything that is open and everything they open. -/
theorem unwinds_repairFrom (ts : List Token) (stack : List (Container × Block)) :
    Unwinds SameKind stack
      ((repairFrom (stack.map (·.1)) ts).filterMap Token.bracket?) := by
  induction ts generalizing stack with
  | nil => exact unwinds_endings stack
  | cons t ts ih =>
    cases t with
    | eof => exact unwinds_endings stack
    | opening c name as => exact ih ((c, Block.ofOpening c name as) :: stack)
    | closing c name =>
      cases c with
      | none => exact ih stack
      | some c =>
        by_cases hmem : c ∈ stack.map (·.1)
        · rw [repairFrom, if_pos hmem]
          refine unwinds_closing hmem name ?_
          intro outer houter
          rw [← houter]
          exact ih outer
        · rw [repairFrom, if_neg hmem]
          exact ih stack
    | _ => exact ih stack

end Notemark.Body
