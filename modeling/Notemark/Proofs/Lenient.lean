import Notemark.Proofs.Recovery

/-!
# Lenient reading never fails

Two things could stop the tree builder: a paragraph that counts as having content and turns out to
be blank, and a closing tag that closes the document itself. Neither happens to the tokens of a
text:

* `Pass.Safe`: the counts of open containers are right, every open paragraph that claims content has
  some, and the tokens ahead are sound,
* `Pass.round_safe`, `Pass.rounds_safe`: every round of a safe pass succeeds, and keeps it safe,
* `lenient_never_fails`: every body has its tokens and its elements.
-/

namespace Notemark.Body

namespace Pass

variable {p q : Pass} {t : Token} {later : List Token}

/-- Nothing can go wrong in the next round. -/
structure Safe (p : Pass) : Prop where
  counted : p.Counted
  honest : p.builder.Honest
  sound : ∀ t ∈ p.rest, t.Sound

theorem safe_start {ts : List Token} (hts : ∀ t ∈ ts, t.Sound) : (start ts).Safe where
  counted := counted_start ts
  honest := Builder.honest_start
  sound := hts

/-! ## One round -/

/-- An open container can be closed. -/
theorem shut_honest (hp : p.builder.Honest) (hframes : p.builder.frames ≠ []) :
    ∃ q, p.shut = .ok q ∧ q.builder.Honest ∧ q.rest = p.rest := by
  rcases Builder.closeFrame_honest hp with ⟨b, hclose, hb⟩
  cases hstack : p.builder.frames with
  | nil => exact absurd hstack hframes
  | cons f fs =>
    refine ⟨{ p with builder := b, waiting := count p.waiting (some f.closes) (-1) }, ?_, hb, rfl⟩
    simp only [shut, hstack, hclose]
    rfl

/-- A sound token can be handled. -/
theorem handle_honest (hp : p.builder.Honest) (ht : t.Sound) (later : List Token) :
    ∃ q, p.handle t later = .ok q ∧ q.builder.Honest ∧ q.rest = later := by
  rcases Builder.step_honest hp ht with ⟨b, hstep, hb⟩
  refine ⟨{ p with rest := later, builder := b }, ?_, hb, rfl⟩
  simp only [handle, hstep]
  rfl

/-- A closing tag is waited for only if some container is open. -/
theorem frames_ne_nil_of_waiting (hp : p.Counted) {c : Option Container} (h : p.waiting c ≠ 0) :
    p.builder.frames ≠ [] := by
  intro hnil
  rcases (waiting_ne_zero_iff hp).mp h with ⟨k, -, hk⟩
  simp [Builder.kinds, hnil] at hk

theorem frames_ne_nil_of_fitsTop {c : Option Container} (h : p.fitsTop c = true) :
    p.builder.frames ≠ [] := by
  intro hnil
  simp [fitsTop, hnil] at h

/-- A closing tag closes the innermost container, or is passed over. -/
theorem round_closing_honest (hp : p.Safe) {c : Option Container} {name : Text}
    (hrest : p.rest = .closing c name :: later) :
    ∃ q, p.round = .ok q ∧ q.builder.Honest ∧ (q.rest = p.rest ∨ q.rest = later) := by
  have hround : p.round = if p.fitsTop c then shut { p with rest := later }
      else if p.waiting c ≠ 0 then p.shut else .ok { p with rest := later } := by
    unfold round
    rw [hrest]
  rw [hround]
  -- Both ways of closing need an open container: one that fits, or one that is waited for.
  by_cases hfits : p.fitsTop c = true
  · rw [if_pos hfits]
    have hhonest : (Builder.Honest { p with rest := later }.builder) := hp.honest
    rcases shut_honest hhonest (frames_ne_nil_of_fitsTop hfits) with ⟨q, hshut, hq, hqrest⟩
    exact ⟨q, hshut, hq, Or.inr hqrest⟩
  · rw [if_neg hfits]
    by_cases hwaiting : p.waiting c ≠ 0
    · rw [if_pos hwaiting]
      rcases shut_honest hp.honest (frames_ne_nil_of_waiting hp.counted hwaiting) with
        ⟨q, hshut, hq, hqrest⟩
      exact ⟨q, hshut, hq, Or.inl hqrest⟩
    · rw [if_neg hwaiting]
      exact ⟨_, rfl, hp.honest, Or.inr rfl⟩

/-- Every other token is handled and used up. -/
theorem round_token_honest (hp : p.Safe) (hrest : p.rest = t :: later) (heof : t ≠ .eof)
    (hclosing : ∀ c name, t ≠ .closing c name) :
    ∃ q, p.round = .ok q ∧ q.builder.Honest ∧ q.rest = later := by
  have ht : t.Sound := hp.sound t (by simp [hrest])
  rcases handle_honest hp.honest ht later with ⟨q, hhandle, hq, hqrest⟩
  unfold round
  rw [hrest]
  cases t with
  | eof => exact absurd rfl heof
  | closing c name => exact absurd rfl (hclosing c name)
  | opening c name as =>
    refine ⟨{ q with waiting := count q.waiting (some c) 1 }, ?_, hq, hqrest⟩
    simp only [hhandle]
    rfl
  | _ => exact ⟨q, hhandle, hq, hqrest⟩

/-- At the end the open containers are closed, the document not being one of them. -/
theorem round_atEnd_honest (hp : p.Safe) (hend : p.atEnd = true) :
    ∃ q, p.round = .ok q ∧ q.builder.Honest ∧ q.rest = p.rest := by
  rw [round_atEnd hend]
  by_cases hframes : p.builder.frames = []
  · rw [if_pos hframes]
    exact ⟨p, rfl, hp.honest, rfl⟩
  · rw [if_neg hframes]
    exact shut_honest hp.honest hframes

/-- Every round of a safe pass succeeds. What is left of the tokens was there before. -/
theorem round_honest (hp : p.Safe) :
    ∃ q, p.round = .ok q ∧ q.builder.Honest ∧ ∀ t ∈ q.rest, t ∈ p.rest := by
  by_cases hend : p.atEnd = true
  · rcases round_atEnd_honest hp hend with ⟨q, hround, hq, hqrest⟩
    exact ⟨q, hround, hq, fun t ht => hqrest ▸ ht⟩
  · cases hrest : p.rest with
    | nil => simp [atEnd, hrest] at hend
    | cons t later =>
      have heof : t ≠ .eof := by
        rintro rfl
        simp [atEnd, hrest] at hend
      cases t with
      | closing c name =>
        rcases round_closing_honest hp hrest with ⟨q, hround, hq, hqrest | hqrest⟩
        · exact ⟨q, hround, hq, fun u hu => hrest ▸ hqrest ▸ hu⟩
        · exact ⟨q, hround, hq, fun u hu => List.mem_cons_of_mem _ (hqrest ▸ hu)⟩
      | _ =>
        rcases round_token_honest hp hrest heof (by simp) with ⟨q, hround, hq, hqrest⟩
        exact ⟨q, hround, hq, fun u hu => List.mem_cons_of_mem _ (hqrest ▸ hu)⟩

/-- A safe pass goes on, and stays safe. -/
theorem round_safe (hp : p.Safe) : ∃ q, p.round = .ok q ∧ q.Safe := by
  rcases round_honest hp with ⟨q, hround, hq, hqrest⟩
  refine ⟨q, hround, ?_, hq, fun t ht => hp.sound t (hqrest t ht)⟩
  -- The counts need no new argument: recovery keeps them right in every round that does something.
  by_cases hfinished : p.Finished
  · rw [round_of_finished hfinished] at hround
    exact Except.ok.inj hround ▸ hp.counted
  · have hright := round_right hp.counted hfinished
    rw [hround] at hright
    exact hright.1

/-! ## All rounds -/

theorem rounds_safe (hp : p.Safe) (n : Nat) : ∃ q, p.rounds n = .ok q ∧ q.Safe := by
  induction n generalizing p with
  | zero => exact ⟨p, rfl, hp⟩
  | succ n ih =>
    rcases round_safe hp with ⟨q, hround, hq⟩
    rcases ih hq with ⟨r, hrounds, hr⟩
    refine ⟨r, ?_, hr⟩
    rw [rounds, hround]
    exact hrounds

/-- The last paragraph of a safe pass can be ended. -/
theorem elements_safe (hp : p.Safe) : ∃ elements, p.elements = .ok elements := by
  rcases Builder.flush_honest hp.honest with ⟨b, hflush, -⟩
  refine ⟨b.level.elements, ?_⟩
  rw [elements, hflush]
  rfl

end Pass

/-! ## Bodies -/

/-- Lenient mode judges nothing, so that every round succeeds. -/
theorem Scan.rounds_lenient_ok {content : Text} {s : Scan} (hs : s.Sound content) (map : SourceMap)
    (n : Nat) : ∃ s', s.rounds .lenient map n = .ok s' := by
  induction n generalizing s with
  | zero => exact ⟨s, rfl⟩
  | succ n ih =>
    unfold rounds
    by_cases hrest : s.rest = []
    · exact ⟨s, if_pos hrest⟩
    · rw [if_neg hrest, round_eq hs]
      exact ih (sound_past hs s.stack)

/-- Every body has its tokens and its elements in lenient mode. No round of the scanning loop fails,
and no round of the loop that builds the tree: the open paragraphs that claim content have some, the
document is never closed as if it were a container, and after at most two rounds for a token the
elements are complete. -/
theorem lenient_never_fails (body : Text) :
    ∃ ts elements, tokenize .lenient body = .ok ts ∧ parse ts = .ok elements ∧
      (∀ n, ∃ s, (Scan.start (Text.joinLines body)).rounds .lenient
        (SourceMap.ofText (Text.joinLines body)) n = .ok s) ∧
      (∀ n, ∃ p, (Pass.start ts).rounds n = .ok p ∧ p.builder.Honest ∧ p.Counted) ∧
      ∃ p, (Pass.start ts).rounds (2 * ts.length) = .ok p ∧ p.Finished ∧
        p.elements = .ok elements := by
  rcases exists_tokenize_lenient body with ⟨ts, hts⟩
  have htokens := tokenList_of_tokenize hts
  have hsafe : (Pass.start ts).Safe := Pass.safe_start (htokens.forall_mem trivial htokens.sound)
  rcases Pass.rounds_safe hsafe (2 * ts.length) with ⟨p, hrounds, hp⟩
  rcases Pass.elements_safe hp with ⟨elements, helements⟩
  have hfinished : p.Finished := Pass.rounds_finished hsafe.counted (Nat.le_refl _) hrounds
  have hparse : parse ts = .ok elements := by
    -- What lies ahead does not change from round to round, and at the end it is there.
    rcases Pass.rounds_right hsafe.counted (2 * ts.length) with
      ⟨p', hrounds', -, hahead⟩ | ⟨fault, hfault, -⟩
    · rw [hrounds] at hrounds'
      rcases Except.ok.inj hrounds' with rfl
      calc
        parse ts = (Pass.start ts).outlook := rfl
        _ = p.outlook := hahead.symm
        _ = p.elements := (Pass.elements_of_finished hfinished).symm
        _ = .ok elements := helements
    · rw [hrounds] at hfault
      simp at hfault
  refine ⟨ts, elements, hts, hparse, ?_, ?_, p, hrounds, hfinished, helements⟩
  · intro n
    exact Scan.rounds_lenient_ok (Scan.sound_start _) _ n
  · intro n
    rcases Pass.rounds_safe hsafe n with ⟨p', hrounds', hp'⟩
    exact ⟨p', hrounds', hp'.honest, hp'.counted⟩

/-- Tokens that no text has are another matter: a blank reference claims content. -/
example : parse [.reference [' '], .eof] = .error .blankParagraph := rfl

end Notemark.Body
