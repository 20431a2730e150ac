import Notemark.Proofs.Repair

/-!
# Recovery in rounds

The loop of this module recovers one container at a time: a closing tag that fits a container
further out closes the innermost one, stays where it is, and is looked at again. Which closing tags
are worth waiting for it knows from counts alone.

* `Pass`: the state of the loop, with the number of open containers that wait for each kind of
  closing tag,
* `Pass.round`, `Pass.rounds`: the loop,
* `Pass.Counted`: the counts are those of the open containers,
* `Pass.round_right`: every round keeps the counts right and the elements that lie ahead, and
  leaves less to do,
* `recovery_eq_repair`: the loop, `parse`, and `parse` of the repaired list agree.
-/

namespace Notemark.Body

/-! ## The loop -/

/-- What stops the loop: a fault of the tree, or the document taken for an open container. -/
inductive Halt where
  | tree (fault : TreeFault)
  | documentClosed
  deriving Repr, DecidableEq

/-- The state of the loop: the tokens from the current one on, what has been built, and how many
open containers wait for each kind of closing tag. -/
structure Pass where
  rest : List Token
  builder : Builder := {}
  waiting : Option Container → Int := fun _ => 0

namespace Pass

def start (ts : List Token) : Pass := { rest := ts }

/-- Counts one more, or one less, that waits for a closing tag. -/
def count (waiting : Option Container → Int) (c : Option Container) (change : Int) :
    Option Container → Int :=
  fun d => if d = c then waiting d + change else waiting d

/-- Closes the innermost container, if there is one besides the document. -/
def shut (p : Pass) : Except Halt Pass :=
  match p.builder.frames with
  | [] => .error .documentClosed
  | f :: _ => do
    let b ← p.builder.closeFrame.mapError .tree
    return { p with builder := b, waiting := count p.waiting (some f.closes) (-1) }

/-- The innermost container waits for this closing tag. -/
def fitsTop (p : Pass) (c : Option Container) : Bool :=
  match p.builder.frames with
  | [] => false
  | f :: _ => some f.closes == c

/-- A token that is no closing tag. -/
def handle (p : Pass) (t : Token) (later : List Token) : Except Halt Pass := do
  let b ← (p.builder.step t).mapError .tree
  return { p with rest := later, builder := b }

/-- The tokens are used up, or the end mark is reached. -/
def atEnd (p : Pass) : Bool :=
  match p.rest with
  | [] | .eof :: _ => true
  | _ => false

/-- One round. A closing tag that fits a container further out is not used up: it closes the
innermost container and is looked at again. At the end the open containers are closed. -/
def round (p : Pass) : Except Halt Pass :=
  match p.rest with
  | [] | .eof :: _ => if p.builder.frames = [] then .ok p else p.shut
  | .closing c _ :: later =>
    if p.fitsTop c then shut { p with rest := later }
    else if p.waiting c ≠ 0 then p.shut
    else .ok { p with rest := later }
  | .opening c name as :: later => do
    let p ← p.handle (.opening c name as) later
    return { p with waiting := count p.waiting (some c) 1 }
  | t :: later => p.handle t later

def rounds : Nat → Pass → Except Halt Pass
  | 0, p => .ok p
  | n + 1, p => do rounds n (← p.round)

/-- Nothing is left to do but to end the last paragraph. -/
def Finished (p : Pass) : Prop := p.atEnd = true ∧ p.builder.frames = []

/-- The elements of a finished pass. -/
def elements (p : Pass) : Except TreeFault (List Element) := do
  return (← p.builder.flush).level.elements

/-- The counts are those of the open containers. -/
def Counted (p : Pass) : Prop :=
  ∀ c, p.waiting c = (p.builder.frames.countP fun f => some f.closes == c : Nat)

/-- What the tokens from the current one on make of a state. -/
def outlook (p : Pass) : Except TreeFault (List Element) :=
  p.builder.run (untilEof p.rest) >>= fun b => b.finish

/-- A token that is used up may open one container, and a round that uses up no token closes one:
every round makes this smaller. -/
def size (p : Pass) : Nat := 2 * p.rest.length + p.builder.frames.length

/-- What a round comes to: the counts stay right, the elements that lie ahead stay the same, and
less is left to do; or the tree has a fault, which `parse` finds too. -/
def Right (p : Pass) : Except Halt Pass → Prop
  | .ok p' => p'.Counted ∧ p'.outlook = p.outlook ∧ p'.size < p.size
  | .error halt => ∃ fault, halt = .tree fault ∧ p.outlook = .error fault

/-! ## One round -/

variable {p q : Pass} {c : Option Container} {t : Token} {later : List Token}

theorem counted_kinds :
    p.Counted ↔ ∀ c, p.waiting c = (p.builder.kinds.countP (some · == c) : Nat) := by
  unfold Counted Builder.kinds
  simp only [List.countP_map]
  rfl

/-- A closing tag is waited for as long as a container of its kind is open. -/
theorem waiting_ne_zero_iff (hp : p.Counted) :
    p.waiting c ≠ 0 ↔ ∃ k, c = some k ∧ k ∈ p.builder.kinds := by
  rw [counted_kinds.mp hp c]
  have hcount : ((p.builder.kinds.countP (some · == c) : Nat) : Int) ≠ 0 ↔
      0 < p.builder.kinds.countP (some · == c) := by omega
  rw [hcount, List.countP_pos_iff]
  constructor
  · rintro ⟨k, hk, hkc⟩
    exact ⟨k, (by simpa using hkc : some k = c).symm, hk⟩
  · rintro ⟨k, rfl, hk⟩
    exact ⟨k, hk, by simp⟩

/-- What counting one more or one less comes to, if the number of those that wait for the closing
tag of `k` changes by as much and no other number does. -/
theorem count_eq {waiting : Option Container → Int} {k : Container} {change : Int}
    {before after : List Container}
    (hbefore : ∀ c, waiting c = (before.countP (some · == c) : Nat))
    (hk : ((after.countP (some · == some k) : Nat) : Int) =
      (before.countP (some · == some k) : Nat) + change)
    (hother : ∀ c, c ≠ some k → after.countP (some · == c) = before.countP (some · == c))
    (c : Option Container) :
    count waiting (some k) change c = (after.countP (some · == c) : Nat) := by
  unfold count
  by_cases hc : c = some k
  · rw [if_pos hc, hc, hbefore, hk]
  · rw [if_neg hc, hbefore, hother c hc]

theorem countP_cons_self (k : Container) (ks : List Container) :
    (k :: ks).countP (some · == some k) = ks.countP (some · == some k) + 1 := by
  simp

theorem countP_cons_other {k : Container} (ks : List Container) {c : Option Container}
    (h : c ≠ some k) : (k :: ks).countP (some · == c) = ks.countP (some · == c) := by
  have hnot : ¬ (some k == c) = true := by simpa using fun hk : some k = c => h hk.symm
  rw [List.countP_cons, if_neg hnot, Nat.add_zero]

/-- Closing the innermost container is right if it is what the elements ahead begin with. -/
theorem right_shut {f : Frame} {fs : List Frame} (hq : q.Counted)
    (hframes : q.builder.frames = f :: fs)
    (hahead : p.outlook = q.builder.closeFrame >>= fun b =>
      b.run (untilEof q.rest) >>= fun b' => b'.finish)
    (hsize : q.size ≤ p.size) : p.Right q.shut := by
  unfold shut
  rw [hframes]
  cases hclose : q.builder.closeFrame with
  | error e =>
    rw [hclose] at hahead
    exact ⟨e, rfl, hahead⟩
  | ok b =>
    have hb : b.frames = fs := by rw [Builder.frames_of_closeFrame hclose, hframes]; rfl
    rw [hclose] at hahead
    refine ⟨?_, hahead.symm, ?_⟩
    -- One that waited for this kind of closing tag is gone, and no other.
    · have hkinds : q.builder.kinds = f.closes :: b.kinds := by
        rw [Builder.kinds_cons hframes, ← hb]
        rfl
      refine counted_kinds.mpr (count_eq (counted_kinds.mp hq) ?_ ?_)
      · rw [hkinds, countP_cons_self]
        dsimp only
        omega
      · intro c hc
        rw [hkinds, countP_cons_other _ hc]
    · have hlen : q.builder.frames.length = b.frames.length + 1 := by rw [hframes, hb]; rfl
      have hless : 2 * q.rest.length + b.frames.length < q.size := by
        unfold size
        omega
      exact Nat.lt_of_lt_of_le hless hsize

theorem outlook_cons (hrest : p.rest = t :: later) (ht : t ≠ .eof) :
    p.outlook = p.builder.step t >>= fun b =>
      b.run (untilEof later) >>= fun b' => b'.finish := by
  unfold outlook
  rw [hrest, untilEof_cons ht, Builder.run, bind_assoc]

theorem outlook_atEnd (h : p.atEnd = true) : p.outlook = p.builder.finish := by
  have huntil : untilEof p.rest = [] := by
    unfold atEnd at h
    split at h
    · next hrest => rw [hrest]; rfl
    · next hrest => rw [hrest]; rfl
    · simp at h
  unfold outlook
  rw [huntil]
  rfl

/-- At the end: one more container is closed. -/
theorem right_atEnd (hp : p.Counted) (hend : p.atEnd = true) {f : Frame} {fs : List Frame}
    (hframes : p.builder.frames = f :: fs) : p.Right p.shut := by
  refine right_shut hp hframes ?_ (Nat.le_refl _)
  rw [outlook_atEnd hend, Builder.finish_cons (Builder.kinds_cons hframes)]
  congr 1
  funext b
  have hthere := outlook_atEnd (p := { p with builder := b }) hend
  exact hthere.symm

/-- A closing tag closes the innermost container, if that or one further out waits for it. -/
theorem right_closing {name : Text} (hp : p.Counted)
    (hrest : p.rest = .closing c name :: later) : p.Right p.round := by
  have hahead : p.outlook = p.builder.close c >>= fun b =>
      b.run (untilEof later) >>= fun b' => b'.finish := outlook_cons hrest Token.noConfusion
  have hround : p.round = if p.fitsTop c then shut { p with rest := later }
      else if p.waiting c ≠ 0 then p.shut else .ok { p with rest := later } := by
    unfold round
    rw [hrest]
  have hless : size { p with rest := later } < p.size := by
    unfold size
    rw [hrest, List.length_cons]
    dsimp only
    omega
  rw [hround]
  by_cases hfits : p.fitsTop c = true
  · rw [if_pos hfits]
    unfold fitsTop at hfits
    cases hframes : p.builder.frames with
    | nil => simp [hframes] at hfits
    | cons f fs =>
      have hc : some f.closes = c := by simpa [hframes] using hfits
      have hq : Counted { p with rest := later } := hp
      refine right_shut hq hframes ?_ (Nat.le_of_lt hless)
      rw [hahead, ← hc, Builder.close_top (Builder.kinds_cons hframes)]
  · rw [if_neg hfits]
    by_cases hwaiting : p.waiting c ≠ 0
    · rw [if_pos hwaiting]
      rcases (waiting_ne_zero_iff hp).mp hwaiting with ⟨k, rfl, hk⟩
      cases hframes : p.builder.frames with
      | nil => simp [Builder.kinds, hframes] at hk
      | cons f fs =>
        have hkinds := Builder.kinds_cons hframes
        have htop : f.closes ≠ k := by
          intro htop
          simp [fitsTop, hframes, htop] at hfits
        have hbelow : k ∈ fs.map (·.closes) := by
          rw [hkinds] at hk
          rcases List.mem_cons.mp hk with hk | hk
          · exact absurd hk.symm htop
          · exact hk
        refine right_shut hp hframes ?_ (Nat.le_refl _)
        rw [hahead, Builder.close_below hkinds htop hbelow, bind_assoc]
        -- The closing tag is still there and does the rest.
        congr 1
        funext b
        have hthere : outlook { p with builder := b } = _ := outlook_cons hrest Token.noConfusion
        exact hthere.symm
    · rw [if_neg hwaiting]
      refine ⟨hp, ?_, hless⟩
      have hstray : p.builder.close c = .ok p.builder := by
        cases c with
        | none => exact Builder.close_none _
        | some k =>
          refine Builder.close_stray fun hk => hwaiting ?_
          exact (waiting_ne_zero_iff hp).mpr ⟨k, rfl, hk⟩
      rw [hahead, hstray]
      rfl

/-- Handling a token that is no closing tag: the token is used up. -/
theorem right_handle (hrest : p.rest = t :: later) (ht : t ≠ .eof)
    {waiting : Option Container → Int}
    (hkinds : ∀ b, p.builder.step t = .ok b → b.frames.length ≤ p.builder.frames.length + 1 ∧
      Counted { rest := later, builder := b, waiting := waiting }) :
    p.Right (p.handle t later >>= fun q => .ok { q with waiting := waiting }) := by
  have hahead := outlook_cons hrest ht
  unfold handle
  cases hstep : p.builder.step t with
  | error e =>
    rw [hstep] at hahead
    exact ⟨e, rfl, hahead⟩
  | ok b =>
    rcases hkinds b hstep with ⟨hlen, hcounted⟩
    rw [hstep] at hahead
    refine ⟨hcounted, hahead.symm, ?_⟩
    change 2 * later.length + b.frames.length < p.size
    unfold size
    rw [hrest, List.length_cons]
    omega

/-- An opening tag counts one more that waits for its closing tag. -/
theorem right_opening {k : Container} {name : Text} {as : Attributes} (hp : p.Counted)
    (hrest : p.rest = .opening k name as :: later) : p.Right p.round := by
  have hround : p.round = p.handle (.opening k name as) later >>= fun q =>
      .ok { q with waiting := count p.waiting (some k) 1 } := by
    unfold round
    rw [hrest]
    change (p.handle _ _ >>= fun q => .ok { q with waiting := count q.waiting (some k) 1 }) = _
    unfold handle
    cases p.builder.step (.opening k name as) <;> rfl
  rw [hround]
  refine right_handle hrest Token.noConfusion ?_
  intro b hb
  have hkinds := Builder.kinds_of_opening hb
  refine ⟨?_, counted_kinds.mpr ?_⟩
  · have hlen := congrArg List.length hkinds
    rw [Builder.length_kinds, List.length_cons, Builder.length_kinds] at hlen
    omega
  · refine count_eq (counted_kinds.mp hp) ?_ ?_
    · rw [hkinds, countP_cons_self]
      omega
    · intro c hc
      rw [hkinds, countP_cons_other _ hc]

/-- Every other token leaves the open containers alone. -/
theorem right_plain (hp : p.Counted) (hrest : p.rest = t :: later) (ht : t.bracket? = none)
    (heof : t ≠ .eof) : p.Right p.round := by
  have hround : p.round = p.handle t later >>= fun q => .ok { q with waiting := p.waiting } := by
    have hhandle : p.round = p.handle t later := by
      unfold round
      rw [hrest]
      cases t with
      | opening c name as => simp [Token.bracket?] at ht
      | closing c name => simp [Token.bracket?] at ht
      | eof => exact absurd rfl heof
      | _ => rfl
    rw [hhandle]
    unfold handle
    cases p.builder.step t <;> rfl
  rw [hround]
  refine right_handle hrest heof ?_
  intro b hb
  have hkinds := Builder.kinds_of_step ht hb
  refine ⟨?_, counted_kinds.mpr ?_⟩
  · rw [← Builder.length_kinds, ← Builder.length_kinds, hkinds]
    omega
  · intro c
    change p.waiting c = (b.kinds.countP _ : Nat)
    rw [hkinds]
    exact counted_kinds.mp hp c

theorem round_atEnd (h : p.atEnd = true) :
    p.round = if p.builder.frames = [] then .ok p else p.shut := by
  unfold atEnd at h
  unfold round
  split at h
  · next hrest => rw [hrest]
  · next hrest => rw [hrest]
  · simp at h

/-- Every round of a pass that is not finished is right. -/
theorem round_right (hp : p.Counted) (hopen : ¬ p.Finished) : p.Right p.round := by
  by_cases hend : p.atEnd = true
  · cases hframes : p.builder.frames with
    | nil => exact absurd ⟨hend, hframes⟩ hopen
    | cons f fs =>
      rw [round_atEnd hend, if_neg (by simp [hframes])]
      exact right_atEnd hp hend hframes
  · cases hrest : p.rest with
    | nil => simp [atEnd, hrest] at hend
    | cons t later =>
      have heof : t ≠ .eof := by
        rintro rfl
        simp [atEnd, hrest] at hend
      cases ht : t.bracket? with
      | none => exact right_plain hp hrest ht heof
      | some bracket =>
        cases t with
        | opening k name as => exact right_opening hp hrest
        | closing c name => exact right_closing hp hrest
        | _ => simp [Token.bracket?] at ht

theorem round_of_finished (h : p.Finished) : p.round = .ok p := by
  rw [round_atEnd h.1, if_pos h.2]

/-! ## All rounds -/

theorem rounds_of_finished (h : p.Finished) (n : Nat) : p.rounds n = .ok p := by
  induction n with
  | zero => rfl
  | succ n ih =>
    change (p.round >>= rounds n) = .ok p
    rw [round_of_finished h]
    exact ih

theorem counted_start (ts : List Token) : (start ts).Counted := fun _ => rfl

theorem elements_of_finished (h : p.Finished) : p.elements = p.outlook := by
  have hkinds : p.builder.kinds = [] := by
    unfold Builder.kinds
    rw [h.2]
    rfl
  rw [outlook_atEnd h.1, Builder.finish_nil hkinds]
  rfl

/-- After any number of rounds the counts are right and the elements that lie ahead are the same,
or the tree has turned out to have a fault. -/
theorem rounds_right (hp : p.Counted) (n : Nat) :
    (∃ p', p.rounds n = .ok p' ∧ p'.Counted ∧ p'.outlook = p.outlook) ∨
      ∃ fault, p.rounds n = .error (.tree fault) ∧ p.outlook = .error fault := by
  induction n generalizing p with
  | zero => exact Or.inl ⟨p, rfl, hp, rfl⟩
  | succ n ih =>
    change (∃ p', (p.round >>= rounds n) = .ok p' ∧ _) ∨
      ∃ fault, (p.round >>= rounds n) = .error (.tree fault) ∧ _
    by_cases hfinished : p.Finished
    · rw [round_of_finished hfinished]
      exact ih hp
    · have hright := round_right hp hfinished
      cases hround : p.round with
      | error halt =>
        rw [hround] at hright
        rcases hright with ⟨fault, rfl, hahead⟩
        exact Or.inr ⟨fault, rfl, hahead⟩
      | ok p₁ =>
        rw [hround] at hright
        rcases hright with ⟨hp₁, hahead, -⟩
        rw [← hahead]
        exact ih hp₁

/-- Enough rounds finish the pass, or stop at a fault of the tree. -/
theorem rounds_finished (hp : p.Counted) {n : Nat} (hn : p.size ≤ n) {p' : Pass}
    (h : p.rounds n = .ok p') : p'.Finished := by
  induction n generalizing p with
  | zero =>
    rw [← Except.ok.inj h]
    unfold size at hn
    have hrest : p.rest = [] := List.length_eq_zero_iff.mp (by omega)
    have hframes : p.builder.frames = [] := List.length_eq_zero_iff.mp (by omega)
    exact ⟨by simp [atEnd, hrest], hframes⟩
  | succ n ih =>
    change (p.round >>= rounds n) = .ok p' at h
    by_cases hfinished : p.Finished
    · have hstay : p.rounds (n + 1) = .ok p' := h
      rw [rounds_of_finished hfinished] at hstay
      exact Except.ok.inj hstay ▸ hfinished
    · have hright := round_right hp hfinished
      cases hround : p.round with
      | error halt => simp [hround, bind, Except.bind] at h
      | ok p₁ =>
        rw [hround] at hright h
        rcases hright with ⟨hp₁, -, hless⟩
        exact ih hp₁ (by omega) h

end Pass

/-! ## Recovery is repair -/

/-- Whatever the tokens are, recovery comes to building the tree of the repaired list, which is
nested. The loop that closes one container in a round has the right counts in every round, closes
the document in none, and ends after at most two rounds for a token with the elements, or the fault,
that `parse` gives. -/
theorem recovery_eq_repair (ts : List Token) :
    Balanced SameKind ((repair ts).filterMap Token.bracket?) ∧
    parse (repair ts) = parse ts ∧
    (∀ n, (∃ p, (Pass.start ts).rounds n = .ok p ∧ p.Counted) ∨
      ∃ fault, (Pass.start ts).rounds n = .error (.tree fault) ∧ parse ts = .error fault) ∧
    ((∃ p, (Pass.start ts).rounds (2 * ts.length) = .ok p ∧ p.Finished ∧ p.elements = parse ts) ∨
      ∃ fault, (Pass.start ts).rounds (2 * ts.length) = .error (.tree fault) ∧
        parse ts = .error fault) := by
  have hcounted := Pass.counted_start ts
  refine ⟨?_, parse_repair ts, ?_, ?_⟩
  · exact Unwinds.iff_balanced.mp (unwinds_repairFrom ts [])
  · intro n
    rcases Pass.rounds_right hcounted n with ⟨p, hp, hpcounted, -⟩ | ⟨fault, hfault, hahead⟩
    · exact Or.inl ⟨p, hp, hpcounted⟩
    · exact Or.inr ⟨fault, hfault, hahead⟩
  · rcases Pass.rounds_right hcounted (2 * ts.length) with
      ⟨p, hp, -, hahead⟩ | ⟨fault, hfault, hahead⟩
    · have hfinished : p.Finished := Pass.rounds_finished hcounted (Nat.le_refl _) hp
      exact Or.inl ⟨p, hp, hfinished, (Pass.elements_of_finished hfinished).trans hahead⟩
    · exact Or.inr ⟨fault, hfault, hahead⟩

end Notemark.Body
