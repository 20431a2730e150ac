/-!
# Words of brackets

Openings and closings in a row, without regard to what they open and close:

* `Bracket`: an opening or a closing, each with data of its own,
* `Balanced`: words in which every opening is closed by a closing that fits it,
* `Leaves`: the openings that a word leaves unclosed, in opening order,
* `Leaves.push`, `Leaves.pop`: what one bracket more does to them,
* `Leaves.eval`: what a word does to a stack machine,
* `Unwinds`: such a machine as a predicate; from an empty stack it holds of balanced words only.
-/

namespace Notemark.Body

inductive Bracket (α β : Type) where
  | opened (a : α)
  | closed (b : β)
  deriving Repr, DecidableEq

variable {α β : Type} {fits : α → β → Prop}

/-- Every opening is closed by a closing that fits it, and nothing else is closed. -/
inductive Balanced (fits : α → β → Prop) : List (Bracket α β) → Prop where
  | nil : Balanced fits []
  | pair {a : α} {b : β} {inside after : List (Bracket α β)} :
      fits a b → Balanced fits inside → Balanced fits after →
        Balanced fits (.opened a :: (inside ++ .closed b :: after))

/-- The word is balanced but for these openings, given in opening order. -/
inductive Leaves (fits : α → β → Prop) : List (Bracket α β) → List α → Prop where
  | balanced {w : List (Bracket α β)} : Balanced fits w → Leaves fits w []
  | opened {w later : List (Bracket α β)} {a : α} {as : List α} :
      Balanced fits w → Leaves fits later as → Leaves fits (w ++ .opened a :: later) (a :: as)

namespace Balanced

theorem append {u v : List (Bracket α β)} (hu : Balanced fits u) (hv : Balanced fits v) :
    Balanced fits (u ++ v) := by
  induction hu with
  | nil => exact hv
  | pair hfits hinside _ _ ih =>
    rw [List.cons_append, List.append_assoc, List.cons_append]
    exact .pair hfits hinside ih

/-- Whatever is closed fits something. -/
theorem fits_of_closed {w : List (Bracket α β)} (h : Balanced fits w) {b : β}
    (hmem : .closed b ∈ w) : ∃ a, fits a b := by
  induction h with
  | nil => simp at hmem
  | @pair a b' inside after hfits _ _ ihinside ihafter =>
    simp only [List.mem_cons, List.mem_append, reduceCtorEq, false_or, Bracket.closed.injEq] at hmem
    rcases hmem with hinside | rfl | hafter
    · exact ihinside hinside
    · exact ⟨a, hfits⟩
    · exact ihafter hafter

end Balanced

namespace Leaves

variable {w : List (Bracket α β)} {as : List α}

theorem nil : Leaves fits [] [] := .balanced .nil

/-- Nothing is left exactly by balanced words. -/
theorem nil_iff : Leaves fits w [] ↔ Balanced fits w := by
  constructor
  · intro h
    cases h with
    | balanced h => exact h
  · exact .balanced

/-- An opening at the end is left, after the others. -/
theorem push (h : Leaves fits w as) (a : α) : Leaves fits (w ++ [.opened a]) (as ++ [a]) := by
  induction h with
  | balanced h => exact .opened h nil
  | opened h _ ih =>
    rw [List.append_assoc, List.cons_append, List.cons_append]
    exact .opened h ih

/-- A closing at the end takes the last opening that was left, if it fits. -/
theorem pop {a : α} {b : β} (h : Leaves fits w (as ++ [a])) (hfits : fits a b) :
    Leaves fits (w ++ [.closed b]) as := by
  generalize hall : as ++ [a] = all at h
  induction h generalizing as with
  | balanced h => simp at hall
  | @opened w later a' as' h hlater ih =>
    rw [List.append_assoc, List.cons_append]
    cases as with
    | nil =>
      -- The last opening is the only one, so what stands behind it is balanced.
      rcases List.cons.inj hall with ⟨rfl, rfl⟩
      have hinside := nil_iff.mp hlater
      exact .balanced (h.append (.pair hfits hinside .nil))
    | cons c cs =>
      rcases List.cons.inj hall with ⟨rfl, hcs⟩
      exact .opened h (ih hcs)

end Leaves

/-! ## Stack machines -/

section Machine

variable {γ : Type} {f : List α → List (Bracket α β) → γ}

/-- A machine that pushes openings and pops fitting ones passes over balanced words. -/
theorem Balanced.eval (hpush : ∀ st a w, f st (.opened a :: w) = f (a :: st) w)
    (hpop : ∀ st a b w, fits a b → f (a :: st) (.closed b :: w) = f st w)
    {w : List (Bracket α β)} (h : Balanced fits w) (st : List α) (rest : List (Bracket α β)) :
    f st (w ++ rest) = f st rest := by
  induction h generalizing st rest with
  | nil => rfl
  | @pair a b inside after hfits _ _ ihinside ihafter =>
    rw [List.cons_append, hpush, List.append_assoc, ihinside, List.cons_append,
      hpop st a b _ hfits, ihafter]

/-- Such a machine ends up with the openings that a word leaves on its stack. -/
theorem Leaves.eval (hpush : ∀ st a w, f st (.opened a :: w) = f (a :: st) w)
    (hpop : ∀ st a b w, fits a b → f (a :: st) (.closed b :: w) = f st w)
    {w : List (Bracket α β)} {as : List α} (h : Leaves fits w as) (st : List α)
    (rest : List (Bracket α β)) :
    f st (w ++ rest) = f (as.reverse ++ st) rest := by
  induction h generalizing st with
  | balanced h => exact h.eval hpush hpop st rest
  | opened h _ ih =>
    rw [List.append_assoc, h.eval hpush hpop, List.cons_append, hpush, ih, List.reverse_cons,
      List.append_assoc]
    rfl

end Machine

/-- Reading the word closes everything on the stack and everything it opens itself, each by a
closing that fits. -/
def Unwinds (fits : α → β → Prop) : List α → List (Bracket α β) → Prop
  | stack, [] => stack = []
  | stack, .opened a :: word => Unwinds fits (a :: stack) word
  | stack, .closed b :: word =>
    ∃ a rest, stack = a :: rest ∧ fits a b ∧ Unwinds fits rest word

namespace Unwinds

theorem closed_iff {a : α} {b : β} {stack : List α} {word : List (Bracket α β)}
    (hfits : fits a b) :
    Unwinds fits (a :: stack) (.closed b :: word) ↔ Unwinds fits stack word := by
  constructor
  · rintro ⟨a', rest, hstack, -, hrest⟩
    rcases List.cons.inj hstack with ⟨rfl, rfl⟩
    exact hrest
  · intro h
    exact ⟨a, stack, rfl, hfits, h⟩

theorem of_balanced {word : List (Bracket α β)} (h : Balanced fits word) :
    Unwinds fits [] word := by
  have heval := h.eval (f := Unwinds fits) (fun _ _ _ => rfl)
    (fun _ _ _ _ hfits => propext (closed_iff hfits)) [] []
  rw [List.append_nil] at heval
  rw [heval]
  rfl

/-- The invariant: what has been read leaves open what stands on the stack. -/
theorem balanced_append {before word : List (Bracket α β)} {stack : List α}
    (hbefore : Leaves fits before stack.reverse) (h : Unwinds fits stack word) :
    Balanced fits (before ++ word) := by
  induction word generalizing before stack with
  | nil =>
    have hstack : stack = [] := h
    subst hstack
    rw [List.append_nil]
    exact Leaves.nil_iff.mp hbefore
  | cons bracket word ih =>
    cases bracket with
    | opened a =>
      have hpush : Leaves fits (before ++ [.opened a]) (a :: stack).reverse := by
        rw [List.reverse_cons]
        exact hbefore.push a
      simpa using ih hpush h
    -- The top of the stack is the last opening that was left.
    | closed b =>
      rcases h with ⟨a, rest, rfl, hfits, hrest⟩
      rw [List.reverse_cons] at hbefore
      simpa using ih (hbefore.pop hfits) hrest

theorem iff_balanced {word : List (Bracket α β)} :
    Unwinds fits [] word ↔ Balanced fits word := by
  constructor
  · intro h
    have hstart : Leaves fits ([] : List (Bracket α β)) ([] : List α).reverse := Leaves.nil
    exact balanced_append hstart h
  · exact of_balanced

end Unwinds

end Notemark.Body
