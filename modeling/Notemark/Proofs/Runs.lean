import Notemark.Batch.Job

/-!
# Laws of runs and jobs

A run may fail and leaves notes, a job may end early and leaves events. Their outcomes compose like
plain results, whatever is noted on the way:

* `Run.outcome_bind`, `Run.outcome_adapt`, `Run.outcome_tryCatch`: how outcomes compose,
* `bind_eq_ok_iff`, `bind_eq_error_iff`: what two parts in a row come to,
* `exists_ok_map_iff`, `exists_ok_bind_iff`: when there is a result,
* `failure?`: what a computation fails with, if it fails,
* `barring`: a result that fails if there is a fault; of two in a row, the first fault counts,
* `Batch.Job.outcome_bind`, `Batch.Job.events_bind`: the same for jobs; what happened before a stop
  stays.
-/

namespace Notemark

/-! ## Runs -/

namespace Run

variable {ε ε' α β : Type}

@[simp] theorem outcome_pure (a : α) : outcome (pure a : Run ε α) = .ok a := rfl

@[simp] theorem outcome_throw (e : ε) : outcome (throw e : Run ε α) = .error e := rfl

@[simp] theorem outcome_trace (level : Nat) (text : String) :
    outcome (trace level text : Run ε Unit) = .ok () := rfl

@[simp] theorem outcome_ofExcept (x : Except ε α) : outcome (ofExcept x) = x := rfl

/-- The second part of a computation sees the result of the first, and nothing of its notes. -/
@[simp] theorem outcome_bind (x : Run ε α) (f : α → Run ε β) :
    outcome (x >>= f) = outcome x >>= fun a => outcome (f a) := by
  change (ExceptT.bindCont f (ExceptT.run x).value).value = _
  unfold outcome
  cases (ExceptT.run x).value with
  | error e => rfl
  | ok a => rfl

@[simp] theorem outcome_adapt (f : ε → ε') (x : Run ε α) :
    outcome (ExceptT.adapt f x : Run ε' α) = (outcome x).mapError f := rfl

/-- Only a failure is handed to the handler. -/
theorem outcome_tryCatch (x : Run ε α) (handle : ε → Run ε α) :
    outcome (tryCatch x handle) = tryCatch (outcome x) fun e => outcome (handle e) := by
  change Logged.value (match (ExceptT.run x).value with
    | .ok a => pure (Except.ok a)
    | .error e => handle e) = _
  unfold outcome
  cases (ExceptT.run x).value with
  | error e => rfl
  | ok a => rfl

end Run

/-- Of two parts in a row, the first one that fails decides. -/
theorem bind_eq_error_iff {ε α β : Type} {x : Except ε α} {f : α → Except ε β} {e : ε} :
    (x >>= f) = .error e ↔ x = .error e ∨ ∃ a, x = .ok a ∧ f a = .error e := by
  cases x with
  | error e' => simp [bind, Except.bind]
  | ok a => simp [bind, Except.bind]

/-- Parts in a row succeed together. -/
theorem bind_eq_ok_iff {ε α β : Type} {x : Except ε α} {f : α → Except ε β} {b : β} :
    (x >>= f) = .ok b ↔ ∃ a, x = .ok a ∧ f a = .ok b := by
  cases x with
  | error e => simp [bind, Except.bind]
  | ok a => simp [bind, Except.bind]

theorem mapError_eq_ok_iff {ε ε' α : Type} {f : ε → ε'} {x : Except ε α} {a : α} :
    x.mapError f = .ok a ↔ x = .ok a := by
  cases x with
  | error e => exact iff_of_false (fun h => nomatch h) fun h => nomatch h
  | ok b =>
    change (.ok b : Except ε' α) = .ok a ↔ _
    rw [Except.ok.injEq, Except.ok.injEq]

theorem map_eq_ok_iff {ε α β : Type} {f : α → β} {x : Except ε α} {b : β} :
    x.map f = .ok b ↔ ∃ a, x = .ok a ∧ f a = b := by
  cases x with
  | error e => simp [Except.map]
  | ok a => simp [Except.map]

/-- A list of parts whose results are known comes to a result if each part does. -/
theorem mapM_eq_ok_iff {ε α β : Type} {f : α → Except ε β} {g : α → β}
    (hf : ∀ {a b}, f a = .ok b → b = g a) {l : List α} {made : List β} :
    l.mapM f = .ok made ↔ made = l.map g ∧ ∀ a ∈ l, f a = .ok (g a) := by
  induction l generalizing made with
  | nil => simp [pure, Except.pure, eq_comm]
  | cons a l ih =>
    rw [List.mapM_cons, bind_eq_ok_iff]
    simp only [bind_eq_ok_iff, ih]
    constructor
    · rintro ⟨b, hb, _, ⟨rfl, hl⟩, hmade⟩
      obtain rfl := hf hb
      exact ⟨(Except.ok.inj hmade).symm, List.forall_mem_cons.mpr ⟨hb, hl⟩⟩
    · rintro ⟨rfl, hall⟩
      rw [List.forall_mem_cons] at hall
      exact ⟨_, hall.1, _, ⟨rfl, hall.2⟩, rfl⟩

/-- What is made of a result in the end does not matter. -/
theorem exists_ok_map_iff {ε α β : Type} {x : Except ε α} {f : α → β} :
    (∃ b, (x >>= fun a => pure (f a)) = .ok b) ↔ ∃ a, x = .ok a := by
  cases x with
  | error e => simp [bind, Except.bind]
  | ok a => simp [bind, Except.bind, pure, Except.pure]

/-- A result that is made of a first part and a rest exists if both exist. -/
theorem exists_ok_bind_iff {ε α β : Type} {x : Except ε α} {f : α → Except ε β} {p q : Prop}
    (hx : (∃ a, x = .ok a) ↔ p) (hf : ∀ a, (∃ b, f a = .ok b) ↔ q) :
    (∃ b, (x >>= f) = .ok b) ↔ p ∧ q := by
  cases x with
  | error e =>
    have hp : ¬ p := by simpa using hx
    simp [bind, Except.bind, hp]
  | ok a =>
    have hp : p := hx.mp ⟨a, rfl⟩
    simpa [bind, Except.bind, hp] using hf a

/-- What a computation fails with. -/
def failure? {ε α : Type} : Except ε α → Option ε
  | .error e => some e
  | .ok _ => none

section Failures

variable {ε ε' α β : Type}

theorem failure?_eq_some_iff {x : Except ε α} {e : ε} : failure? x = some e ↔ x = .error e := by
  cases x with
  | error e' => simp [failure?]
  | ok a => simp [failure?]

theorem failure?_eq_none_iff {x : Except ε α} : failure? x = none ↔ ∃ a, x = .ok a := by
  cases x with
  | error e => simp [failure?]
  | ok a => simp [failure?]

/-- Whether a computation fails can be decided where its value is none that can be compared. -/
theorem exists_ok_of_isNone {x : Except ε α} (h : (failure? x).isNone) : ∃ a, x = .ok a :=
  failure?_eq_none_iff.mp (Option.isNone_iff_eq_none.mp h)

theorem toOption_eq_some_iff {x : Except ε α} {a : α} : x.toOption = some a ↔ x = .ok a := by
  cases x with
  | error e => simp [Except.toOption]
  | ok b => simp [Except.toOption]

theorem failure?_bind {x : Except ε α} {f : α → Except ε β} {later : Option ε}
    (h : ∀ a, x = .ok a → failure? (f a) = later) : failure? (x >>= f) = (failure? x).or later := by
  cases x with
  | error e => rfl
  | ok a => exact h a rfl

theorem failure?_bind_ok {x : Except ε α} {f : α → Except ε β} (h : ∀ a, failure? (f a) = none) :
    failure? (x >>= f) = failure? x := by
  rw [failure?_bind fun a _ => h a, Option.or_none]

theorem failure?_mapError (f : ε → ε') (x : Except ε α) :
    failure? (x.mapError f) = (failure? x).map f := by
  cases x with
  | error e => rfl
  | ok a => rfl

end Failures

/-- A result, unless there is a fault. -/
def barring {ε α : Type} (fault : Option ε) (a : α) : Except ε α :=
  match fault with
  | some f => .error f
  | none => .ok a

section Barring

variable {ε ε' α β : Type} {fault later : Option ε} {a : α} {b : β}

@[simp] theorem barring_none (a : α) : barring (none : Option ε) a = .ok a := rfl

@[simp] theorem barring_some (f : ε) (a : α) : barring (some f) a = .error f := rfl

/-- Of two faults in a row the first one counts. -/
theorem barring_bind {k : α → Except ε β} (h : k a = barring later b) :
    (barring fault a >>= k) = barring (fault.or later) b := by
  cases fault with
  | some f => rfl
  | none => exact h

/-- What follows cannot fail. -/
theorem barring_bind_ok {k : α → Except ε β} (h : k a = .ok b) :
    (barring fault a >>= k) = barring fault b := by
  cases fault with
  | some f => rfl
  | none => exact h

theorem barring_mapError (f : ε → ε') : (barring fault a).mapError f = barring (fault.map f) a := by
  cases fault with
  | some e => rfl
  | none => rfl

theorem failure?_barring (fault : Option ε) (a : α) : failure? (barring fault a) = fault := by
  cases fault with
  | some f => rfl
  | none => rfl

end Barring

/-! ## Jobs -/

namespace Batch.Job

variable {ε α β : Type}

@[simp] theorem outcome_pure (a : α) : outcome (pure a : Job α) = .ok a := rfl

@[simp] theorem events_pure (a : α) : events (pure a : Job α) = [] := rfl

@[simp] theorem outcome_throw (stop : Stop) : outcome (throw stop : Job α) = .error stop := rfl

@[simp] theorem outcome_emit (es : List Event) : outcome (emit es) = .ok () := rfl

@[simp] theorem events_emit (es : List Event) : events (emit es) = es := List.append_nil es

@[simp] theorem outcome_bind (x : Job α) (f : α → Job β) :
    outcome (x >>= f) = outcome x >>= fun a => outcome (f a) := by
  change (ExceptT.bindCont f (ExceptT.run x).value).value = _
  unfold outcome
  cases (ExceptT.run x).value with
  | error stop => rfl
  | ok a => rfl

/-- The events of a job that goes on are followed by those of the rest. -/
theorem events_bind (x : Job α) (f : α → Job β) :
    events (x >>= f) =
      events x ++ match outcome x with
        | .ok a => events (f a)
        | .error _ => [] := by
  change (ExceptT.run x).events ++ (ExceptT.bindCont f (ExceptT.run x).value).events = _
  unfold outcome
  cases (ExceptT.run x).value with
  | error stop => rfl
  | ok a => rfl

/-- A run leaves its notes behind and never ends a job. -/
@[simp] theorem outcome_ofRun (run : Run ε α) : outcome (ofRun run) = .ok run.outcome := rfl

end Batch.Job

end Notemark
