import Notemark.Proofs.Messages
import Notemark.Proofs.PipeSteps

/-!
# Room for pipes

Compiling a pipe fails if a message cannot show a value, if an index has too many digits, or if
there is no room for a pipe inside a pipe. This module says that nothing else is decided by the
room:

* `Shows`: the values that a message can show,
* `compileStep_ok`, `expandStep_ok`: what comes out, if something does, is what `compiled` and
  `expanded` say,
* `Compiles`, `Expands`, `compile_ok_iff`: a pipe is compiled if each of its steps is,
* `IsKept`, `compileStep_self_iff`: the steps that a compact pipe keeps,
* `Fits`, `exists_compile_of_fits`: a pipe without long numbers is compiled if it is not nested too
  deeply.
-/

namespace Notemark.Pipe

variable {room : Nat} {v w : Value} {steps : List Value}

/-- The parts of a computation that comes to a result. -/
theorem outcome_bind_ok {α β : Type} {x : Run Fault α} {f : α → Run Fault β} {b : β}
    (h : (x >>= f).outcome = .ok b) : ∃ a, x.outcome = .ok a ∧ (f a).outcome = .ok b :=
  bind_eq_ok_iff.mp (Run.outcome_bind x f ▸ h)

/-! ## Messages -/

/-- A message can show the value, with room for the levels of its collections. -/
def Shows (room : Nat) (v : Value) : Prop := v.all Scalar.isBrief = true ∧ v.depth ≤ room

instance (room : Nat) (v : Value) : Decidable (Shows room v) :=
  inferInstanceAs (Decidable (_ ∧ _))

/-- What comes after a message does not depend on it. -/
theorem outcome_shown_bind {α : Type} {k : String → Run Fault α} {a b : α}
    (hk : ∀ text, (k text).outcome = .ok a) :
    (shown room v >>= k).outcome = .ok b ↔ Shows room v ∧ a = b := by
  rw [Run.outcome_bind, bind_eq_ok_iff, Shows, ← Value.shown?_ok_iff]
  simp only [shown, Run.outcome_ofExcept, mapError_eq_ok_iff, hk, Except.ok.injEq,
    exists_and_right]

theorem outcome_plainName_bind {α : Type} {name : Scalar} {k : String → Run Fault α} {a b : α}
    (hk : ∀ text, (k text).outcome = .ok a) :
    (plainName name >>= k).outcome = .ok b ↔ name.isBrief = true ∧ a = b := by
  rw [Run.outcome_bind, bind_eq_ok_iff, ← Scalar.plain?_ok_iff]
  simp only [plainName, Run.outcome_ofExcept, mapError_eq_ok_iff, hk, Except.ok.injEq,
    exists_and_right]

theorem unreadable_ok_iff : (unreadable room v).outcome = .ok w ↔ Shows room v ∧ v = w :=
  outcome_shown_bind fun _ => rfl

theorem manyKeys_ok_iff : (manyKeys room v).outcome = .ok w ↔ Shows room v ∧ v = w :=
  outcome_shown_bind fun _ => rfl

theorem deeper_ok_iff {calls inner : Nat} :
    (deeper calls room).outcome = .ok inner ↔ calls ≤ room ∧ room - calls = inner := by
  rw [deeper]
  split
  · next h =>
    rw [Run.outcome_pure, Except.ok.injEq]
    exact (and_iff_right h).symm
  · next h => exact iff_of_false (fun hok => nomatch hok) fun hand => h hand.1

/-! ## Operations -/

theorem indexOf_ok {digits : Text} {n : Nat} (h : (indexOf digits).outcome = .ok n) :
    (Text.decimalNumber? digits).getD 0 = n := by
  unfold indexOf at h
  split at h
  · cases h
  · exact Except.ok.inj h

theorem extract_ok {expression : Value} {made : List Value}
    (h : (extract room expression).outcome = .ok made) : made = [extracted expression] := by
  unfold extract at h
  unfold extracted
  cases hread : (codes? expression).bind Expression.ofCodes? with
  | none =>
    rw [hread] at h
    exact ((outcome_shown_bind fun _ => rfl).mp h).2.symm
  | some e =>
    rw [hread] at h
    cases e with
    | field name => exact (Except.ok.inj h).symm
    | tag name digits =>
      rcases outcome_bind_ok h with ⟨n, hn, hmade⟩
      dsimp only
      rw [indexOf_ok hn]
      exact (Except.ok.inj hmade).symm

theorem expandOperation_ok {es : Entries} {operation : Value} {made : List Value}
    (h : (expandOperation room v es operation).outcome = .ok made) :
    made = operated v es operation := by
  unfold expandOperation at h
  unfold operated
  dsimp only at h ⊢
  cases hoperation : Operation.ofValue operation with
  | extract =>
    rw [hoperation] at h
    rcases outcome_bind_ok h with ⟨first, hfirst, hmade⟩
    rw [extract_ok hfirst] at hmade
    cases hsaved : (es.erase "operation").get? "as" <;> rw [hsaved] at hmade
    all_goals exact (Except.ok.inj hmade).symm
  | map =>
    rw [hoperation] at h
    rcases outcome_bind_ok h with ⟨first, hfirst, hmade⟩
    rw [extract_ok hfirst] at hmade
    exact (Except.ok.inj hmade).symm
  | nameless =>
    rw [hoperation] at h
    exact ((outcome_shown_bind fun _ => rfl).mp h).2.symm
  | _ =>
    rw [hoperation] at h
    exact (Except.ok.inj h).symm

theorem compileFlat_ok {op : Scalar} {value : Value}
    (h : (compileFlat room op value).outcome = .ok w) : w = compiledFlat op value := by
  unfold compileFlat at h
  unfold compiledFlat
  cases hparameter : Parameter.ofOp op with
  | named name =>
    rw [hparameter] at h
    exact (Except.ok.inj h).symm
  | spread name =>
    rw [hparameter] at h
    cases value <;> exact (Except.ok.inj h).symm
  | replace =>
    rw [hparameter] at h
    cases value with
    | map label es => exact (Except.ok.inj h).symm
    | _ => exact ((outcome_shown_bind fun _ => rfl).mp h).2.symm
  | unknown =>
    rw [hparameter] at h
    exact ((outcome_plainName_bind fun _ => rfl).mp h).2.symm

/-! ## Steps -/

/-- Both forms keep the order of their steps. -/
theorem expandStep_ok {compact : Run Fault Value} {made : List Value}
    (hcompact : ∀ {w}, compact.outcome = .ok w → w = compiled v)
    (h : (expandStep room v compact).outcome = .ok made) : made = expanded v := by
  unfold expandStep at h
  unfold expanded
  cases hoperation : operation? v with
  | none =>
    rw [hoperation] at h
    rcases outcome_bind_ok h with ⟨w, hw, hmade⟩
    rw [← hcompact hw]
    exact (Except.ok.inj hmade).symm
  | some o =>
    rw [hoperation] at h
    exact expandOperation_ok h

mutual

/-- A step that is compiled becomes what `compiled` says. -/
theorem compileStep_ok (room : Nat) : (v : Value) → {w : Value} →
    (compileStep room v).outcome = .ok w → w = compiled v
  | .scalar s, w, h => by
    cases s with
    | str s => exact (Except.ok.inj h).symm
    | illFormed codes half => exact (Except.ok.inj h).symm
    | _ => exact (unreadable_ok_iff.mp h).2.symm
  | .map label [], w, h => (manyKeys_ok_iff.mp h).2.symm
  | .map label [(op, value)], w, h => by
    simp only [compileStep.eq_def, compiled.eq_def] at h ⊢
    split at h
    · next hop =>
      rw [if_pos hop]
      exact (Except.ok.inj h).symm
    · next hop =>
      rw [if_neg hop]
      split at h
      · next hmap =>
        rcases outcome_bind_ok h with ⟨pipe, hpipe, hw⟩
        rw [if_pos hmap, ← compileUnderMap_ok room value hpipe]
        exact (Except.ok.inj hw).symm
      · next hmap =>
        rw [if_neg hmap]
        split at h
        · next hconstruct =>
          rw [if_pos hconstruct]
          exact compileConstruct_ok room value h
        · next hconstruct =>
          rw [if_neg hconstruct]
          exact compileFlat_ok h
  | .map label (e :: e' :: later), w, h => by
    simp only [compileStep.eq_def] at h
    split at h
    · exact (Except.ok.inj h).symm
    · exact (manyKeys_ok_iff.mp h).2.symm
  | .list _, w, h | .tuple _, w, h | .set _, w, h | .backRef _, w, h =>
    (unreadable_ok_iff.mp h).2.symm

theorem compileUnderMap_ok (room : Nat) : (v : Value) → {w : Value} →
    (compileUnderMap room v).outcome = .ok w → w = mapped v
  | .list steps, w, h => by
    rw [compileUnderMap] at h
    rcases outcome_bind_ok h with ⟨inner, -, hinner⟩
    rcases outcome_bind_ok hinner with ⟨made, hmade, hw⟩
    rw [mapped, ← compileSteps_ok inner steps hmade]
    exact (Except.ok.inj hw).symm
  | .scalar _, w, h | .tuple _, w, h | .set _, w, h | .map .., w, h | .backRef _, w, h =>
    (Except.ok.inj h).symm

theorem compileConstruct_ok (room : Nat) : (v : Value) → {w : Value} →
    (compileConstruct room v).outcome = .ok w → w = constructed v
  | .map label es, w, h => by
    rw [compileConstruct] at h
    rcases outcome_bind_ok h with ⟨fields, hfields, hw⟩
    have hmade : fields = (constructedFields es).getD (compiledFields es) := by
      rcases constructFields_ok room es with ⟨hnone, hnone'⟩ | ⟨run, made, hsome, hsome', hok⟩
      · rw [hnone, Option.getD_none] at hfields
        rw [hnone', Option.getD_none, compileFields_ok room es hfields]
      · rw [hsome, Option.getD_some] at hfields
        rw [hsome', Option.getD_some, hok hfields]
    rw [constructed, ← hmade]
    exact (Except.ok.inj hw).symm
  | .scalar _, w, h | .list _, w, h | .tuple _, w, h | .set _, w, h | .backRef _, w, h =>
    ((outcome_shown_bind fun _ => rfl).mp h).2.symm

theorem compileSteps_ok (room : Nat) : (vs : List Value) → {made : List Value} →
    (compileSteps room vs).outcome = .ok made → made = compiledSteps vs
  | [], made, h => (Except.ok.inj h).symm
  | v :: vs, made, h => by
    rw [compileSteps] at h
    rcases outcome_bind_ok h with ⟨first, hfirst, hlater⟩
    rcases outcome_bind_ok hlater with ⟨later, hrest, hmade⟩
    rw [compiledSteps, ← compileStep_ok room v hfirst, ← compileSteps_ok room vs hrest]
    exact (Except.ok.inj hmade).symm

theorem expandSteps_ok (room : Nat) : (vs : List Value) → {made : List Value} →
    (expandSteps room vs).outcome = .ok made → made = expandedSteps vs
  | [], made, h => (Except.ok.inj h).symm
  | v :: vs, made, h => by
    rw [expandSteps] at h
    rcases outcome_bind_ok h with ⟨first, hfirst, hlater⟩
    rcases outcome_bind_ok hlater with ⟨later, hrest, hmade⟩
    have hv : first = expanded v := expandStep_ok (compileStep_ok room v) hfirst
    rw [expandedSteps, ← expandSteps_ok room vs hrest]
    exact (Except.ok.inj hmade).symm.trans (congrArg (· ++ later) hv)

theorem constructFields_ok (room : Nat) : (es : List (Scalar × Value)) →
    constructFields room es = none ∧ constructedFields es = none ∨
      ∃ run made, constructFields room es = some run ∧ constructedFields es = some made ∧
        ∀ {fields}, run.outcome = .ok fields → fields = made
  | [] => Or.inl ⟨rfl, rfl⟩
  | (k, v) :: es => by
    unfold constructFields constructedFields
    split
    · cases v with
      | map label fields => exact Or.inr ⟨_, _, rfl, rfl, compileFields_ok room fields⟩
      | _ => exact Or.inl ⟨rfl, rfl⟩
    · exact constructFields_ok room es

theorem compileFields_ok (room : Nat) : (es : List (Scalar × Value)) → {made : Entries} →
    (compileFields room es).outcome = .ok made → made = compiledFields es
  | [], made, h => (Except.ok.inj h).symm
  | (k, v) :: es, made, h => by
    rw [compileFields] at h
    rcases outcome_bind_ok h with ⟨first, hfirst, hlater⟩
    rcases outcome_bind_ok hlater with ⟨later, hrest, hmade⟩
    rw [compiledFields, ← compileField_ok room v hfirst, ← compileFields_ok room es hrest]
    exact (Except.ok.inj hmade).symm

theorem compileField_ok (room : Nat) : (v : Value) → {w : Value} →
    (compileField room v).outcome = .ok w → w = compiledPipe v
  | .list steps, w, h => by
    rw [compileField] at h
    rcases outcome_bind_ok h with ⟨inner, -, hinner⟩
    rw [compiledPipe]
    cases hlegacy : isLegacy steps with
    | true =>
      rw [hlegacy, if_pos rfl] at hinner
      rcases outcome_bind_ok hinner with ⟨_, -, hrun⟩
      rcases outcome_bind_ok hrun with ⟨made, hmade, hw⟩
      rw [if_pos rfl, ← expandSteps_ok inner steps hmade]
      exact (Except.ok.inj hw).symm
    | false =>
      rw [hlegacy, if_neg Bool.false_ne_true] at hinner
      rcases outcome_bind_ok hinner with ⟨made, hmade, hw⟩
      rw [if_neg Bool.false_ne_true, ← compileSteps_ok inner steps hmade]
      exact (Except.ok.inj hw).symm
  | .scalar _, w, h | .tuple _, w, h | .set _, w, h | .map .., w, h | .backRef _, w, h =>
    (Except.ok.inj h).symm

end

/-! ## Pipes -/

/-- A step of a compact pipe can be compiled. -/
def Compiles (room : Nat) (v : Value) : Prop := (compileStep room v).outcome = .ok (compiled v)

/-- A step of a pipe in the older form can be compiled. -/
def Expands (room : Nat) (v : Value) : Prop :=
  (expandStep room v (compileStep room v)).outcome = .ok (expanded v)

theorem outcome_compileSteps (room : Nat) (steps : List Value) :
    (compileSteps room steps).outcome = steps.mapM fun v => (compileStep room v).outcome := by
  induction steps with
  | nil => rfl
  | cons v steps ih =>
    rw [compileSteps, List.mapM_cons, ← ih]
    simp only [Run.outcome_bind]
    rfl

theorem outcome_expandSteps (room : Nat) (steps : List Value) :
    (expandSteps room steps).outcome =
      (steps.mapM fun v => (expandStep room v (compileStep room v)).outcome).map List.flatten := by
  induction steps with
  | nil => rfl
  | cons v steps ih =>
    rw [expandSteps, List.mapM_cons]
    simp only [Run.outcome_bind, Run.outcome_pure, ih]
    cases (expandStep room v (compileStep room v)).outcome with
    | error f => rfl
    | ok first =>
      cases steps.mapM fun v => (expandStep room v (compileStep room v)).outcome <;> rfl

theorem compileSteps_ok_iff {made : List Value} :
    (compileSteps room steps).outcome = .ok made ↔
      made = steps.map compiled ∧ ∀ v ∈ steps, Compiles room v := by
  rw [outcome_compileSteps]
  exact mapM_eq_ok_iff fun {v _} h => compileStep_ok room v h

theorem expandSteps_ok_iff {made : List Value} :
    (expandSteps room steps).outcome = .ok made ↔
      made = steps.flatMap expanded ∧ ∀ v ∈ steps, Expands room v := by
  rw [outcome_expandSteps, map_eq_ok_iff]
  simp only [mapM_eq_ok_iff fun {v _} h => expandStep_ok (compileStep_ok room v) h]
  constructor
  · rintro ⟨_, ⟨rfl, h⟩, rfl⟩
    exact ⟨List.flatMap_def.symm, h⟩
  · rintro ⟨rfl, h⟩
    exact ⟨_, ⟨rfl, h⟩, List.flatMap_def.symm⟩

/-- A step of a pipe in either form can be compiled. -/
def Translates (room : Nat) (legacy : Bool) (v : Value) : Prop :=
  if legacy then Expands room v else Compiles room v

/-- A pipe is compiled if each of its steps is, in the form that the first one shows. -/
theorem compile_ok_iff {done : Value} :
    (compile room (.list steps)).outcome = .ok done ↔
      done = .list (translated (isLegacy steps) steps) ∧
        ∀ v ∈ steps, Translates room (isLegacy steps) v := by
  have hlist : ∀ {run : Run Fault (List Value)},
      (run >>= fun made => pure (Value.list made)).outcome = .ok done ↔
        ∃ made, run.outcome = .ok made ∧ Value.list made = done := by
    intro run
    rw [Run.outcome_bind, bind_eq_ok_iff]
    simp only [Run.outcome_pure, Except.ok.injEq]
  rw [compile]
  cases isLegacy steps with
  | true =>
    rw [if_pos rfl, Run.outcome_bind]
    refine hlist.trans ?_
    simp only [expandSteps_ok_iff, translated, Translates, if_true]
    exact ⟨fun ⟨_, ⟨hmade, h⟩, hdone⟩ => ⟨hdone ▸ hmade ▸ rfl, h⟩,
      fun ⟨hdone, h⟩ => ⟨_, ⟨rfl, h⟩, hdone.symm⟩⟩
  | false =>
    rw [if_neg Bool.false_ne_true]
    refine hlist.trans ?_
    simp only [compileSteps_ok_iff, translated, Translates, Bool.false_eq_true, if_false]
    exact ⟨fun ⟨_, ⟨hmade, h⟩, hdone⟩ => ⟨hdone ▸ hmade ▸ rfl, h⟩,
      fun ⟨hdone, h⟩ => ⟨_, ⟨rfl, h⟩, hdone.symm⟩⟩

/-! ## Kept steps -/

/-- A mapping with an `op`, which is finished whatever else it holds. -/
def hasOp : Value → Bool
  | .map _ es => Entries.has es "op"
  | _ => false

/-- A step that a compact pipe keeps: it is finished, and unless it has an `op` a message can show
it. -/
def IsKept (room : Nat) (v : Value) : Prop :=
  isFinished v = true ∧ (hasOp v = true ∨ Shows room v)

instance (room : Nat) (v : Value) : Decidable (IsKept room v) :=
  inferInstanceAs (Decidable (_ ∧ _))

theorem isKept_of_explicit (h : Explicit v) : IsKept room v := by
  refine ⟨isFinished_of_explicit h, Or.inl ?_⟩
  rcases h with ⟨label, value, later, rfl⟩
  simp [hasOp, Entries.has, Entries.get?_cons]

theorem compileStep_self_iff : (compileStep room v).outcome = .ok v ↔ IsKept room v := by
  have hshown : ∀ {run : Run Fault Value}, hasOp v = false →
      (run.outcome = .ok v ↔ Shows room v ∧ v = v) →
      (run.outcome = .ok v ↔ hasOp v = true ∨ Shows room v) := by
    intro run hop hrun
    simpa [hop] using hrun
  have hfinished : isFinished v = true →
      ((compileStep room v).outcome = .ok v ↔ hasOp v = true ∨ Shows room v) := by
    intro h
    cases v with
    | scalar s =>
      cases s with
      | str s => simp [isFinished] at h
      | illFormed codes half => simp [isFinished] at h
      | _ => exact hshown rfl unreadable_ok_iff
    | map label es =>
      rcases es with - | ⟨⟨key, value⟩, - | ⟨e, later⟩⟩
      · exact hshown rfl manyKeys_ok_iff
      · rw [isFinished] at h
        rw [compileStep, if_pos h]
        have hkey : key = .str "op" := by simpa [Scalar.sameKey_str] using h
        exact iff_of_true rfl (Or.inl (by simp [hasOp, Entries.has, Entries.get?_cons, hkey]))
      · simp only [compileStep.eq_def]
        split
        · next hop => exact iff_of_true rfl (Or.inl hop)
        · next hop => exact hshown (by simpa [hasOp] using hop) manyKeys_ok_iff
    | _ => exact hshown rfl unreadable_ok_iff
  constructor
  · intro h
    have hself : isFinished v = true := compiled_eq_self_iff.mp (compileStep_ok room v h).symm
    exact ⟨hself, (hfinished hself).mp h⟩
  · rintro ⟨hself, h⟩
    exact (hfinished hself).mpr h

/-- What comes out of a compact pipe is kept by a compact pipe. -/
theorem isKept_compiled (h : Compiles room v) : IsKept room (compiled v) := by
  cases hv : isFinished v with
  | true =>
    rw [Compiles, compiled_of_isFinished hv] at h
    rw [compiled_of_isFinished hv]
    exact compileStep_self_iff.mp h
  | false => exact isKept_of_explicit (explicit_compiled hv)

/-- An operation without a name is kept by the older form, which shows it in a message. -/
theorem expandStep_nameless_iff {o : Entries × Value} {compact : Run Fault Value}
    {made : List Value} (ho : operation? v = some o) (hname : name? o.2 = none) :
    (expandStep room v compact).outcome = .ok made ↔ Shows room o.2 ∧ [v] = made := by
  rw [expandStep, ho]
  dsimp only
  rw [expandOperation, ofValue_eq_nameless_iff.mpr hname]
  exact outcome_shown_bind fun _ => rfl

/-! ## Enough room -/

theorem after?_sublist {head t rest : Text} (h : after? head t = some rest) :
    rest.Sublist t := by
  unfold after? at h
  split at h
  · exact Option.some.inj h ▸ List.drop_sublist _ t
  · cases h

theorem afterAll?_sublist {heads : List Text} {t rest : Text} (h : afterAll? heads t = some rest) :
    rest.Sublist t := by
  induction heads generalizing t with
  | nil => exact Option.some.inj h ▸ List.Sublist.refl t
  | cons head heads ih =>
    rcases Option.bind_eq_some_iff.mp h with ⟨later, hafter, hlater⟩
    exact (ih hlater).trans ((after?_sublist hafter).trans (List.dropWhile_sublist _))

theorem strip_sublist (t : Text) : (Text.strip t).Sublist t := by
  have hend : (Text.stripEnd (Text.stripStart t)).Sublist (Text.stripStart t).reverse.reverse :=
    (List.dropWhile_sublist _).reverse
  rw [List.reverse_reverse] at hend
  exact hend.trans (List.dropWhile_sublist _)

/-- A digit that an index can have. -/
def isDecimal (c : Char) : Bool := (Text.decimalValue? c).isSome

/-- The digits of an index are among those of the expression. -/
theorem length_le_of_tagSelect? {t name digits : Text} (h : tagSelect? t = some (name, digits)) :
    digits.length ≤ t.countP isDecimal := by
  simp only [tagSelect?, Option.bind_eq_bind, Option.bind_eq_some_iff] at h
  rcases h with ⟨t₁, h₁, t₂, h₂, t₃, h₃, t₄, h₄, h⟩
  have hrest : t₄.Sublist t :=
    (afterAll?_sublist h₄).trans <| (after?_sublist h₃).trans <|
      (List.drop_sublist _ t₂).trans <| (afterAll?_sublist h₂).trans (after?_sublist h₁)
  have hdigits : digits = t₄.takeWhile isDecimal := by
    split at h
    · exact (Prod.mk.inj (Option.some.inj h)).2.symm
    · cases h
  calc digits.length = digits.countP isDecimal := by
        refine (List.countP_eq_length.mpr fun c hc => ?_).symm
        rw [hdigits] at hc
        exact List.all_eq_true.mp List.all_takeWhile c hc
    _ ≤ t.countP isDecimal := by
        rw [hdigits]
        exact ((List.takeWhile_sublist _).trans hrest).countP_le

/-- A string without more digits than an index can have. -/
def hasShortDigits (s : Scalar) : Bool :=
  match codes? (.scalar s) with
  | some codes => (Text.repaired codes).countP isDecimal ≤ Text.mostDigits
  | none => true

/-- A scalar without too many digits, whether it is a number or a string. -/
def isShort (s : Scalar) : Bool := s.isBrief && hasShortDigits s

/-- Calls that are enough for a step: each level of collections takes no more than the fields of a
construct step do. -/
def Fits (room : Nat) (v : Value) : Prop := v.all isShort = true ∧ fieldCalls * v.depth ≤ room

theorem Fits.shows (h : Fits room v) : Shows room v := by
  refine ⟨Value.all_of_imp (fun s hs => ?_) v h.1, ?_⟩
  · rw [isShort, Bool.and_eq_true] at hs
    exact hs.1
  · have hroom := h.2
    rw [fieldCalls] at hroom
    omega

theorem exists_extract (h : Fits room v) : ∃ made, (extract room v).outcome = .ok made := by
  unfold extract
  cases hread : (codes? v).bind Expression.ofCodes? with
  | none => exact ⟨_, (outcome_shown_bind fun _ => rfl).mpr ⟨h.shows, rfl⟩⟩
  | some e =>
    cases e with
    | field name => exact ⟨_, rfl⟩
    | tag name digits =>
      rcases Option.bind_eq_some_iff.mp hread with ⟨codes, hcodes, htag⟩
      have hdigits : digits.length ≤ Text.mostDigits := by
        unfold Expression.ofCodes? at htag
        dsimp only at htag
        split at htag
        · cases htag
        · rcases Option.map_eq_some_iff.mp htag with ⟨⟨name', digits'⟩, hselect, hexpression⟩
          obtain ⟨-, rfl⟩ := Expression.tag.inj hexpression
          have hcount :=
            Nat.le_trans (length_le_of_tagSelect? hselect) (strip_sublist _).countP_le
          cases v with
          | scalar s =>
            have hs := h.1
            rw [Value.all, isShort, Bool.and_eq_true, hasShortDigits, hcodes] at hs
            exact Nat.le_trans hcount (of_decide_eq_true hs.2)
          | _ => cases hcodes
      have hindex : (indexOf digits).outcome = .ok ((Text.decimalNumber? digits).getD 0) := by
        rw [indexOf, if_neg (by omega)]
        rfl
      dsimp only
      rw [Run.outcome_bind, hindex]
      exact ⟨_, rfl⟩

theorem exists_expandOperation {es : Entries} {operation : Value}
    (hes : ∀ e ∈ es, Fits room e.2) (hoperation : Fits room operation) :
    ∃ made, (expandOperation room v es operation).outcome = .ok made := by
  have hexpression : Fits room (((es.erase "operation").get? "expression").getD .null) := by
    cases hget : (es.erase "operation").get? "expression" with
    | none => exact ⟨rfl, Nat.zero_le _⟩
    | some x => exact hes _ (List.mem_filter.mp (Entries.mem_of_get? hget)).1
  unfold expandOperation
  dsimp only
  cases Operation.ofValue operation with
  | extract =>
    rcases exists_extract hexpression with ⟨made, hmade⟩
    dsimp only
    rw [Run.outcome_bind, hmade]
    cases (es.erase "operation").get? "as" <;> exact ⟨_, rfl⟩
  | map =>
    rcases exists_extract hexpression with ⟨made, hmade⟩
    dsimp only
    rw [Run.outcome_bind, hmade]
    exact ⟨_, rfl⟩
  | nameless => exact ⟨_, (outcome_shown_bind fun _ => rfl).mpr ⟨hoperation.shows, rfl⟩⟩
  | _ => exact ⟨_, rfl⟩

theorem exists_compileFlat {op : Scalar} {value : Value} (hop : isShort op = true)
    (hvalue : Fits room value) : ∃ w, (compileFlat room op value).outcome = .ok w := by
  unfold compileFlat
  rw [isShort, Bool.and_eq_true] at hop
  cases Parameter.ofOp op with
  | named name => exact ⟨_, rfl⟩
  | spread name => cases value <;> exact ⟨_, rfl⟩
  | replace =>
    cases value with
    | map label es => exact ⟨_, rfl⟩
    | _ => exact ⟨_, (outcome_shown_bind fun _ => rfl).mpr ⟨hvalue.shows, rfl⟩⟩
  | unknown => exact ⟨_, (outcome_plainName_bind fun _ => rfl).mpr ⟨hop.1, rfl⟩⟩

/-- The parts of a mapping fit with it. -/
theorem Fits.of_mem {label : Option Nat} {es : Entries} (h : Fits room (.map label es)) :
    ∀ e ∈ es, isShort e.1 = true ∧ Fits room e.2 := by
  have hroom := h.2
  rw [Value.depth, Nat.mul_succ] at hroom
  intro e he
  have hall := Value.allEntries_iff.mp h.1 e he
  have hdepth := Value.depthEntries_le_iff.mp (Nat.le_refl (Value.depthEntries es)) e he
  have hmul := Nat.mul_le_mul_left fieldCalls hdepth
  exact ⟨hall.1, hall.2, by omega⟩

theorem exists_deeper {calls : Nat} (h : calls ≤ room) :
    (deeper calls room).outcome = .ok (room - calls) := by
  rw [deeper, if_pos h]
  rfl

theorem exists_expandOperation_of_fits {es : Entries} {operation : Value} (h : Fits room v)
    (ho : operation? v = some (es, operation)) :
    ∃ made, (expandOperation room v es operation).outcome = .ok made := by
  cases v with
  | map label entries =>
    rcases Option.map_eq_some_iff.mp ho with ⟨value, hget, hpair⟩
    obtain ⟨rfl, rfl⟩ := Prod.mk.inj hpair
    exact exists_expandOperation (fun e he => (h.of_mem e he).2)
      (h.of_mem _ (Entries.mem_of_get? hget)).2
  | _ => cases ho

/-- The steps of a pipe in a step fit the room that the calls to them leave. -/
theorem Fits.of_list {calls : Nat} (hcalls : calls ≤ fieldCalls) (h : Fits room (.list steps)) :
    calls ≤ room ∧ ∀ v ∈ steps, Fits (room - calls) v := by
  have hroom := h.2
  rw [Value.depth, Nat.mul_succ] at hroom
  refine ⟨by omega, fun v hv => ?_⟩
  have hdepth := Value.depthItems_le_iff.mp (Nat.le_refl (Value.depthItems steps)) v hv
  have hmul := Nat.mul_le_mul_left fieldCalls hdepth
  exact ⟨Value.allItems_iff.mp h.1 v hv, by omega⟩

mutual

theorem exists_compileStep (room : Nat) : (v : Value) → Fits room v →
    ∃ w, (compileStep room v).outcome = .ok w
  | .scalar s, h => by
    cases s with
    | str s => exact ⟨_, rfl⟩
    | illFormed codes half => exact ⟨_, rfl⟩
    | _ => exact ⟨_, unreadable_ok_iff.mpr ⟨h.shows, rfl⟩⟩
  | .map label [], h => ⟨_, manyKeys_ok_iff.mpr ⟨h.shows, rfl⟩⟩
  | .map label [(op, value)], h => by
    rcases h.of_mem _ (List.mem_singleton.mpr rfl) with ⟨hop, hvalue⟩
    simp only [compileStep.eq_def]
    split
    · exact ⟨_, rfl⟩
    · split
      · rcases exists_compileUnderMap room value hvalue with ⟨pipe, hpipe⟩
        rw [Run.outcome_bind, hpipe]
        exact ⟨_, rfl⟩
      · split
        · exact exists_compileConstruct room value hvalue
        · exact exists_compileFlat hop hvalue
  | .map label (e :: e' :: later), h => by
    simp only [compileStep.eq_def]
    split
    · exact ⟨_, rfl⟩
    · exact ⟨_, manyKeys_ok_iff.mpr ⟨h.shows, rfl⟩⟩
  | .list _, h | .tuple _, h | .set _, h | .backRef _, h =>
    ⟨_, unreadable_ok_iff.mpr ⟨h.shows, rfl⟩⟩

theorem exists_compileUnderMap (room : Nat) : (v : Value) → Fits room v →
    ∃ w, (compileUnderMap room v).outcome = .ok w
  | .list steps, h => by
    rcases h.of_list (by decide : mapCalls ≤ fieldCalls) with ⟨hcalls, hsteps⟩
    rcases exists_compileSteps _ steps hsteps with ⟨made, hmade⟩
    rw [compileUnderMap, Run.outcome_bind, exists_deeper hcalls]
    change ∃ w, (compileSteps _ steps >>= _).outcome = .ok w
    rw [Run.outcome_bind, hmade]
    exact ⟨_, rfl⟩
  | .scalar _, _ | .tuple _, _ | .set _, _ | .map .., _ | .backRef _, _ => ⟨_, rfl⟩

theorem exists_compileConstruct (room : Nat) : (v : Value) → Fits room v →
    ∃ w, (compileConstruct room v).outcome = .ok w
  | .map label es, h => by
    have hes : ∀ e ∈ es, Fits room e.2 := fun e he => (h.of_mem e he).2
    have hfields : ∃ fields, ((constructFields room es).getD (compileFields room es)).outcome =
        .ok fields := by
      cases hsome : constructFields room es with
      | none => exact exists_compileFields room es hes
      | some run => exact exists_constructFields room es hes hsome
    rcases hfields with ⟨fields, hfields⟩
    rw [compileConstruct, Run.outcome_bind, hfields]
    exact ⟨_, rfl⟩
  | .scalar _, h | .list _, h | .tuple _, h | .set _, h | .backRef _, h =>
    ⟨_, (outcome_shown_bind fun _ => rfl).mpr ⟨h.shows, rfl⟩⟩

theorem exists_compileSteps (room : Nat) : (vs : List Value) → (∀ v ∈ vs, Fits room v) →
    ∃ made, (compileSteps room vs).outcome = .ok made
  | [], _ => ⟨_, rfl⟩
  | v :: vs, h => by
    rw [List.forall_mem_cons] at h
    rcases exists_compileStep room v h.1 with ⟨first, hfirst⟩
    rcases exists_compileSteps room vs h.2 with ⟨later, hlater⟩
    rw [compileSteps, Run.outcome_bind, hfirst]
    change ∃ made, (compileSteps room vs >>= _).outcome = .ok made
    rw [Run.outcome_bind, hlater]
    exact ⟨_, rfl⟩

theorem exists_expandSteps (room : Nat) : (vs : List Value) → (∀ v ∈ vs, Fits room v) →
    ∃ made, (expandSteps room vs).outcome = .ok made
  | [], _ => ⟨_, rfl⟩
  | v :: vs, h => by
    rw [List.forall_mem_cons] at h
    have hv : ∃ first, (expandStep room v (compileStep room v)).outcome = .ok first := by
      rcases exists_compileStep room v h.1 with ⟨w, hw⟩
      unfold expandStep
      split
      · next es operation ho => exact exists_expandOperation_of_fits h.1 ho
      · rw [Run.outcome_bind, hw]
        exact ⟨_, rfl⟩
    rcases hv with ⟨first, hfirst⟩
    rcases exists_expandSteps room vs h.2 with ⟨later, hlater⟩
    rw [expandSteps, Run.outcome_bind, hfirst]
    change ∃ made, (expandSteps room vs >>= _).outcome = .ok made
    rw [Run.outcome_bind, hlater]
    exact ⟨_, rfl⟩

theorem exists_constructFields (room : Nat) : (es : List (Scalar × Value)) →
    (∀ e ∈ es, Fits room e.2) → {run : Run Fault Entries} → constructFields room es = some run →
    ∃ fields, run.outcome = .ok fields
  | [], _, _, hrun => nomatch hrun
  | (k, v) :: es, h, run, hrun => by
    rw [List.forall_mem_cons] at h
    unfold constructFields at hrun
    split at hrun
    · cases v with
      | map label fields =>
        obtain rfl := Option.some.inj hrun
        exact exists_compileFields room fields fun e he => (h.1.of_mem e he).2
      | _ => cases hrun
    · exact exists_constructFields room es h.2 hrun

theorem exists_compileFields (room : Nat) : (es : List (Scalar × Value)) →
    (∀ e ∈ es, Fits room e.2) → ∃ made, (compileFields room es).outcome = .ok made
  | [], _ => ⟨_, rfl⟩
  | (k, v) :: es, h => by
    rw [List.forall_mem_cons] at h
    rcases exists_compileField room v h.1 with ⟨first, hfirst⟩
    rcases exists_compileFields room es h.2 with ⟨later, hlater⟩
    rw [compileFields, Run.outcome_bind, hfirst]
    change ∃ made, (compileFields room es >>= _).outcome = .ok made
    rw [Run.outcome_bind, hlater]
    exact ⟨_, rfl⟩

theorem exists_compileField (room : Nat) : (v : Value) → Fits room v →
    ∃ w, (compileField room v).outcome = .ok w
  | .list steps, h => by
    rcases h.of_list (Nat.le_refl fieldCalls) with ⟨hcalls, hsteps⟩
    rw [compileField, Run.outcome_bind, exists_deeper hcalls]
    change ∃ w, Run.outcome (if isLegacy steps = true then _ else _) = .ok w
    split
    · rcases exists_expandSteps _ steps hsteps with ⟨made, hmade⟩
      rw [Run.outcome_bind]
      change ∃ w, (expandSteps _ steps >>= _).outcome = .ok w
      rw [Run.outcome_bind, hmade]
      exact ⟨_, rfl⟩
    · rcases exists_compileSteps _ steps hsteps with ⟨made, hmade⟩
      rw [Run.outcome_bind, hmade]
      exact ⟨_, rfl⟩
  | .scalar _, _ | .tuple _, _ | .set _, _ | .map .., _ | .backRef _, _ => ⟨_, rfl⟩

end

/-- A pipe without long numbers is compiled if it is not nested too deeply. -/
theorem exists_compile_of_fits (h : ∀ v ∈ steps, Fits room v) :
    ∃ done, (compile room (.list steps)).outcome = .ok done := by
  rw [compile]
  split
  · rcases exists_expandSteps room steps h with ⟨made, hmade⟩
    rw [Run.outcome_bind]
    change ∃ w, (expandSteps room steps >>= _).outcome = .ok w
    rw [Run.outcome_bind, hmade]
    exact ⟨_, rfl⟩
  · rcases exists_compileSteps room steps h with ⟨made, hmade⟩
    rw [Run.outcome_bind, hmade]
    exact ⟨_, rfl⟩

end Notemark.Pipe
