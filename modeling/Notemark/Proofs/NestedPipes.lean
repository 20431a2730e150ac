import Notemark.Proofs.FinishedPipes

/-!
# Pipes inside pipes

A compact step can hold a pipe: `map` holds one, `construct` one for each of its fields. This module
takes a pipe out of the pipes around it and says how it is read where it stands. A pipe that stands
deeper has less room: `mapCalls` less under `map` and `fieldCalls` less in a field.

* `Holder`: a compact step with a place for a pipe; `Holder.fill` and `Holder.fillCompiled` put
  something there, before and after compiling,
* `Frame`, `fill`, `fillCompiled`: pipes around a pipe, to any depth,
* `Surrounds`, `roomIn`: everything around the place can be compiled, and the room that is left
  there,
* `readIn`: how a pipe is read in its place; under `map` it is always taken for a compact one,
* `readIn_fill_ok_iff`: compiling goes through to the innermost pipe,
* `expanded_eq_compiled_iff`: the steps that mean the same in both forms,
* `nested_pipe_iff`: a pipe comes out as it does by itself exactly if it does not stand under `map`,
  or is compact, or means the same in both forms.
-/

namespace Notemark.Pipe

variable {room : Nat} {v : Value} {steps : List Value}

/-! ## Steps that hold a pipe -/

/-- A compact step with a place for a pipe: under `map`, or under a name among the fields of a
construct step, where the fields stand under `fields` or by themselves. -/
inductive Holder where
  | map (label : Option Nat)
  | field (label outer inner : Option Nat) (left right : Entries) (before : Entries) (name : Scalar)
      (after : Entries) (first : left.get? "fields" = none)
  | ownField (label outer : Option Nat) (before : Entries) (name : Scalar) (after : Entries)
      (bare : ∀ steps,
        (Entries.get? (before ++ (name, .list steps) :: after) "fields").bind Value.entries? = none)

namespace Holder

def isMap : Holder → Bool
  | map _ => true
  | _ => false

/-- The calls from the step to the pipe in its place. -/
def calls : Holder → Nat
  | map _ => mapCalls
  | _ => fieldCalls

/-- The other fields. -/
def siblings : Holder → Entries
  | map _ => []
  | field _ _ _ _ _ before _ after _ | ownField _ _ before _ after _ => before ++ after

/-- The step with a value in its place. -/
def fill (x : Value) : Holder → Value
  | map label => .map label [(.str "map", x)]
  | field label outer inner left right before name after _ =>
    .map label [(.str "construct",
      .map outer (left ++ (.str "fields", .map inner (before ++ (name, x) :: after)) :: right))]
  | ownField label outer before name after _ =>
    .map label [(.str "construct", .map outer (before ++ (name, x) :: after))]

/-- The compiled step with a value in its place. -/
def fillCompiled (x : Value) : Holder → Value
  | map _ => stepWith "map" "pipe" x
  | field _ _ _ _ _ before name after _ | ownField _ _ before name after _ =>
    stepWith "construct" "fields"
      (.map none (compiledFields before ++ (name, x) :: compiledFields after))

/-- There is room for a pipe in the place, and the pipes of the other fields are compiled. -/
def Surrounds (room : Nat) (k : Holder) : Prop :=
  k.calls ≤ room ∧
    ∀ e ∈ k.siblings, (compile (room - fieldCalls) e.2).outcome = .ok (compiledPipe e.2)

end Holder

/-- How a pipe is read in its place: under `map` it is always taken for a compact one. -/
def readIn (underMap : Bool) (room : Nat) (steps : List Value) : Run Fault Value :=
  if underMap then do return .list (← compileSteps room steps) else compile room (.list steps)

theorem readIn_ok_iff {underMap : Bool} {q : Value} :
    (readIn underMap room steps).outcome = .ok q ↔
      q = .list (translated (!underMap && isLegacy steps) steps) ∧
        ∀ v ∈ steps, Translates room (!underMap && isLegacy steps) v := by
  cases underMap with
  | false => exact compile_ok_iff
  | true =>
    rw [readIn, if_pos rfl, Run.outcome_bind, bind_eq_ok_iff]
    simp only [compileSteps_ok_iff, Run.outcome_pure, Except.ok.injEq]
    constructor
    · rintro ⟨_, ⟨rfl, h⟩, rfl⟩
      exact ⟨rfl, h⟩
    · rintro ⟨rfl, h⟩
      exact ⟨_, ⟨rfl, h⟩, rfl⟩

/-- What stands under `map` is read with the room that the calls to it leave. -/
theorem outcome_compileUnderMap (h : mapCalls ≤ room) (steps : List Value) :
    (compileUnderMap room (.list steps)).outcome =
      (readIn true (room - mapCalls) steps).outcome := by
  rw [compileUnderMap, Run.outcome_bind, exists_deeper h]
  rfl

/-! ## Fields -/

/-- A field is a pipe by itself. -/
theorem outcome_compileField (h : fieldCalls ≤ room) (v : Value) :
    (compileField room v).outcome = (compile (room - fieldCalls) v).outcome := by
  cases v with
  | list steps =>
    rw [compileField, Run.outcome_bind, exists_deeper h]
    rfl
  | _ => rfl

theorem compile_ok {q : Value} (h : (compile room v).outcome = .ok q) : q = compiledPipe v := by
  cases v with
  | list steps =>
    rw [compiledPipe_list]
    exact (compile_ok_iff.mp h).1
  | _ => exact (Except.ok.inj h).symm

theorem outcome_compileFields (room : Nat) (es : Entries) :
    (compileFields room es).outcome =
      es.mapM fun e => (compileField room e.2).outcome.map (Prod.mk e.1) := by
  induction es with
  | nil => rfl
  | cons e es ih =>
    rw [compileFields, List.mapM_cons, ← ih]
    simp only [Run.outcome_bind]
    cases (compileField room e.2).outcome <;> rfl

theorem compileFields_ok_iff {es made : Entries} :
    (compileFields room es).outcome = .ok made ↔
      made = compiledFields es ∧
        ∀ e ∈ es, (compileField room e.2).outcome = .ok (compiledPipe e.2) := by
  have hone : ∀ {e m : Scalar × Value},
      (compileField room e.2).outcome.map (Prod.mk e.1) = .ok m → m = (e.1, compiledPipe e.2) := by
    intro e m hm
    rcases map_eq_ok_iff.mp hm with ⟨q, hq, rfl⟩
    rw [compileField_ok room e.2 hq]
  rw [outcome_compileFields, mapM_eq_ok_iff hone, compiledFields_eq]
  refine and_congr_right fun _ => forall₂_congr fun e _ => ?_
  simp [map_eq_ok_iff]

/-- The fields of a construct step are those under `fields`, if there is a mapping. -/
theorem constructFields_getD (room : Nat) (es : Entries) :
    (constructFields room es).getD (compileFields room es) =
      compileFields room (fieldsOf es) := by
  have hown : constructFields room es = (ownFields? es).map (compileFields room) := by
    induction es with
    | nil => rfl
    | cons e es ih =>
      rcases e with ⟨key, value⟩
      rw [ownFields?, Entries.get?_cons]
      by_cases hkey : key = .str "fields"
      · cases value <;> simp [constructFields, Scalar.sameKey_str, hkey, Value.entries?]
      · cases value <;> simp [constructFields, Scalar.sameKey_str, hkey, ih, ownFields?]
  rw [hown, fieldsOf]
  cases ownFields? es <;> rfl

theorem outcome_compileStep_construct (room : Nat) (label outer : Option Nat) (es : Entries) :
    (compileStep room (.map label [(.str "construct", .map outer es)])).outcome =
      (compileFields room (fieldsOf es)).outcome.map
        fun fields => stepWith "construct" "fields" (.map none fields) := by
  simp only [compileStep.eq_def, Scalar.sameKey_str, Scalar.str.injEq, decide_eq_true_eq]
  rw [if_neg (by decide), if_neg (by decide), if_pos trivial, compileConstruct, constructFields_getD,
    Run.outcome_bind]
  rfl

theorem outcome_compileStep_map (room : Nat) (label : Option Nat) (v : Value) :
    (compileStep room (.map label [(.str "map", v)])).outcome =
      (compileUnderMap room v).outcome.map (stepWith "map" "pipe") := by
  simp only [compileStep.eq_def, Scalar.sameKey_str, Scalar.str.injEq, decide_eq_true_eq]
  rw [if_neg (by decide), if_pos trivial, Run.outcome_bind]
  rfl

/-! ## Steps around a pipe -/

theorem get?_fields_append {left : Entries} (h : left.get? "fields" = none) (value : Value)
    (right : Entries) :
    Entries.get? (left ++ (.str "fields", value) :: right) "fields" = some value := by
  induction left with
  | nil => rfl
  | cons e left ih =>
    rw [Entries.get?_cons] at h
    by_cases hkey : e.1 = .str "fields"
    · simp [hkey] at h
    · rw [if_neg hkey] at h
      rw [List.cons_append, Entries.get?_cons, if_neg hkey, ih h]

/-- Fields with a pipe among them are compiled if there is room for it, it is compiled, and so are
the others. -/
theorem compileFields_fill_ok_iff {before after made : Entries} {name : Scalar} :
    (compileFields room (before ++ (name, .list steps) :: after)).outcome = .ok made ↔
      (fieldCalls ≤ room ∧ ∀ e ∈ before ++ after,
        (compile (room - fieldCalls) e.2).outcome = .ok (compiledPipe e.2)) ∧
      ∃ q, (compile (room - fieldCalls) (.list steps)).outcome = .ok q ∧
        made = compiledFields before ++ (name, q) :: compiledFields after := by
  rw [compileFields_ok_iff]
  simp only [compiledFields_eq, List.map_append, List.map_cons, List.forall_mem_append,
    List.forall_mem_cons]
  by_cases h : fieldCalls ≤ room
  · simp only [outcome_compileField h]
    constructor
    · rintro ⟨rfl, hbefore, hpipe, hafter⟩
      exact ⟨⟨h, hbefore, hafter⟩, _, hpipe, rfl⟩
    · rintro ⟨⟨-, hbefore, hafter⟩, q, hq, rfl⟩
      obtain rfl := compile_ok hq
      exact ⟨rfl, hbefore, hq, hafter⟩
  · refine iff_of_false ?_ fun hand => h hand.1.1
    rintro ⟨-, -, hpipe, -⟩
    rw [compileField] at hpipe
    rcases outcome_bind_ok hpipe with ⟨inner, hinner, -⟩
    exact h (deeper_ok_iff.mp hinner).1

/-- A step passes the pipe in its place on. -/
theorem compileStep_fill_ok_iff (k : Holder) (steps : List Value) {x : Value} :
    (compileStep room (k.fill (.list steps))).outcome = .ok x ↔
      k.Surrounds room ∧ ∃ q,
        (readIn k.isMap (room - k.calls) steps).outcome = .ok q ∧ x = k.fillCompiled q := by
  have hconstruct : ∀ {label outer : Option Nat} {es before after : Entries} {name : Scalar},
      fieldsOf es = before ++ (name, .list steps) :: after →
      ((compileStep room (.map label [(.str "construct", .map outer es)])).outcome = .ok x ↔
        (fieldCalls ≤ room ∧ ∀ e ∈ before ++ after,
          (compile (room - fieldCalls) e.2).outcome = .ok (compiledPipe e.2)) ∧
        ∃ q, (compile (room - fieldCalls) (.list steps)).outcome = .ok q ∧
          x = stepWith "construct" "fields"
            (.map none (compiledFields before ++ (name, q) :: compiledFields after))) := by
    intro label outer es before after name hes
    rw [outcome_compileStep_construct, hes, map_eq_ok_iff]
    simp only [compileFields_fill_ok_iff]
    constructor
    · rintro ⟨_, ⟨hothers, q, hq, rfl⟩, rfl⟩
      exact ⟨hothers, q, hq, rfl⟩
    · rintro ⟨hothers, q, hq, rfl⟩
      exact ⟨_, ⟨hothers, q, hq, rfl⟩, rfl⟩
  cases k with
  | map label =>
    rw [Holder.fill, outcome_compileStep_map, map_eq_ok_iff]
    by_cases h : mapCalls ≤ room
    · rw [outcome_compileUnderMap h]
      constructor
      · rintro ⟨q, hq, rfl⟩
        exact ⟨⟨h, by simp [Holder.siblings]⟩, q, hq, rfl⟩
      · rintro ⟨-, q, hq, rfl⟩
        exact ⟨q, hq, rfl⟩
    · refine iff_of_false ?_ fun hand => h hand.1.1
      rintro ⟨q, hq, -⟩
      rw [compileUnderMap] at hq
      rcases outcome_bind_ok hq with ⟨inner, hinner, -⟩
      exact h (deeper_ok_iff.mp hinner).1
  | field label outer inner left right before name after first =>
    refine hconstruct ?_
    rw [fieldsOf, ownFields?, get?_fields_append first]
    rfl
  | ownField label outer before name after bare =>
    refine hconstruct ?_
    rw [fieldsOf, ownFields?, bare]
    rfl

theorem operation?_fill (k : Holder) (x : Value) : operation? (k.fill x) = none := by
  cases k <;> simp [Holder.fill, operation?, Entries.get?_cons]

theorem isLegacy_fill (k : Holder) (x : Value) (later : List Value) :
    isLegacy (k.fill x :: later) = false := by
  cases k <;> simp [Holder.fill, isLegacy, Entries.has, Entries.get?_cons]

theorem stepWith_eq (op : String) {name : String} (h : name ≠ "op") (x : Value) :
    stepWith op name x = .map none [(.str "op", .str op), (.str name, x)] := by
  have hkey : ¬ Scalar.sameKey (.str "op") (.str name) = true := by
    simpa [Scalar.sameKey_str] using h.symm
  simp [stepWith, step, Entries.update, Entries.set, hkey, Value.str]

theorem Holder.fillCompiled_inj (k : Holder) {x y : Value}
    (h : k.fillCompiled x = k.fillCompiled y) : x = y := by
  cases k <;> simpa [Holder.fillCompiled, stepWith_eq] using h

/-! ## Pipes around a pipe -/

/-- The steps of a pipe around one of its compact steps, which holds a pipe. -/
structure Frame where
  before : List Value
  holder : Holder
  after : List Value

/-- A pipe with others around it, the outermost first. -/
def fill : List Frame → List Value → List Value
  | [], steps => steps
  | f :: fs, steps => f.before ++ f.holder.fill (.list (fill fs steps)) :: f.after

/-- The same after compiling, with a value in the innermost place. -/
def fillCompiled (underMap : Bool) : List Frame → Value → Value
  | [], x => x
  | f :: fs, x =>
    let legacy := !underMap && isLegacy f.before
    .list (translated legacy f.before ++
      f.holder.fillCompiled (fillCompiled f.holder.isMap fs x) :: translated legacy f.after)

/-- The innermost place is under `map`; without pipes around it is the place of the whole. -/
def endsUnderMap (underMap : Bool) : List Frame → Bool
  | [] => underMap
  | f :: fs => endsUnderMap f.holder.isMap fs

/-- The room that is left in the innermost place. -/
def roomIn (room : Nat) : List Frame → Nat
  | [] => room
  | f :: fs => roomIn (room - f.holder.calls) fs

/-- Everything around the innermost place can be compiled, whatever stands there. -/
def Surrounds (underMap : Bool) (room : Nat) : List Frame → Prop
  | [] => True
  | f :: fs =>
    (∀ v ∈ f.before ++ f.after, Translates room (!underMap && isLegacy f.before) v) ∧
      f.holder.Surrounds room ∧ Surrounds f.holder.isMap (room - f.holder.calls) fs

theorem translated_append (legacy : Bool) (steps later : List Value) :
    translated legacy (steps ++ later) = translated legacy steps ++ translated legacy later := by
  cases legacy with
  | true => exact List.flatMap_append
  | false => exact List.map_append

/-- Both forms read a compact step in the same way. -/
theorem translated_cons (legacy : Bool) (h : operation? v = none) (later : List Value) :
    translated legacy (v :: later) = compiled v :: translated legacy later := by
  cases legacy with
  | true =>
    have hv : expanded v = [compiled v] := by rw [expanded, h]
    change (v :: later).flatMap expanded = compiled v :: later.flatMap expanded
    rw [List.flatMap_cons, hv, List.singleton_append]
  | false => rfl

theorem translates_iff_of_none (legacy : Bool) (h : operation? v = none) :
    Translates room legacy v ↔ Compiles room v := by
  cases legacy with
  | true => exact expands_iff_of_none h
  | false => exact Iff.rfl

/-- The form of a pipe depends on its first step only, and a compact step shows the compact form. -/
theorem isLegacy_append_fill (before : List Value) (k : Holder) (x : Value) (after : List Value) :
    isLegacy (before ++ k.fill x :: after) = isLegacy before := by
  cases before with
  | nil => exact isLegacy_fill k x after
  | cons first before => exact isLegacy_cons first _ before

/-- Compiling goes through all pipes around to the innermost one. -/
theorem readIn_fill_ok_iff (underMap : Bool) (fs : List Frame) (steps : List Value) {x : Value} :
    (readIn underMap room (fill fs steps)).outcome = .ok x ↔
      Surrounds underMap room fs ∧ ∃ q,
        (readIn (endsUnderMap underMap fs) (roomIn room fs) steps).outcome = .ok q ∧
          x = fillCompiled underMap fs q := by
  -- The outermost step passes its pipe on, and whether it stands under `map` depends on that step.
  induction fs generalizing underMap room x with
  | nil => simp [fill, Surrounds, endsUnderMap, roomIn, fillCompiled]
  | cons f fs ih =>
    have hnone := operation?_fill f.holder (.list (fill fs steps))
    have hstep : ∀ {w}, (compileStep room (f.holder.fill (.list (fill fs steps)))).outcome = .ok w ↔
        f.holder.Surrounds room ∧ Surrounds f.holder.isMap (room - f.holder.calls) fs ∧ ∃ q,
          (readIn (endsUnderMap f.holder.isMap fs) (roomIn (room - f.holder.calls) fs)
            steps).outcome = .ok q ∧
          w = f.holder.fillCompiled (fillCompiled f.holder.isMap fs q) := by
      intro w
      rw [compileStep_fill_ok_iff]
      simp only [ih]
      constructor
      · rintro ⟨hholder, _, ⟨hfs, q, hq, rfl⟩, rfl⟩
        exact ⟨hholder, hfs, q, hq, rfl⟩
      · rintro ⟨hholder, hfs, q, hq, rfl⟩
        exact ⟨hholder, _, ⟨hfs, q, hq, rfl⟩, rfl⟩
    rw [readIn_ok_iff, fill, isLegacy_append_fill, translated_append, translated_cons _ hnone]
    simp only [List.forall_mem_append, List.forall_mem_cons, translates_iff_of_none _ hnone]
    constructor
    · rintro ⟨rfl, hbefore, hcompiles, hafter⟩
      rcases hstep.mp hcompiles with ⟨hholder, hfs, q, hq, hw⟩
      rw [hw]
      exact ⟨⟨List.forall_mem_append.mpr ⟨hbefore, hafter⟩, hholder, hfs⟩, q, hq, rfl⟩
    · rintro ⟨⟨haround, hholder, hfs⟩, q, hq, rfl⟩
      have hw := hstep.mpr ⟨hholder, hfs, q, hq, rfl⟩
      have hcompiled := compileStep_ok room _ hw
      rw [List.forall_mem_append] at haround
      refine ⟨?_, haround.1, ?_, haround.2⟩
      · rw [← hcompiled]
        rfl
      · rw [Compiles, ← hcompiled]
        exact hw

theorem fillCompiled_inj {underMap : Bool} (fs : List Frame) {x y : Value}
    (h : fillCompiled underMap fs x = fillCompiled underMap fs y) : x = y := by
  induction fs generalizing underMap with
  | nil => exact h
  | cons f fs ih =>
    have hsteps := List.append_cancel_left (Value.list.inj h)
    exact ih (Holder.fillCompiled_inj f.holder (List.cons.inj hsteps).1)

/-! ## Steps that mean the same in both forms -/

theorem expanded_ne_nil (v : Value) : expanded v ≠ [] := by
  rcases expanded_cases v with ⟨-, hv⟩ | ⟨-, -, hv⟩ | ⟨-, hne, -⟩
  · simp [hv]
  · simp [hv]
  · exact hne

theorem length_le_flatMap_expanded (steps : List Value) :
    steps.length ≤ (steps.flatMap expanded).length := by
  induction steps with
  | nil => exact Nat.le_refl 0
  | cons v steps ih =>
    have hpos := List.length_pos_iff.mpr (expanded_ne_nil v)
    rw [List.flatMap_cons, List.length_append, List.length_cons]
    omega

/-- An operation with a name and nothing else is carried out by the older form, and by the compact
form taken for a step with a value. -/
theorem expanded_ne_compiled_lone (label : Option Nat) {operation : Value}
    (h : name? operation ≠ none) :
    expanded (.map label [(.str "operation", operation)]) ≠
      [compiled (.map label [(.str "operation", operation)])] := by
  intro heq
  have hcompiled : compiled (.map label [(.str "operation", operation)]) =
      .map none [(.str "op", .str "operation"), (.str "value", operation)] := rfl
  -- Without parameters there is nothing that could stand under `value`.
  have hvalue : ∀ w ∈ expanded (.map label [(.str "operation", operation)]),
      w.get? "value" = none := by
    change ∀ w ∈ operated _ [(.str "operation", operation)] operation, _
    have hrest : Entries.erase [(.str "operation", operation)] "operation" = [] := rfl
    unfold operated
    rw [hrest]
    cases hoperation : Operation.ofValue operation with
    | direct name parameters =>
      have hnone : keptParameters [] parameters = [] :=
        List.filterMap_eq_nil_iff.mpr fun _ _ => rfl
      dsimp only
      rw [hnone]
      exact List.forall_mem_singleton.mpr rfl
    | nameless => exact absurd (ofValue_eq_nameless_iff.mp hoperation) h
    | _ => exact List.forall_mem_singleton.mpr rfl
  rw [heq, hcompiled] at hvalue
  simpa [Value.get?, Value.entries?, Entries.get?_cons] using hvalue _ List.mem_cons_self

/-- The two forms agree on a step exactly if it is no operation, or one without a name that does not
stand alone. -/
theorem expanded_eq_compiled_iff (v : Value) :
    expanded v = [compiled v] ↔
      operationName? v = none ∧ (isNameless v = true → isFinished v = true) := by
  rcases expanded_cases v with ⟨hnone, hv⟩ | ⟨⟨o, ho⟩, hname, hv⟩ | ⟨hname, -, hmodern⟩
  · simp [hv, operationName?, isNameless, hnone]
  · have hnameless : isNameless v = true :=
      (isNameless_iff ho).mpr (by simpa [operationName?, ho] using hname)
    have hself : [v] = [compiled v] ↔ compiled v = v := by
      rw [List.singleton_inj]
      exact eq_comm
    rw [hv, hself, compiled_eq_self_iff]
    simp [hname, hnameless]
  · rcases Option.isSome_iff_exists.mp hname with ⟨name, hsome⟩
    rcases Option.bind_eq_some_iff.mp hsome with ⟨⟨es, operation⟩, ho, hstring⟩
    refine iff_of_false ?_ (by simp [hsome])
    intro h
    rcases lone_or_isFinished ho with ⟨label, rfl⟩ | ⟨hfinished, -⟩
    · exact expanded_ne_compiled_lone label (by simp [hstring]) h
    -- A kept step is still an operation, and the older form leaves none.
    · rw [compiled_of_isFinished hfinished] at h
      have hnone := (hmodern v (by simp [h])).operation
      simp [ho] at hnone

/-- No step is lost in the older form, so two readings of a pipe agree only step by step. -/
theorem translated_true_eq_false_iff (steps : List Value) :
    translated true steps = translated false steps ↔
      ∀ v ∈ steps, expanded v = [compiled v] := by
  change steps.flatMap expanded = steps.map compiled ↔ _
  induction steps with
  | nil => simp
  | cons v steps ih =>
    rw [List.flatMap_cons, List.map_cons, List.forall_mem_cons, ← ih]
    constructor
    · intro h
      rcases List.exists_cons_of_ne_nil (expanded_ne_nil v) with ⟨first, later, hv⟩
      rw [hv, List.cons_append] at h
      rcases List.cons.inj h with ⟨rfl, hlater⟩
      -- There are at least as many steps behind as before, so that nothing is left over.
      have hle := length_le_flatMap_expanded steps
      have hsum := congrArg List.length hlater
      rw [List.length_append, List.length_map] at hsum
      obtain rfl : later = [] := List.length_eq_zero_iff.mp (by omega)
      exact ⟨hv, hlater⟩
    · rintro ⟨hv, hlater⟩
      rw [hv, hlater, List.singleton_append]

/-- A step that is expanded is compiled to the same in a compact pipe exactly if it is no operation,
or one without a name that a compact pipe keeps. -/
theorem compiles_same_iff (h : Expands room v) :
    expanded v = [compiled v] ∧ Compiles room v ↔
      operationName? v = none ∧ (isNameless v = true → IsKept room v) := by
  rw [expanded_eq_compiled_iff, and_assoc]
  refine and_congr_right fun hname => ?_
  cases ho : operation? v with
  | none =>
    have hcompiles : Compiles room v := (expands_iff_of_none ho).mp h
    simp [isNameless, ho, hcompiles]
  | some o =>
    have hnameless : isNameless v = true :=
      (isNameless_iff ho).mpr (by simpa [operationName?, ho] using hname)
    constructor
    · rintro ⟨hfinished, hcompiles⟩ -
      rw [Compiles, compiled_of_isFinished (hfinished hnameless)] at hcompiles
      exact compileStep_self_iff.mp hcompiles
    · intro hkept
      exact ⟨fun _ => (hkept hnameless).1, compiles_of_isKept (hkept hnameless)⟩

/-! ## Nested pipes -/

/-- A pipe in its place is read as it is by itself, unless it is a pipe of the older form under
`map` that means something else in the compact form. -/
theorem readIn_same_iff (underMap : Bool) {q : Value}
    (hq : (compile room (.list steps)).outcome = .ok q) :
    (readIn underMap room steps).outcome = .ok q ↔
      underMap = false ∨ isLegacy steps = false ∨
        ∀ v ∈ steps, operationName? v = none ∧ (isNameless v = true → IsKept room v) := by
  cases underMap with
  | false => exact iff_of_true hq (Or.inl rfl)
  | true =>
    obtain ⟨rfl, htranslates⟩ := compile_ok_iff.mp hq
    rw [readIn_ok_iff]
    cases hlegacy : isLegacy steps with
    | false =>
      rw [hlegacy] at htranslates
      exact iff_of_true ⟨rfl, htranslates⟩ (Or.inr (Or.inl rfl))
    | true =>
      rw [hlegacy] at htranslates
      have hexpands : ∀ v ∈ steps, Expands room v := htranslates
      calc Value.list (translated true steps) = .list (translated false steps) ∧
            (∀ v ∈ steps, Compiles room v)
          ↔ ∀ v ∈ steps, expanded v = [compiled v] ∧ Compiles room v := by
            rw [Value.list.injEq, translated_true_eq_false_iff, forall₂_and]
        _ ↔ ∀ v ∈ steps, operationName? v = none ∧ (isNameless v = true → IsKept room v) :=
            forall₂_congr fun v hv => compiles_same_iff (hexpands v hv)
        _ ↔ _ := by simp

theorem readIn_true_of_compact (h : isLegacy steps = false) :
    (readIn true room steps).outcome = (compile room (.list steps)).outcome := by
  rw [compile, h]
  rfl

/-- A pipe means the same wherever it stands, as long as it does not stand right under `map`. A
`map` step takes its pipe for a compact one, whatever its form; it holds the compiled pipe exactly
if the pipe is compact, or if a compact pipe keeps each of its operations, which lack a name. A
construct step holds the compiled pipe of each field. So it is with every pipe that is reached
through such steps, to any depth: if what stands around it can be compiled, what comes out in its
place is what comes out of it alone with the room that is left there, except for such a pipe under
`map`. -/
theorem nested_pipe_iff (room : Nat) (fs : List Frame) (steps : List Value) :
    (∀ label, mapCalls ≤ room →
      (isLegacy steps = false →
        (compileStep room (.map label [(.str "map", .list steps)])).outcome =
          (compile (room - mapCalls) (.list steps)).outcome.map (stepWith "map" "pipe")) ∧
      ∀ q, (compile (room - mapCalls) (.list steps)).outcome = .ok q →
        ((compileStep room (.map label [(.str "map", .list steps)])).outcome =
            .ok (stepWith "map" "pipe" q) ↔
          isLegacy steps = false ∨ ∀ v ∈ steps, operationName? v = none ∧
            (isNameless v = true → IsKept (room - mapCalls) v))) ∧
    (∀ label outer inner fields, fieldCalls ≤ room →
      (compileStep room (.map label
          [(.str "construct", .map outer [(.str "fields", .map inner fields)])])).outcome =
        (fields.mapM fun e => (compile (room - fieldCalls) e.2).outcome.map (Prod.mk e.1)).map
          fun made => stepWith "construct" "fields" (.map none made)) ∧
    (∀ x, (compile room (.list (fill fs steps))).outcome = .ok x ↔
      Surrounds false room fs ∧ ∃ q,
        (readIn (endsUnderMap false fs) (roomIn room fs) steps).outcome = .ok q ∧
          x = fillCompiled false fs q) ∧
    (Surrounds false room fs → ∀ q, (compile (roomIn room fs) (.list steps)).outcome = .ok q →
      ((compile room (.list (fill fs steps))).outcome = .ok (fillCompiled false fs q) ↔
        endsUnderMap false fs = false ∨ isLegacy steps = false ∨
          ∀ v ∈ steps, operationName? v = none ∧
            (isNameless v = true → IsKept (roomIn room fs) v))) := by
  have hfill : ∀ {x}, (compile room (.list (fill fs steps))).outcome = .ok x ↔ _ := fun {x} =>
    readIn_fill_ok_iff false fs steps
  refine ⟨fun label hroom => ⟨fun hcompact => ?_, fun q hq => ?_⟩,
    fun label outer inner fields hroom => ?_, fun x => hfill, fun haround q hq => ?_⟩
  · rw [outcome_compileStep_map, outcome_compileUnderMap hroom, readIn_true_of_compact hcompact]
  · rw [outcome_compileStep_map, outcome_compileUnderMap hroom]
    calc (readIn true (room - mapCalls) steps).outcome.map (stepWith "map" "pipe") =
            .ok (stepWith "map" "pipe" q)
        ↔ (readIn true (room - mapCalls) steps).outcome = .ok q := by
          rw [map_eq_ok_iff]
          exact ⟨fun ⟨y, hy, heq⟩ => Holder.fillCompiled_inj (.map label) heq ▸ hy,
            fun hy => ⟨q, hy, rfl⟩⟩
      _ ↔ _ := by simpa using readIn_same_iff true hq
  · rw [outcome_compileStep_construct, outcome_compileFields]
    simp only [outcome_compileField hroom]
    rfl
  · calc (compile room (.list (fill fs steps))).outcome = .ok (fillCompiled false fs q)
        ↔ (readIn (endsUnderMap false fs) (roomIn room fs) steps).outcome = .ok q := by
          rw [hfill]
          exact ⟨fun ⟨_, y, hy, heq⟩ => fillCompiled_inj fs heq ▸ hy,
            fun hy => ⟨haround, q, hy, rfl⟩⟩
      _ ↔ _ := readIn_same_iff _ hq

/-- A pipe under `map`, which stands in a field of a construct step. -/
theorem nested_pipe_fields :
    ∃ q, (compile 100 (.list [.str "first"])).outcome = .ok q ∧
      (compile (100 + fieldCalls + mapCalls) (.list (fill
          [⟨[], .ownField none none [] (.str "title") [] fun _ => rfl, [.str "json"]⟩,
            ⟨[], .map none, []⟩] [.str "first"]))).outcome =
        .ok (fillCompiled false
          [⟨[], .ownField none none [] (.str "title") [] fun _ => rfl, [.str "json"]⟩,
            ⟨[], .map none, []⟩] q) := by
  refine ⟨_, rfl, ?_⟩
  refine ((nested_pipe_iff (100 + fieldCalls + mapCalls)
    [⟨[], .ownField none none [] (.str "title") [] fun _ => rfl, [.str "json"]⟩,
      ⟨[], .map none, []⟩] [.str "first"]).2.2.2 ?_ _ rfl).mpr (Or.inr (Or.inl rfl))
  simp [Surrounds, Holder.Surrounds, Holder.calls, Holder.siblings, Translates, Compiles,
    fieldCalls, mapCalls]
  rfl

/-- An operation under `map` becomes a step named `operation`; by itself it is carried out. -/
theorem nested_pipe_misread_reverse :
    (compile 100 (.list [.map none [(.str "operation", .str "reverse")]])).outcome =
        .ok (.list [.map none [(.str "op", .str "reverse")]]) ∧
      (compileStep (100 + mapCalls) (.map none
          [(.str "map", .list [.map none [(.str "operation", .str "reverse")]])])).outcome ≠
        .ok (stepWith "map" "pipe" (.list [.map none [(.str "op", .str "reverse")]])) := by
  refine ⟨rfl, fun h => ?_⟩
  have hmap : (compileStep (100 + mapCalls) (.map none
      [(.str "map", .list [.map none [(.str "operation", .str "reverse")]])])).outcome =
      .ok (stepWith "map" "pipe" (.list
        [.map none [(.str "op", .str "operation"), (.str "value", .str "reverse")]])) := rfl
  rw [hmap, Except.ok.injEq] at h
  simpa using Holder.fillCompiled_inj (.map none) h

end Notemark.Pipe
