import Mathlib.Data.List.Basic
import Notemark.Proofs.PipeRooms

/-!
# Finished pipes

Compiling is meant to be done once: a second pass should leave a compiled pipe as it is. For compact
pipes this holds. A pipe of the older form is different, because the second pass takes its form from
the first step that came out of the first pass, and reads the other steps in that form.

* `compact_pipe_finished`: one pass finishes every compact pipe,
* `isNameless`: an operation without a name, which the older form keeps,
* `HidesOperation`: a compact step that the older form takes for an operation once it is compiled,
* `legacy_pipe_finished_iff`: one pass finishes a pipe of the older form exactly if a compact pipe
  keeps its nameless operations, or if it hides no operation where its own first step is kept.
-/

namespace Notemark.Pipe

variable {room : Nat} {v w : Value} {steps : List Value}

/-! ## Compact pipes -/

theorem map_compiled_eq_self_iff : steps.map compiled = steps ↔ ∀ v ∈ steps, compiled v = v := by
  calc steps.map compiled = steps ↔ steps.map compiled = steps.map id := by rw [List.map_id]
    _ ↔ ∀ v ∈ steps, compiled v = v := List.map_inj_left

/-- Compiling a step makes no operation of the older form out of one that was none. -/
theorem isLegacy_map_compiled (h : isLegacy steps = false) :
    isLegacy (steps.map compiled) = false := by
  cases steps with
  | nil => rfl
  | cons v steps =>
    cases hv : isFinished v with
    | true =>
      rw [List.map_cons, compiled_of_isFinished hv]
      cases v <;> exact h
    | false => exact isLegacy_of_explicit (explicit_compiled hv) _

/-- A compact pipe is left as it is exactly if each of its steps is kept. -/
theorem compile_self_iff (h : isLegacy steps = false) :
    (compile room (.list steps)).outcome = .ok (.list steps) ↔ ∀ v ∈ steps, IsKept room v := by
  rw [compile_ok_iff, h, Value.list.injEq]
  change steps = steps.map compiled ∧ (∀ v ∈ steps, Compiles room v) ↔ _
  rw [eq_comm, map_compiled_eq_self_iff]
  constructor
  · rintro ⟨hself, hcompiles⟩ v hv
    exact compileStep_self_iff.mp ((hcompiles v hv).trans (congrArg Except.ok (hself v hv)))
  · intro hkept
    have hself : ∀ v ∈ steps, compiled v = v := fun v hv => compiled_of_isFinished (hkept v hv).1
    refine ⟨hself, fun v hv => ?_⟩
    rw [Compiles, hself v hv]
    exact compileStep_self_iff.mpr (hkept v hv)

/-- An operation without a name. The older form keeps it. -/
def isNameless (v : Value) : Bool := (operation? v).any fun o => (name? o.2).isNone

theorem isNameless_iff {o : Entries × Value} (h : operation? v = some o) :
    isNameless v = true ↔ name? o.2 = none := by
  simp [isNameless, h]

/-- The explicit step of a compact step whose parameters are given as a mapping. -/
def spread? : Value → Option Value
  | .map _ [(op, .map _ es)] =>
    match Parameter.ofOp op with
    | .spread _ | .replace => some (step op es)
    | _ => none
  | _ => none

/-- A compact step with an operation among its parameters, which the older form carries out or
cannot show. -/
def HidesOperation (room : Nat) (v : Value) : Prop :=
  ∃ w o, spread? v = some w ∧ operation? w = some o ∧ (name? o.2 = none → ¬ Shows room o.2)

/-- An operation stands alone, or the compact form takes it for finished. -/
theorem lone_or_isFinished {es : Entries} {operation : Value}
    (h : operation? v = some (es, operation)) :
    (∃ label, v = .map label [(.str "operation", operation)]) ∨
      isFinished v = true ∧ es.length ≠ 1 := by
  cases v with
  | map label entries =>
    rcases Option.map_eq_some_iff.mp h with ⟨value, hget, hpair⟩
    obtain ⟨rfl, rfl⟩ := Prod.mk.inj hpair
    match entries with
    | [] => simp at hget
    | [(key, value')] =>
      rw [Entries.get?_cons] at hget
      split at hget
      · next hkey =>
        obtain rfl : key = .str "operation" := hkey
        obtain rfl : value' = value := Option.some.inj hget
        exact Or.inl ⟨label, rfl⟩
      · simp at hget
    | e :: e' :: later => exact Or.inr ⟨rfl, by simp⟩
  | _ => simp [operation?] at h

theorem spread?_of_operation {o : Entries × Value} (h : operation? v = some o) :
    spread? v = none := by
  unfold spread?
  split
  · next label op inner es =>
    have hop : op = .str "operation" := by
      by_contra hne
      simp [operation?, Entries.get?_cons, hne] at h
    rw [hop]
    rfl
  · rfl

/-- A compact step with a mapping of parameters becomes what it says. -/
theorem compiled_of_spread? (h : spread? v = some w) : compiled v = w := by
  unfold spread? at h
  split at h
  · next label op inner es =>
    have hflat : compiledFlat op (.map inner es) = w := by
      unfold compiledFlat
      split at h
      · next hop => rw [hop]; exact Option.some.inj h
      · next hop => rw [hop]; exact Option.some.inj h
      · cases h
    -- None of the three names that are read before the tables is in one of them.
    have hkey : ∀ {name : String}, Parameter.ofOp (.str name) = .unknown → op ≠ .str name := by
      rintro name hunknown rfl
      simp [hunknown] at h
    rw [compiled_one, if_neg (hkey rfl), if_neg (hkey rfl), if_neg (hkey rfl), hflat]
  · cases h

/-- A parameter gets its name from a table, and no table has `operation`. -/
theorem parameter_ne_operation {op : Scalar} {name : String}
    (h : Parameter.ofOp op = .named name ∨ Parameter.ofOp op = .spread name) :
    name ≠ "operation" := by
  have htables : ∀ e ∈ parameterNames ++ spreadNames, e.2 ≠ "operation" := by decide
  unfold Parameter.ofOp at h
  split at h
  · split at h
    · next parameter hlookup =>
      obtain rfl : parameter = name := by simpa using h
      exact htables _ (List.mem_append_left _ (mem_of_lookup hlookup))
    · split at h
      · next parameter hlookup =>
        obtain rfl : parameter = name := by simpa using h
        exact htables _ (List.mem_append_right _ (mem_of_lookup hlookup))
      · split at h <;> simp at h
  · simp at h

theorem modern_compiledFlat {label : Option Nat} {key : Scalar} {value : Value}
    (h : spread? (.map label [(key, value)]) = none) : Modern (compiledFlat key value) := by
  have hone : ∀ {name : String}, name ≠ "operation" →
      Entries.get? [(.str name, value)] "operation" = none := by
    intro name hname
    simp [Entries.get?_cons, hname]
  unfold compiledFlat
  split
  · next hop => exact modern_step key (hone (parameter_ne_operation (Or.inl hop)))
  · next hop => simp [spread?, hop] at h
  · next hop => simp [spread?, hop] at h
  · next hop _ => exact modern_step key (hone (parameter_ne_operation (Or.inr hop)))
  · exact modern_step key (hone (by decide))
  · exact modern_step key (hone (by decide))

/-- Only a mapping of parameters can turn a compact step into an operation. -/
theorem operation?_compiled (h : operation? v = none) :
    operation? (compiled v) = (spread? v).bind operation? := by
  cases hspread : spread? v with
  | some w => rw [compiled_of_spread? hspread, Option.bind_some]
  | none =>
    rw [Option.bind_none]
    cases hv : isFinished v with
    | true => rwa [compiled_of_isFinished hv]
    | false =>
      rcases unfinished_cases hv with ⟨name, rfl, hname⟩ | ⟨label, key, value, rfl, hop⟩
      · rw [hname]
        exact (modern_step name rfl).operation
      · rw [compiled_one, if_neg hop]
        split
        · exact (modern_stepWith "map" (by decide) _).operation
        · split
          · cases value <;> exact (modern_stepWith "construct" (by decide) _).operation
          · exact (modern_compiledFlat hspread).operation

/-! ## Pipes of the older form -/

theorem expands_iff_of_none (h : operation? v = none) : Expands room v ↔ Compiles room v := by
  rw [Expands, Compiles, expandStep, expanded, h]
  dsimp only
  rw [Run.outcome_bind, bind_eq_ok_iff]
  simp only [Run.outcome_pure, Except.ok.injEq, List.cons.injEq, and_true]
  constructor
  · rintro ⟨w, hw, rfl⟩
    exact hw
  · exact fun hw => ⟨_, hw, rfl⟩

theorem expands_iff_of_nameless {o : Entries × Value} (ho : operation? v = some o)
    (hname : name? o.2 = none) : Expands room v ↔ Shows room o.2 := by
  have hself : expanded v = [v] := by
    rw [expanded, ho]
    exact operated_of_nameless hname v o.1
  rw [Expands, expandStep_nameless_iff ho hname, hself]
  exact and_iff_left rfl

/-- A modern step is kept by both forms. -/
theorem Modern.isKept (h : Modern v) : IsKept room v := isKept_of_explicit h.explicit

theorem compiles_of_isKept (h : IsKept room v) : Compiles room v := by
  rw [Compiles, compiled_of_isFinished h.1]
  exact compileStep_self_iff.mpr h

theorem Modern.expands (h : Modern v) : Expands room v :=
  (expands_iff_of_none h.operation).mpr (compiles_of_isKept h.isKept)

/-- What a step of the older form becomes is kept by the compact form, except for nameless
operations. -/
theorem isKept_expanded_iff (h : Expands room v) :
    (∀ w ∈ expanded v, IsKept room w) ↔ (isNameless v = true → IsKept room v) := by
  rcases expanded_cases v with ⟨hnone, hv⟩ | ⟨⟨o, ho⟩, hname, hv⟩ | ⟨hname, -, hmodern⟩
  · have hkept : ∀ w ∈ expanded v, IsKept room w := by
      rw [hv, List.forall_mem_singleton]
      exact isKept_compiled ((expands_iff_of_none hnone).mp h)
    exact iff_of_true hkept fun hnameless => by simp [isNameless, hnone] at hnameless
  · have hnameless : isNameless v = true :=
      (isNameless_iff ho).mpr (by simpa [operationName?, ho] using hname)
    rw [hv, List.forall_mem_singleton]
    exact ⟨fun hkept _ => hkept, fun hkept => hkept hnameless⟩
  · refine iff_of_true (fun w hw => (hmodern w hw).isKept) fun hnameless => ?_
    rcases Option.isSome_iff_exists.mp hname with ⟨name, hsome⟩
    rcases Option.bind_eq_some_iff.mp hsome with ⟨o, ho, hstring⟩
    simp [isNameless, ho, hstring] at hnameless

/-- What a step of the older form becomes is kept by the older form, except for operations that come
out of parameters. -/
theorem expands_expanded_iff (h : Expands room v) :
    (∀ w ∈ expanded v, operationName? w = none ∧ Expands room w) ↔ ¬ HidesOperation room v := by
  have hvisible : ∀ {o}, operation? v = some o → ¬ HidesOperation room v := by
    rintro o ho ⟨w, -, hspread, -⟩
    simp [spread?_of_operation ho] at hspread
  rcases expanded_cases v with ⟨hnone, hv⟩ | ⟨⟨o, ho⟩, hname, hv⟩ | ⟨hname, -, hmodern⟩
  · rw [hv, List.forall_mem_singleton]
    have hcompiled := operation?_compiled hnone
    cases ho : operation? (compiled v) with
    | none =>
      have hkept : IsKept room (compiled v) :=
        isKept_compiled ((expands_iff_of_none hnone).mp h)
      refine iff_of_true ⟨by simp [operationName?, ho],
        (expands_iff_of_none ho).mpr (compiles_of_isKept hkept)⟩ ?_
      rintro ⟨w, o, hspread, hw, -⟩
      simp [ho, hspread, hw] at hcompiled
    | some o =>
      obtain ⟨w, hspread, hw⟩ := Option.bind_eq_some_iff.mp (hcompiled.symm.trans ho)
      have hhides : HidesOperation room v ↔ (name? o.2 = none → ¬ Shows room o.2) := by
        constructor
        · rintro ⟨w', o', hspread', hw', hshown⟩
          obtain rfl : w = w' := Option.some.inj (hspread.symm.trans hspread')
          obtain rfl : o = o' := Option.some.inj (hw.symm.trans hw')
          exact hshown
        · exact fun hshown => ⟨w, o, hspread, hw, hshown⟩
      rw [hhides, operationName?, ho, Option.bind_some]
      constructor
      · rintro ⟨hname, hexpands⟩ hshown
        exact hshown hname ((expands_iff_of_nameless ho hname).mp hexpands)
      · intro hshown
        obtain ⟨hname, hshows⟩ := Classical.not_imp.mp hshown
        exact ⟨hname, (expands_iff_of_nameless ho hname).mpr (not_not.mp hshows)⟩
  · refine iff_of_true ?_ (hvisible ho)
    rw [hv, List.forall_mem_singleton]
    exact ⟨hname, h⟩
  · rcases Option.isSome_iff_exists.mp hname with ⟨name, hsome⟩
    rcases Option.bind_eq_some_iff.mp hsome with ⟨o, ho, -⟩
    refine iff_of_true (fun w hw => ⟨?_, (hmodern w hw).expands⟩) (hvisible ho)
    simp [operationName?, (hmodern w hw).operation]

/-- The older form keeps what has come out of it, unless that is an operation with a name. -/
theorem expanded_of_mem_expanded (hw : w ∈ expanded v) (hname : operationName? w = none) :
    expanded w = [w] := by
  have hkept : isFinished w = true → expanded w = [w] := by
    intro hfinished
    rcases expanded_cases w with ⟨-, hexpanded⟩ | ⟨-, -, hexpanded⟩ | ⟨hsome, -⟩
    · rw [hexpanded, compiled_of_isFinished hfinished]
    · exact hexpanded
    · simp [hname] at hsome
  rcases expanded_cases v with ⟨-, hv⟩ | ⟨-, -, hv⟩ | ⟨-, -, hmodern⟩
  · obtain rfl : w = compiled v := by simpa [hv] using hw
    exact hkept (isFinished_compiled v)
  · obtain rfl : w = v := by simpa [hv] using hw
    exact hv
  · exact hkept (isFinished_of_explicit (hmodern w hw).explicit)

/-- A second pass in the older form takes all names of operations away, so that it changes nothing
exactly if there are none. -/
theorem flatMap_expanded_twice_iff (steps : List Value) :
    (steps.flatMap expanded).flatMap expanded = steps.flatMap expanded ↔
      ∀ w ∈ steps.flatMap expanded, operationName? w = none := by
  have hkept : ∀ u ∈ steps.flatMap expanded, operationName? u = none → expanded u = [u] := by
    intro u hu
    rcases List.mem_flatMap.mp hu with ⟨v, -, hv⟩
    exact expanded_of_mem_expanded hv
  constructor
  -- What comes out comes out of a second pass as well, which leaves no names.
  · intro htwice w hw
    rw [← htwice] at hw
    rcases List.mem_flatMap.mp hw with ⟨u, hu, hwu⟩
    cases hname : operationName? u with
    | none =>
      obtain rfl : w = u := by simpa [hkept u hu hname] using hwu
      exact hname
    | some name =>
      rcases expanded_cases u with ⟨hnone, -⟩ | ⟨-, hnone, -⟩ | ⟨-, -, hmodern⟩
      · simp [operationName?, hnone] at hname
      · simp [hnone] at hname
      · simp [operationName?, (hmodern w hwu).operation]
  · intro hnone
    calc (steps.flatMap expanded).flatMap expanded
        = (steps.flatMap expanded).flatMap fun w => [w] :=
          List.flatMap_congr fun w hw => hkept w hw (hnone w hw)
      _ = steps.flatMap expanded := List.flatMap_singleton' _

/-- A pipe of the older form is left as it is exactly if it holds no operation with a name and each
of its steps is expanded. -/
theorem compile_flatMap_self_iff (h : isLegacy (steps.flatMap expanded) = true) :
    (compile room (.list (steps.flatMap expanded))).outcome =
        .ok (.list (steps.flatMap expanded)) ↔
      ∀ w ∈ steps.flatMap expanded, operationName? w = none ∧ Expands room w := by
  rw [compile_ok_iff, h, Value.list.injEq, eq_comm]
  change (steps.flatMap expanded).flatMap expanded = _ ∧
    (∀ w ∈ steps.flatMap expanded, Expands room w) ↔ _
  rw [flatMap_expanded_twice_iff, ← forall₂_and]

/-- The form of a pipe depends on its first step only. -/
theorem isLegacy_cons (v : Value) (steps later : List Value) :
    isLegacy (v :: steps) = isLegacy (v :: later) := by
  cases v <;> rfl

theorem exists_operation_of_isLegacy (h : isLegacy (v :: steps) = true) :
    ∃ o, operation? v = some o := by
  cases v with
  | map label es =>
    simp only [isLegacy, Bool.and_eq_true, Entries.has] at h
    rcases Option.isSome_iff_exists.mp h.1 with ⟨operation, hget⟩
    exact ⟨(es, operation), by simp [operation?, hget]⟩
  | _ => simp [isLegacy] at h

/-- One pass finishes a pipe of the older form under a condition on its steps. If the first step is
an operation with a name, the result is compact, and its nameless operations are read anew. If it
has no name it is kept, the result has the older form again, and an operation that comes out of the
parameters of a compact step is carried out, or shown if it has no name. There is a result of the
first pass unless numbers are too long or the pipe is nested too deeply for the room. -/
theorem legacy_pipe_finished_iff (h : isLegacy steps = true) :
    (∀ done, (compile room (.list steps)).outcome = .ok done →
      ((compile room done).outcome = .ok done ↔
        if (steps.head?.bind operationName?).isSome then
          ∀ v ∈ steps, isNameless v = true → IsKept room v
        else ∀ v ∈ steps, ¬ HidesOperation room v)) ∧
      ((∀ v ∈ steps, v.all isShort = true ∧ fieldCalls * v.depth ≤ room) →
        ∃ done, (compile room (.list steps)).outcome = .ok done) := by
  refine ⟨fun done hdone => ?_, fun hfits => exists_compile_of_fits hfits⟩
  obtain ⟨rfl, hexpands⟩ := compile_ok_iff.mp hdone
  rw [h] at hexpands ⊢
  change (compile room (.list (steps.flatMap expanded))).outcome =
    .ok (.list (steps.flatMap expanded)) ↔ _
  cases steps with
  | nil => simp [isLegacy] at h
  | cons first later =>
    rw [List.head?_cons, Option.bind_some]
    rcases exists_operation_of_isLegacy h with ⟨o, ho⟩
    rcases expanded_cases first with ⟨hnone, -⟩ | ⟨-, hname, hfirst⟩ | ⟨hname, hne, hmodern⟩
    · simp [ho] at hnone
    -- The first step is kept, so that the second pass goes on in the older form.
    · have hlegacy : isLegacy ((first :: later).flatMap expanded) = true := by
        rw [List.flatMap_cons, hfirst, List.singleton_append, ← h]
        exact isLegacy_cons first _ later
      rw [compile_flatMap_self_iff hlegacy, hname, if_neg (by simp), List.forall_mem_flatMap]
      exact forall₂_congr fun v hv => expands_expanded_iff (hexpands v hv)
    -- The first step becomes explicit, so that the second pass goes on in the compact form.
    · have hlegacy : isLegacy ((first :: later).flatMap expanded) = false := by
        rcases List.exists_cons_of_ne_nil hne with ⟨w, ws, hws⟩
        rw [List.flatMap_cons, hws, List.cons_append]
        exact isLegacy_of_explicit (hmodern w (by simp [hws])).explicit _
      rw [compile_self_iff hlegacy, if_pos hname, List.forall_mem_flatMap]
      exact forall₂_congr fun v hv => isKept_expanded_iff (hexpands v hv)

/-- Operations with and without a name, among them one whose value is saved. -/
theorem legacy_pipe_finished_mixed :
    isLegacy [.map none [(.str "operation", .str "extract"), (.str "as", .str "body")],
        .map none [(.str "operation", .int 5), (.str "by", .str "x")], .str "first"] = true ∧
      ∃ done, (compile 100 (.list
          [.map none [(.str "operation", .str "extract"), (.str "as", .str "body")],
            .map none [(.str "operation", .int 5), (.str "by", .str "x")],
            .str "first"])).outcome = .ok done ∧
        (compile 100 done).outcome = .ok done := by
  refine ⟨rfl, ?_⟩
  rcases @legacy_pipe_finished_iff 100
    [.map none [(.str "operation", .str "extract"), (.str "as", .str "body")],
      .map none [(.str "operation", .int 5), (.str "by", .str "x")], .str "first"] rfl with
    ⟨hresult, hexists⟩
  rcases hexists (by decide) with ⟨done, hdone⟩
  refine ⟨done, hdone, (hresult done hdone).mpr ?_⟩
  rw [if_pos (by decide)]
  decide

/-- A nameless operation behind one with a name: the first pass keeps it and the second does not. -/
theorem legacy_pipe_unfinished_nameless :
    isLegacy [.map none [(.str "operation", .str "reverse")],
        .map none [(.str "operation", .int 5)]] = true ∧
      (compile 100 (.list [.map none [(.str "operation", .str "reverse")],
        .map none [(.str "operation", .int 5)]])).outcome =
          .ok (.list
            [.map none [(.str "op", .str "reverse")], .map none [(.str "operation", .int 5)]]) ∧
      (compile 100 (.list
        [.map none [(.str "op", .str "reverse")],
          .map none [(.str "operation", .int 5)]])).outcome ≠
          .ok (.list
            [.map none [(.str "op", .str "reverse")], .map none [(.str "operation", .int 5)]]) := by
  refine ⟨rfl, rfl, fun h => ?_⟩
  have hsecond : (compile 100 (.list
      [.map none [(.str "op", .str "reverse")], .map none [(.str "operation", .int 5)]])).outcome =
        .ok (.list [.map none [(.str "op", .str "reverse")],
          .map none [(.str "op", .str "operation"), (.str "value", .int 5)]]) := rfl
  rw [hsecond] at h
  simp at h

end Notemark.Pipe
