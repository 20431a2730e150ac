import Notemark.Pipe.Compile
import Notemark.Proofs.Entries

/-!
# The steps of pipes

What becomes of a single step as long as nothing fails:

* `compiled`, `expanded`: what a step becomes in a compact pipe and in one of the older form,
* `translated`, `compiledPipe`: what all steps of a pipe become,
* `compiled_one`: all that a compact step with one entry can become,
* `Explicit`: steps that begin with their `op`; every step that is made is one,
* `isFinished`: the steps that a compact pipe leaves alone, which all compiled steps are,
* `operationName?`: the name of an operation of the older form; `expanded_cases` says what becomes
  of operations with and without a name.
-/

namespace Notemark.Pipe

variable {v w : Value} {op : Scalar} {parameters : Entries}

/-! ## What becomes of a step -/

/-- What an extract expression becomes. -/
def extracted (expression : Value) : Value :=
  match (codes? expression).bind Expression.ofCodes? with
  | some (.field name) => stepWith "get" "field" (.str (String.ofList name))
  | some (.tag name digits) =>
    step (.str "pluckTag")
      [(.str "tag", .scalar (.ofCodes name)),
        (.str "index", .int ((Text.decimalNumber? digits).getD 0 : Nat))]
  | none => stepWith "get" "field" (.str "content")

/-- What an operation of the older form becomes. -/
def operated (v : Value) (es : Entries) (operation : Value) : List Value :=
  let rest := es.erase "operation"
  let first := extracted ((rest.get? "expression").getD .null)
  match Operation.ofValue operation with
  | .extract =>
    match rest.get? "as" with
    | some name => if name.holds then [first, stepWith "save" "as" name] else [first]
    | none => [first]
  | .map => [stepWith "map" "pipe" (.list [first])]
  | .filter => [stepWith "where" "expression" ((rest.get? "expression").getD (.str ""))]
  | .direct name parameters => [step (.str name) (keptParameters rest parameters)]
  | .unknown name => [step name rest]
  | .nameless => [v]

/-- What a compact step that holds no other pipe becomes. -/
def compiledFlat (op : Scalar) (value : Value) : Value :=
  match Parameter.ofOp op, value with
  | .named name, value => step op [(.str name, value)]
  | .spread _, .map _ es | .replace, .map _ es => step op es
  | .spread name, value => step op [(.str name, value)]
  | .replace, value | .unknown, value => step op [(.str "value", value)]

mutual

/-- What a step becomes in a compact pipe. -/
def compiled : Value → Value
  | .scalar (.str s) => step (.str s) []
  | .scalar (.illFormed codes half) => step (.illFormed codes half) []
  | .map label [(op, value)] =>
    if op.sameKey (.str "op") then .map label [(op, value)]
    else if op.sameKey (.str "map") then stepWith "map" "pipe" (mapped value)
    else if op.sameKey (.str "construct") then constructed value
    else compiledFlat op value
  | v => v

/-- What stands under `map`: a list is taken for a compact pipe. -/
def mapped : Value → Value
  | .list steps => .list (compiledSteps steps)
  | v => v

def constructed : Value → Value
  | .map _ es =>
    stepWith "construct" "fields" (.map none ((constructedFields es).getD (compiledFields es)))
  | v => stepWith "construct" "value" v

def compiledSteps : List Value → List Value
  | [] => []
  | v :: vs => compiled v :: compiledSteps vs

def expandedSteps : List Value → List Value
  | [] => []
  | v :: vs =>
    (match operation? v with
      | some (es, operation) => operated v es operation
      | none => [compiled v]) ++ expandedSteps vs

def constructedFields : List (Scalar × Value) → Option Entries
  | [] => none
  | (k, v) :: es =>
    if k.sameKey (.str "fields") then
      match v with
      | .map _ fields => some (compiledFields fields)
      | _ => none
    else constructedFields es

def compiledFields : List (Scalar × Value) → Entries
  | [] => []
  | (k, v) :: es => (k, compiledPipe v) :: compiledFields es

/-- What a pipe becomes: its steps are read in the form that the first of them shows. -/
def compiledPipe : Value → Value
  | .list steps => .list (if isLegacy steps then expandedSteps steps else compiledSteps steps)
  | v => v

end

/-- What a step becomes in a pipe of the older form. -/
def expanded (v : Value) : List Value :=
  match operation? v with
  | some (es, operation) => operated v es operation
  | none => [compiled v]

/-- What the steps of a pipe become, if it is taken for one of the older form or for a compact
one. -/
def translated (legacy : Bool) (steps : List Value) : List Value :=
  if legacy then steps.flatMap expanded else steps.map compiled

theorem compiledSteps_eq (steps : List Value) : compiledSteps steps = steps.map compiled := by
  induction steps with
  | nil => rfl
  | cons v steps ih => rw [compiledSteps, ih, List.map_cons]

theorem expandedSteps_eq (steps : List Value) : expandedSteps steps = steps.flatMap expanded := by
  induction steps with
  | nil => rfl
  | cons v steps ih =>
    rw [expandedSteps, ih, List.flatMap_cons]
    rfl

theorem compiledPipe_list (steps : List Value) :
    compiledPipe (.list steps) = .list (translated (isLegacy steps) steps) := by
  rw [compiledPipe, expandedSteps_eq, compiledSteps_eq]
  rfl

/-- The pipes of a construct step are compiled like any others. -/
theorem compiledFields_eq (es : Entries) :
    compiledFields es = es.map fun e => (e.1, compiledPipe e.2) := by
  induction es with
  | nil => rfl
  | cons e es ih => rw [compiledFields, ih, List.map_cons]

/-- The fields of a construct step that stand under `fields`. -/
def ownFields? (es : Entries) : Option Entries := (es.get? "fields").bind Value.entries?

/-- The fields of a construct step stand under `fields`, or by themselves. -/
def fieldsOf (es : Entries) : Entries := (ownFields? es).getD es

/-! ## Steps with one entry -/

/-- All that a compact step with one entry can become. -/
theorem compiled_one (label : Option Nat) (key : Scalar) (value : Value) :
    compiled (.map label [(key, value)]) =
      if key = .str "op" then .map label [(key, value)]
      else if key = .str "map" then stepWith "map" "pipe" (mapped value)
      else if key = .str "construct" then constructed value
      else compiledFlat key value := by
  simp only [compiled.eq_def, Scalar.sameKey_str, decide_eq_true_eq]

/-! ## Explicit steps -/

/-- A mapping that begins with its `op`, as every step does that is made here. -/
def Explicit (v : Value) : Prop := ∃ label value later, v = .map label ((.str "op", value) :: later)

theorem explicit_step (op : Scalar) (parameters : Entries) : Explicit (step op parameters) := by
  rcases Entries.exists_update_cons (.str "op") (.scalar op) [] parameters with
    ⟨value, later, hupdate⟩
  exact ⟨none, value, later, congrArg (Value.map none) hupdate⟩

/-- A pipe that begins with an explicit step is compact. -/
theorem isLegacy_of_explicit (h : Explicit v) (steps : List Value) :
    isLegacy (v :: steps) = false := by
  rcases h with ⟨label, value, later, rfl⟩
  simp [isLegacy, Entries.has, Entries.get?_cons]

/-- The steps that a compact pipe keeps: explicit ones, and those that cannot be read. -/
def isFinished : Value → Bool
  | .scalar (.str _) | .scalar (.illFormed ..) => false
  | .map _ [(key, _)] => key.sameKey (.str "op")
  | _ => true

theorem isFinished_of_explicit (h : Explicit v) : isFinished v = true := by
  rcases h with ⟨label, value, later, rfl⟩
  cases later with
  | nil => simp [isFinished, Scalar.sameKey_str]
  | cons e later => rfl

theorem compiled_of_isFinished (h : isFinished v = true) : compiled v = v := by
  cases v with
  | scalar s =>
    cases s with
    | str s => simp [isFinished] at h
    | illFormed codes half => simp [isFinished] at h
    | _ => rfl
  | map label es =>
    rcases es with - | ⟨⟨key, value⟩, - | ⟨e, later⟩⟩
    · rfl
    · have hop : key = .str "op" := by simpa [isFinished, Scalar.sameKey_str] using h
      rw [compiled_one, if_pos hop]
    · rfl
  | _ => rfl

theorem explicit_compiledFlat (key : Scalar) (value : Value) :
    Explicit (compiledFlat key value) := by
  unfold compiledFlat
  split <;> exact explicit_step key _

/-- What is not finished is a name, or a name with something for it. -/
theorem unfinished_cases (h : isFinished v = false) :
    (∃ name : Scalar, v = .scalar name ∧ compiled v = step name []) ∨
      ∃ label key value, v = .map label [(key, value)] ∧ key ≠ .str "op" := by
  unfold isFinished at h
  split at h
  · next name => exact Or.inl ⟨.str name, rfl, rfl⟩
  · next codes half => exact Or.inl ⟨.illFormed codes half, rfl, rfl⟩
  · next label key value =>
    exact Or.inr ⟨label, key, value, rfl, by simpa [Scalar.sameKey_str] using h⟩
  · cases h

/-- A step that is not finished becomes explicit. -/
theorem explicit_compiled (h : isFinished v = false) : Explicit (compiled v) := by
  rcases unfinished_cases h with ⟨name, rfl, hname⟩ | ⟨label, key, value, rfl, hop⟩
  · rw [hname]
    exact explicit_step name []
  · rw [compiled_one, if_neg hop]
    split
    · exact explicit_step (.str "map") _
    · split
      · cases value <;> exact explicit_step (.str "construct") _
      · exact explicit_compiledFlat key value

theorem isFinished_compiled (v : Value) : isFinished (compiled v) = true := by
  cases h : isFinished v with
  | true => rwa [compiled_of_isFinished h]
  | false => exact isFinished_of_explicit (explicit_compiled h)

theorem compiled_eq_self_iff : compiled v = v ↔ isFinished v = true := by
  constructor
  · intro h
    rw [← h]
    exact isFinished_compiled v
  · exact compiled_of_isFinished

/-! ## Operations -/

/-- The name that a value is, if it is a string. -/
def name? : Value → Option Scalar
  | .scalar (.str s) => some (.str s)
  | .scalar (.illFormed codes half) => some (.illFormed codes half)
  | _ => none

/-- The name of an operation of the older form, which may lack one. -/
def operationName? (v : Value) : Option Scalar := (operation? v).bind fun o => name? o.2

/-- An explicit step that holds no operation. -/
structure Modern (v : Value) : Prop where
  explicit : Explicit v
  operation : operation? v = none

theorem modern_step (op : Scalar) (h : parameters.get? "operation" = none) :
    Modern (step op parameters) where
  explicit := explicit_step op parameters
  operation := by
    have hnone : Entries.get? (Entries.update [(.str "op", .scalar op)] parameters) "operation" =
        none := by
      rw [Entries.get?_update_of_none h]
      simp [Entries.get?_cons]
    simp [step, operation?, hnone]

theorem modern_stepWith (op : String) {name : String} (h : name ≠ "operation") (value : Value) :
    Modern (stepWith op name value) :=
  modern_step (.str op) (by simp [Entries.get?_cons, h])

theorem modern_extracted (expression : Value) : Modern (extracted expression) := by
  unfold extracted
  split
  · exact modern_stepWith "get" (by decide) _
  · exact modern_step (.str "pluckTag") (by simp [Entries.get?_cons])
  · exact modern_stepWith "get" (by decide) _

theorem get?_keptParameters (es : Entries) {names : List String} (h : "operation" ∉ names) :
    (keptParameters es names).get? "operation" = none := by
  refine Entries.get?_eq_none fun e he heq => ?_
  rcases List.mem_filterMap.mp he with ⟨name, hname, hkept⟩
  have hkey : e.1 = .str name := by
    split at hkept
    · cases hkept
    · cases hkept
    · exact congrArg Prod.fst (Option.some.inj hkept).symm
  rw [hkey, Scalar.str.injEq] at heq
  exact h (heq ▸ hname)

theorem mem_of_lookup {α : Type} {table : List (String × α)} {name : String} {a : α}
    (h : lookup table name = some a) : (name, a) ∈ table := by
  rcases Option.map_eq_some_iff.mp h with ⟨e, hfind, rfl⟩
  have hname : e.1 = name := by simpa using List.find?_some hfind
  exact hname ▸ List.mem_of_find?_eq_some hfind

/-- The parameters that an operation keeps are those of the table. -/
theorem mem_of_ofValue_eq_direct {operation : Value} {name : String} {parameters : List String}
    (h : Operation.ofValue operation = .direct name parameters) :
    (name, parameters) ∈ directNames := by
  unfold Operation.ofValue at h
  split at h
  case h_4 =>
    split at h
    · next hlookup =>
      obtain ⟨rfl, rfl⟩ := Operation.direct.inj h
      exact mem_of_lookup hlookup
    · cases h
  all_goals cases h

theorem ofValue_eq_nameless_iff {operation : Value} :
    Operation.ofValue operation = .nameless ↔ name? operation = none := by
  cases operation with
  | scalar s =>
    cases s with
    | str name =>
      refine iff_of_false ?_ (by simp [name?])
      unfold Operation.ofValue
      split <;> simp_all
      split <;> simp
    | illFormed codes half => simp [Operation.ofValue, name?]
    | _ => exact iff_of_true rfl rfl
  | _ => exact iff_of_true rfl rfl

theorem operated_of_nameless {operation : Value} (h : name? operation = none) (v : Value)
    (es : Entries) : operated v es operation = [v] := by
  rw [operated, ofValue_eq_nameless_iff.mpr h]

/-- An operation with a name becomes explicit steps, at least one, and none of them is an operation
again. -/
theorem modern_operated {operation : Value} (h : name? operation ≠ none) (v : Value)
    (es : Entries) :
    operated v es operation ≠ [] ∧ ∀ w ∈ operated v es operation, Modern w := by
  have hsingle : ∀ {u : Value}, Modern u → [u] ≠ [] ∧ ∀ w ∈ [u], Modern w := by
    intro u hu
    simpa using hu
  have hfirst := modern_extracted (((es.erase "operation").get? "expression").getD .null)
  unfold operated
  dsimp only
  cases hoperation : Operation.ofValue operation with
  -- What is extracted may be saved under a name, so that there are two steps.
  | extract =>
    dsimp only
    split
    · next saved _ =>
      split
      · have hsave : Modern (stepWith "save" "as" saved) := modern_stepWith "save" (by decide) saved
        simpa using ⟨hfirst, hsave⟩
      · exact hsingle hfirst
    · exact hsingle hfirst
  | map => exact hsingle (modern_stepWith "map" (by decide) _)
  | filter => exact hsingle (modern_stepWith "where" (by decide) _)
  | direct name parameters =>
    have hfree : ∀ e ∈ directNames, "operation" ∉ e.2 := by decide
    have hparameters := hfree _ (mem_of_ofValue_eq_direct hoperation)
    exact hsingle (modern_step _ (get?_keptParameters _ hparameters))
  | unknown name => exact hsingle (modern_step _ (Entries.get?_erase_self es "operation"))
  | nameless => exact absurd (ofValue_eq_nameless_iff.mp hoperation) h

/-- All that can become of a step in a pipe of the older form. -/
theorem expanded_cases (v : Value) :
    operation? v = none ∧ expanded v = [compiled v] ∨
      (∃ o, operation? v = some o) ∧ operationName? v = none ∧ expanded v = [v] ∨
      (operationName? v).isSome ∧ expanded v ≠ [] ∧ ∀ w ∈ expanded v, Modern w := by
  unfold expanded operationName?
  cases ho : operation? v with
  | none => exact Or.inl ⟨rfl, rfl⟩
  | some o =>
    rcases o with ⟨es, operation⟩
    cases hname : name? operation with
    | none => exact Or.inr (Or.inl ⟨⟨_, rfl⟩, hname, operated_of_nameless hname v es⟩)
    | some name => exact Or.inr (Or.inr ⟨by simp [hname], modern_operated (by simp [hname]) v es⟩)

end Notemark.Pipe
