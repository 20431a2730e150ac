import Mathlib.Data.List.Nodup
import Notemark.Proofs.StyleTree

/-!
# The style pass as a recursion

The pass keeps a list of places still to visit and changes the tree at each of them. Here it is
compared with the recursion that gives the styled tree:

* `outcome_restyleFrom_succ`: what one visit does,
* `visited`: what the visits of an element and of all that is below it do,
* `length_below_le`: there are enough visits for every element,
* `outcome_restyle`: the pass gives the styled tree, unless some element has a fault; then the first
  fault in the order of the visits counts.
-/

namespace Notemark.Style

/-! ## One visit -/

/-- Where the elements in a list are. -/
def childIndexes (items : List Value) : List Nat :=
  (items.zipIdx.filter fun c => c.1.entries?.isSome).map (·.2)

/-- The ways from an element to those of its children that are elements. -/
def childSteps (field : String) (items : List Value) : List Step :=
  (childIndexes items).map fun i => ⟨field, i⟩

theorem childPlaces_eq (path : List Step) (field : String) (items : List Value) :
    childPlaces path field items = (childSteps field items).map fun s => path ++ [s] := by
  rw [childPlaces, childSteps, childIndexes, List.map_map, List.map_map]
  rfl

theorem entries?_convertedValue (v : Value) :
    (convertedValue v).entries?.isSome = v.entries?.isSome := by
  cases v <;> rfl

theorem childSteps_map_convertedValue (field : String) (items : List Value) :
    childSteps field (items.map convertedValue) = childSteps field items := by
  have hkept : (fun c : Value × Nat => c.1.entries?.isSome) ∘ Prod.map convertedValue id =
      fun c => c.1.entries?.isSome := funext fun c => entries?_convertedValue c.1
  rw [childSteps, childIndexes, List.zipIdx_map, List.filter_map, hkept, List.map_map, List.map_map,
    childSteps, childIndexes, List.map_map]
  rfl

/-- The converted children of a field are put in place of the others. -/
theorem outcome_convertField [CallStack] {root n : Value} {path : List Step}
    (hn : at? path root = some n) (field : String) :
    (convertField root path field).outcome =
      barring (firstFault? (childEntries n field))
        (modifyAt (mapItems field convertedValue) path root,
          (childSteps field (childItems n field)).map fun s => path ++ [s]) := by
  rw [convertField, hn, Option.bind_some]
  rcases list_or_none n field with ⟨label, es, items, rfl, hget⟩ | hnone
  · have hfield : (Value.map label es).get? field = some (.list items) := hget
    simp only [hfield]
    rw [Run.outcome_bind, outcome_convertItems, childEntries, childItems_map hget]
    apply barring_bind_ok
    rw [Run.outcome_pure, childPlaces_eq, childSteps_map_convertedValue]
    congr 2
    apply modifyAt_congr hn
    rw [mapItems, replaceItems_map hget, childItems_map hget]
  · have hstay : modifyAt (mapItems field convertedValue) path root = root := by
      calc modifyAt (mapItems field convertedValue) path root
          = modifyAt (fun _ => n) path root :=
            modifyAt_congr hn (replaceItems_of_none hnone _)
        _ = root := modifyAt_self hn
    rw [childEntries, childItems_of_none hnone, hstay]
    split
    · next items hitems =>
      rw [hitems] at hnone
      simp [Value.items?] at hnone
    · rfl

/-- The children of an element, converted. -/
def opened (v : Value) : Value :=
  mapItems "content" convertedValue (mapItems "elements" convertedValue v)

/-- The ways down from an element, the last one first. -/
def openSteps (v : Value) : List Step :=
  (childSteps "content" (childItems v "content")).reverse ++
    (childSteps "elements" (childItems v "elements")).reverse

/-- One visit converts the children of an element and goes on with the places they are at. -/
theorem outcome_restyleFrom_succ [CallStack] {root n : Value} {path : List Step}
    (hn : at? path root = some n) (budget : Nat) (pending : List (List Step)) :
    (restyleFrom (budget + 1) root (path :: pending)).outcome =
      barring (firstFault? (childEntries n "elements" ++ childEntries n "content")) () >>= fun _ =>
        (restyleFrom budget (modifyAt opened path root)
          (((openSteps n).map fun s => path ++ [s]) ++ pending)).outcome := by
  have hmid : at? path (modifyAt (mapItems "elements" convertedValue) path root) =
      some (mapItems "elements" convertedValue n) := at?_modifyAt hn
  have hcontent : childItems (mapItems "elements" convertedValue n) "content" =
      childItems n "content" := childItems_mapItems_ne (by decide) _ n
  rw [restyleFrom, Run.outcome_bind, outcome_convertField hn, firstFault?_append]
  cases firstFault? (childEntries n "elements") with
  | some f => rfl
  | none =>
    change (Run.outcome (convertField _ path "content" >>= _)) = _
    rw [Run.outcome_bind, outcome_convertField hmid, childEntries, hcontent]
    change (barring (firstFault? (childEntries n "content")) _ >>= _) = _
    cases firstFault? (childEntries n "content") with
    | some f => rfl
    | none =>
      change (restyleFrom budget (modifyAt _ path (modifyAt _ path root)) _).outcome =
        (restyleFrom budget _ _).outcome
      rw [modifyAt_modifyAt _ _ hn, openSteps, List.map_append, List.map_reverse, List.map_reverse]
      rfl

/-! ## Every visit -/

/-- The elements inside a child. -/
def belowAt (v : Value) (s : Step) : List Entries := ((at? [s] v).map below).getD []

/-- The elements that some ways lead to, settled. -/
def settleAt (steps : List Step) (v : Value) : Value :=
  steps.foldl (fun v s => modifyAt settled [s] v) v

/-- The visit of an element and of all that is below it: nothing else of the tree is changed, and
the other places are visited after it. -/
def Visited [CallStack] (n : Value) : Prop :=
  ∀ {root : Value} {path : List Step} (pending : List (List Step)) (budget : Nat),
    at? path root = some n →
    (restyleFrom ((below n).length + 1 + budget) root (path :: pending)).outcome =
      barring (firstFault? (below n)) () >>= fun _ =>
        (restyleFrom budget (modifyAt settled path root) pending).outcome

/-- Places in one element are visited one after the other. -/
theorem outcome_restyleFrom_steps [CallStack] {steps : List Step} (hnodup : steps.Nodup)
    {m : Value}
    (hvisited : ∀ s ∈ steps, ∃ c, at? [s] m = some c ∧ Visited c) {root : Value} {path : List Step}
    (hm : at? path root = some m) (pending : List (List Step)) (budget : Nat) :
    (restyleFrom ((steps.flatMap (belowAt m)).length + steps.length + budget) root
        ((steps.map fun s => path ++ [s]) ++ pending)).outcome =
      barring (firstFault? (steps.flatMap (belowAt m))) () >>= fun _ =>
        (restyleFrom budget (modifyAt (settleAt steps) path root) pending).outcome := by
  induction steps generalizing m root with
  | nil =>
    have hstay : modifyAt (settleAt []) path root = root := by
      calc modifyAt (settleAt []) path root
          = modifyAt (fun _ => m) path root := modifyAt_congr hm rfl
        _ = root := modifyAt_self hm
    rw [hstay]
    simp [firstFault?, bind, Except.bind]
  | cons s steps ih =>
    rcases hvisited s List.mem_cons_self with ⟨c, hc, hvisit⟩
    have hbelow : belowAt m s = below c := by rw [belowAt, hc]; rfl
    have hplace : at? (path ++ [s]) root = some c := by rw [at?_append, hm, Option.bind_some, hc]
    -- After the visit the other children are as before.
    have hm' : at? path (modifyAt settled (path ++ [s]) root) = some (modifyAt settled [s] m) := by
      rw [modifyAt_append]
      exact at?_modifyAt hm
    have hother : ∀ t ∈ steps, at? [t] (modifyAt settled [s] m) = at? [t] m := by
      intro t ht
      apply at?_modifyAt_ne hc
      rintro rfl
      exact (List.nodup_cons.mp hnodup).1 ht
    have hvisited' : ∀ t ∈ steps, ∃ c, at? [t] (modifyAt settled [s] m) = some c ∧ Visited c := by
      intro t ht
      rw [hother t ht]
      exact hvisited t (List.mem_cons_of_mem s ht)
    have hbelow' : steps.flatMap (belowAt (modifyAt settled [s] m)) =
        steps.flatMap (belowAt m) := by
      apply List.flatMap_congr
      intro t ht
      rw [belowAt, hother t ht, belowAt]
    have hbudget : ((s :: steps).flatMap (belowAt m)).length + (s :: steps).length + budget =
        (below c).length + 1 +
          ((steps.flatMap (belowAt m)).length + steps.length + budget) := by
      rw [List.flatMap_cons, List.length_append, List.length_cons, hbelow]
      omega
    have hih := ih (List.nodup_cons.mp hnodup).2 hvisited' hm'
    rw [hbelow'] at hih
    rw [hbudget, List.map_cons, List.cons_append, hvisit _ _ hplace, hih, List.flatMap_cons, hbelow,
      firstFault?_append]
    have hsettle : modifyAt (settleAt steps) path (modifyAt settled (path ++ [s]) root) =
        modifyAt (settleAt (s :: steps)) path root := by
      rw [modifyAt_append, modifyAt_modifyAt _ _ hm]
      rfl
    rw [hsettle]
    cases firstFault? (below c) with
    | some f => rfl
    | none => rfl

/-! ### The children of one field -/

section Fields

variable {v : Value} {field : String} {s : Step}

theorem mem_childIndexes {items : List Value} {i : Nat} :
    i ∈ childIndexes items ↔ ∃ c, items[i]? = some c ∧ c.entries?.isSome := by
  simp only [childIndexes, List.mem_map, List.mem_filter, List.mem_zipIdx_iff_getElem?]
  constructor
  · rintro ⟨⟨c, i⟩, ⟨hc, hmap⟩, rfl⟩
    exact ⟨c, hc, hmap⟩
  · rintro ⟨c, hc, hmap⟩
    exact ⟨(c, i), ⟨hc, hmap⟩, rfl⟩

theorem nodup_childIndexes (items : List Value) : (childIndexes items).Nodup := by
  have hsub : (childIndexes items).Sublist (items.zipIdx.map (·.2)) := List.filter_sublist.map _
  apply List.Nodup.sublist hsub
  rw [List.zipIdx_map_snd]
  exact List.nodup_range'

theorem nodup_childSteps (field : String) (items : List Value) :
    (childSteps field items).Nodup := by
  apply (nodup_childIndexes items).map
  intro i j h
  exact congrArg Step.index h

theorem field_of_mem_childSteps {items : List Value} (h : s ∈ childSteps field items) :
    s.field = field := by
  rcases List.mem_map.mp h with ⟨i, -, rfl⟩
  rfl

theorem nodup_openSteps (v : Value) : (openSteps v).Nodup := by
  rw [openSteps, List.nodup_append]
  refine ⟨List.nodup_reverse.mpr (nodup_childSteps _ _),
    List.nodup_reverse.mpr (nodup_childSteps _ _), ?_⟩
  intro s hs t ht heq
  subst heq
  have hcontent := field_of_mem_childSteps (List.mem_reverse.mp hs)
  have helements := field_of_mem_childSteps (List.mem_reverse.mp ht)
  rw [hcontent] at helements
  exact absurd helements (by decide)

theorem at?_singleton (v : Value) (s : Step) : at? [s] v = (childItems v s.field)[s.index]? := by
  rw [at?, childItems]
  cases (v.get? s.field).bind Value.items? with
  | none => rfl
  | some items =>
    change items[s.index]?.bind some = items[s.index]?
    exact Option.bind_fun_some _

/-- The ways into a field lead to all that is below its items. -/
theorem flatMap_belowAt (v : Value) (field : String) :
    (childSteps field (childItems v field)).reverse.flatMap (belowAt v) =
      (childItems v field).reverse.flatMap below := by
  have hat : ∀ c ∈ (childItems v field).zipIdx, belowAt v ⟨field, c.2⟩ = below c.1 := by
    rintro ⟨c, i⟩ hc
    rw [belowAt, at?_singleton, List.mem_zipIdx_iff_getElem?.mp hc]
    rfl
  have hdrop : ∀ cs : List (Value × Nat),
      (cs.filter fun c => c.1.entries?.isSome).flatMap (fun c => below c.1) =
        cs.flatMap fun c => below c.1 := by
    intro cs
    induction cs with
    | nil => rfl
    | cons c cs ih =>
      rw [List.filter_cons, List.flatMap_cons, ← ih]
      cases hc : c.1.entries?.isSome with
      | true => exact List.flatMap_cons
      | false =>
        rw [below_of_no_entries hc]
        rfl
  calc (childSteps field (childItems v field)).reverse.flatMap (belowAt v)
      = ((childItems v field).zipIdx.reverse.filter fun c => c.1.entries?.isSome).flatMap
          fun c => belowAt v ⟨field, c.2⟩ := by
        rw [childSteps, childIndexes, List.map_map, ← List.map_reverse, List.flatMap_map,
          List.filter_reverse]
        rfl
    _ = ((childItems v field).zipIdx.reverse.filter fun c => c.1.entries?.isSome).flatMap
          fun c => below c.1 := by
        apply List.flatMap_congr
        intro c hc
        exact hat c (List.mem_reverse.mp (List.mem_of_mem_filter hc))
    _ = (childItems v field).zipIdx.reverse.flatMap fun c => below c.1 := hdrop _
    _ = (childItems v field).reverse.flatMap below := by
        conv_rhs => rw [← List.zipIdx_map_fst 0 (childItems v field), ← List.map_reverse,
          List.flatMap_map]

theorem replaceItems_childItems (field : String) (v : Value) :
    replaceItems field (childItems v field) v = v := by
  rcases list_or_none v field with ⟨label, es, items, rfl, hget⟩ | hnone
  · rw [replaceItems_map hget, childItems_map hget, Entries.put_get? hget]
  · exact replaceItems_of_none hnone _

/-- Items that are changed one after the other. -/
def modifyAll (f : Value → Value) (indexes : List Nat) (items : List Value) : List Value :=
  indexes.foldl (fun items i => items.modify i f) items

theorem getElem?_modifyAll {f : Value → Value} {indexes : List Nat} (h : indexes.Nodup)
    (items : List Value) (j : Nat) :
    (modifyAll f indexes items)[j]? = if j ∈ indexes then items[j]?.map f else items[j]? := by
  induction indexes generalizing items with
  | nil => rfl
  | cons i indexes ih =>
    rcases List.nodup_cons.mp h with ⟨hi, hrest⟩
    change (modifyAll f indexes (items.modify i f))[j]? = _
    rw [ih hrest, List.getElem?_modify]
    by_cases hj : i = j
    · subst hj
      simp [hi]
    · simp [hj, Ne.symm hj]

theorem settleAt_map (field : String) (indexes : List Nat) (v : Value) :
    settleAt (indexes.map fun i => ⟨field, i⟩) v =
      replaceItems field (modifyAll settled indexes (childItems v field)) v := by
  induction indexes generalizing v with
  | nil => exact (replaceItems_childItems field v).symm
  | cons i indexes ih =>
    change settleAt (indexes.map fun i => ⟨field, i⟩) (modifyAt settled [⟨field, i⟩] v) =
      replaceItems field (modifyAll settled indexes ((childItems v field).modify i settled)) v
    rw [ih]
    rcases list_or_none v field with ⟨label, es, items, rfl, hget⟩ | hnone
    · have hself : ∀ new, Entries.get? (Entries.put field (.list new) es) field =
          some (.list new) := fun new => Entries.get?_put_self _ _ _
      rw [modifyAt_cons hget, replaceItems_map (hself _), childItems_map (hself _), Entries.put_put,
        replaceItems_map hget, childItems_map hget]
      rfl
    · have hstay : modifyAt settled [⟨field, i⟩] v = v := by
        cases v <;> simp only [modifyAt, hnone]
      rw [hstay, replaceItems_of_none hnone, replaceItems_of_none hnone]

/-- Settling one child after the other settles all of them. -/
theorem settleAt_childSteps (v : Value) (field : String) :
    settleAt (childSteps field (childItems v field)).reverse v = mapItems field settled v := by
  have hnodup := List.nodup_reverse.mpr (nodup_childIndexes (childItems v field))
  have hitems : modifyAll settled (childIndexes (childItems v field)).reverse (childItems v field) =
      (childItems v field).map settled := by
    apply List.ext_getElem?
    intro j
    rw [getElem?_modifyAll hnodup, List.getElem?_map]
    split
    · rfl
    · next hj =>
      -- What is no element is settled as it is.
      cases hc : (childItems v field)[j]? with
      | none => rfl
      | some c =>
        have hnone : c.entries?.isSome = false := by
          rw [Bool.eq_false_iff]
          intro hsome
          exact hj (List.mem_reverse.mpr (mem_childIndexes.mpr ⟨c, hc, hsome⟩))
        rw [Option.map_some, settled_of_no_entries hnone]
  rw [childSteps, ← List.map_reverse, settleAt_map, hitems, mapItems]

end Fields

/-! ### The whole tree -/

section Tree

theorem childItems_opened {field : String} (h : field ∈ childFields) (v : Value) :
    childItems (opened v) field = (childItems v field).map convertedValue := by
  rcases List.mem_cons.mp h with rfl | hcontent
  · rw [opened, childItems_mapItems_ne (by decide), childItems_mapItems]
  · rw [List.mem_singleton.mp hcontent, opened, childItems_mapItems,
      childItems_mapItems_ne (by decide)]

theorem flatMap_below_map_convertedValue (items : List Value) :
    (items.map convertedValue).flatMap below = items.flatMap below := by
  rw [List.flatMap_map]
  exact List.flatMap_congr fun c _ => below_convertedValue c

theorem flatMap_belowAt_opened (v : Value) :
    (openSteps v).flatMap (belowAt (opened v)) =
      (childItems v "content").reverse.flatMap below ++
        (childItems v "elements").reverse.flatMap below := by
  have hfield : ∀ field ∈ childFields,
      (childSteps field (childItems v field)).reverse.flatMap (belowAt (opened v)) =
        (childItems v field).reverse.flatMap below := by
    intro field hfield
    have hall := flatMap_belowAt (opened v) field
    rwa [childItems_opened hfield, childSteps_map_convertedValue, ← List.map_reverse,
      flatMap_below_map_convertedValue] at hall
  rw [openSteps, List.flatMap_append, hfield _ (by simp [childFields]),
    hfield _ (by simp [childFields])]

theorem settleAt_openSteps (v : Value) : settleAt (openSteps v) (opened v) = settled v := by
  have hstyled : settled ∘ convertedValue = styled := (funext styled_eq).symm
  have hcontent : childSteps "content" (childItems v "content") =
      childSteps "content" (childItems (opened v) "content") := by
    rw [childItems_opened (by simp [childFields]), childSteps_map_convertedValue]
  have helements : childSteps "elements" (childItems v "elements") =
      childSteps "elements" (childItems (mapItems "content" settled (opened v)) "elements") := by
    rw [childItems_mapItems_ne (by decide), childItems_opened (by simp [childFields]),
      childSteps_map_convertedValue]
  calc settleAt (openSteps v) (opened v)
      = settleAt (childSteps "elements" (childItems v "elements")).reverse
          (settleAt (childSteps "content" (childItems v "content")).reverse (opened v)) := by
        rw [openSteps, settleAt, List.foldl_append]
        rfl
    _ = mapItems "elements" settled (mapItems "content" settled (opened v)) := by
        rw [hcontent, settleAt_childSteps, helements, settleAt_childSteps]
    _ = mapItems "elements" settled (mapItems "content" styled
          (mapItems "elements" convertedValue v)) := by
        rw [opened, mapItems_mapItems, hstyled]
    _ = settled v := by
        rw [mapItems_comm (by decide), mapItems_mapItems, hstyled, settled]

theorem length_childSteps (v : Value) (field : String) :
    (childSteps field (childItems v field)).length = (childEntries v field).length := by
  have hcount : ∀ (items : List Value) (i : Nat),
      ((items.zipIdx i).filter fun c => c.1.entries?.isSome).length =
        (items.filterMap Value.entries?).length := by
    intro items
    induction items with
    | nil => intro i; rfl
    | cons c items ih =>
      intro i
      rw [List.zipIdx_cons, List.filter_cons, List.filterMap_cons]
      cases hc : c.entries? with
      | none => simpa using ih (i + 1)
      | some es => simpa using ih (i + 1)
  rw [childSteps, childIndexes, List.length_map, List.length_map, hcount, childEntries]

/-- There are fewer elements below a child than below its parent. -/
theorem length_below_lt {v c : Value} {field : String} (hfield : field ∈ childFields)
    (hc : c ∈ childItems v field) (hsome : c.entries?.isSome) :
    (below c).length < (below v).length := by
  have hinside : (below c).length ≤ ((childItems v field).reverse.flatMap below).length := by
    rcases List.append_of_mem (List.mem_reverse.mpr hc) with ⟨before, after, hsplit⟩
    rw [hsplit, List.flatMap_append, List.flatMap_cons, List.length_append, List.length_append]
    omega
  have hself : 0 < (childEntries v field).length := by
    rcases Option.isSome_iff_exists.mp hsome with ⟨es, hes⟩
    exact List.length_pos_of_mem (List.mem_filterMap.mpr ⟨c, hc, hes⟩)
  rw [below_eq v]
  simp only [List.length_append]
  rcases List.mem_cons.mp hfield with rfl | hcontent
  · omega
  · rw [List.mem_singleton.mp hcontent] at hinside hself
    omega

/-- A child of an opened element was one of the element, and is converted. -/
theorem exists_of_mem_openSteps {v : Value} {s : Step} (h : s ∈ openSteps v) :
    ∃ c, at? [s] (opened v) = some (convertedValue c) ∧ s.field ∈ childFields ∧
      c ∈ childItems v s.field ∧ c.entries?.isSome := by
  have hfind : ∀ field ∈ childFields, s ∈ childSteps field (childItems v field) →
      ∃ c, at? [s] (opened v) = some (convertedValue c) ∧ s.field ∈ childFields ∧
        c ∈ childItems v s.field ∧ c.entries?.isSome := by
    intro field hfield hs
    rcases List.mem_map.mp hs with ⟨i, hi, rfl⟩
    rcases mem_childIndexes.mp hi with ⟨c, hc, hsome⟩
    refine ⟨c, ?_, hfield, List.mem_of_getElem? hc, hsome⟩
    rw [at?_singleton, childItems_opened hfield, List.getElem?_map, hc]
    rfl
  rcases List.mem_append.mp h with hs | hs
  · exact hfind "content" (by simp [childFields]) (List.mem_reverse.mp hs)
  · exact hfind "elements" (by simp [childFields]) (List.mem_reverse.mp hs)

/-- Every element is visited like this: the induction is on the number of elements below it, for a
child is converted, and so changed, before it is visited. -/
theorem visited [CallStack] (n : Value) : Visited n := by
  induction hsize : (below n).length using Nat.strongRecOn generalizing n with
  | ind size ih =>
    intro root path pending budget hn
    have hopened : at? path (modifyAt opened path root) = some (opened n) := at?_modifyAt hn
    have hchildren : ∀ s ∈ openSteps n, ∃ c, at? [s] (opened n) = some c ∧ Visited c := by
      intro s hs
      rcases exists_of_mem_openSteps hs with ⟨c, hat, hfield, hc, hsome⟩
      refine ⟨convertedValue c, hat, ih _ ?_ _ rfl⟩
      rw [below_convertedValue, ← hsize]
      exact length_below_lt hfield hc hsome
    have hbelow : below n = (childEntries n "elements" ++ childEntries n "content") ++
        (openSteps n).flatMap (belowAt (opened n)) := by
      rw [flatMap_belowAt_opened, below_eq, List.append_assoc]
    have hbudget : (below n).length + 1 + budget =
        ((openSteps n).flatMap (belowAt (opened n))).length + (openSteps n).length +
          budget + 1 := by
      rw [hbelow, List.length_append, List.length_append, openSteps, List.length_append,
        List.length_reverse, List.length_reverse, length_childSteps, length_childSteps]
      omega
    have hsettled : modifyAt (settleAt (openSteps n)) path (modifyAt opened path root) =
        modifyAt settled path root := by
      rw [modifyAt_modifyAt _ _ hn]
      exact modifyAt_congr hn (settleAt_openSteps n)
    rw [hbudget, outcome_restyleFrom_succ hn,
      outcome_restyleFrom_steps (nodup_openSteps n) hchildren hopened, hsettled]
    conv_rhs => rw [hbelow, firstFault?_append]
    cases firstFault? (childEntries n "elements" ++ childEntries n "content") with
    | some f => rfl
    | none => rfl

/-! ### The budget -/

theorem mappings_get?_le (name : String) (es : Entries) :
    (es.get? name).elim 0 mappings ≤ mappingsEntries es := by
  induction es with
  | nil => exact Nat.le_refl 0
  | cons e es ih =>
    rw [Entries.get?_cons, mappingsEntries]
    split
    · exact Nat.le_add_right _ _
    · omega

theorem mappings_get?_add_le {a b : String} (h : a ≠ b) (es : Entries) :
    (es.get? a).elim 0 mappings + (es.get? b).elim 0 mappings ≤ mappingsEntries es := by
  induction es with
  | nil => exact Nat.le_refl 0
  | cons e es ih =>
    rw [Entries.get?_cons, Entries.get?_cons, mappingsEntries]
    by_cases ha : e.1 = .str a
    · have hb : e.1 ≠ .str b := by simpa [ha] using h
      rw [if_pos ha, if_neg hb]
      exact Nat.add_le_add_left (mappings_get?_le b es) _
    · rw [if_neg ha]
      by_cases hb : e.1 = .str b
      · rw [if_pos hb, Nat.add_comm]
        exact Nat.add_le_add_left (mappings_get?_le a es) _
      · rw [if_neg hb]
        omega

/-- What is visited in a list, if no item has more below it than it has mappings. -/
theorem length_below_items_le {items : List Value}
    (h : ∀ c ∈ items, (below c).length + c.entries?.isSome.toNat ≤ mappings c) :
    (items.filterMap Value.entries?).length + (items.reverse.flatMap below).length ≤
      mappingsItems items := by
  induction items with
  | nil => exact Nat.le_refl 0
  | cons c items ih =>
    have hfirst := h c List.mem_cons_self
    have hlater := ih fun d hd => h d (List.mem_cons_of_mem c hd)
    have hself : ((c :: items).filterMap Value.entries?).length =
        c.entries?.isSome.toNat + (items.filterMap Value.entries?).length := by
      rw [List.filterMap_cons]
      cases c.entries? with
      | none => simp
      | some es => simp [Nat.add_comm]
    rw [hself, List.reverse_cons, List.flatMap_append, List.length_append, List.flatMap_singleton,
      mappingsItems]
    omega

theorem mappingsItems_childItems_le (label : Option Nat) (es : Entries) (field : String) :
    mappingsItems (childItems (.map label es) field) ≤ (es.get? field).elim 0 mappings := by
  rcases list_or_none (.map label es) field with ⟨_, _, items, heq, hget⟩ | hnone
  · injection heq with hlabel hes
    subst hes
    rw [childItems_map hget, hget]
    exact Nat.le_refl (mappingsItems items)
  · rw [childItems_of_none hnone]
    exact Nat.zero_le _

/-- An element has at least as many mappings in it as there are elements below it. -/
theorem length_below_le (v : Value) : (below v).length + v.entries?.isSome.toNat ≤ mappings v := by
  induction hsize : SizeOf.sizeOf v using Nat.strongRecOn generalizing v with
  | ind size ih =>
    cases v with
    | map label es =>
      have hitems : ∀ field, (childEntries (.map label es) field).length +
          ((childItems (.map label es) field).reverse.flatMap below).length ≤
            (Entries.get? es field).elim 0 mappings := by
        intro field
        refine Nat.le_trans (length_below_items_le ?_) (mappingsItems_childItems_le label es field)
        intro c hc
        have hlt := sizeOf_lt_of_mem_childItems hc
        exact ih _ (hsize ▸ hlt) c rfl
      have helements := hitems "elements"
      have hcontent := hitems "content"
      have hboth : _ ≤ mappingsEntries es :=
        mappings_get?_add_le (show "elements" ≠ "content" by decide) es
      rw [below_eq, mappings]
      simp only [List.length_append, Value.entries?, Option.isSome_some, Bool.toNat_true]
      omega
    | _ =>
      rw [below_of_no_entries rfl]
      exact Nat.zero_le _

theorem restyleFrom_nil [CallStack] (budget : Nat) (root : Value) :
    restyleFrom budget root [] = pure root := by
  cases budget with
  | zero => rfl
  | succ budget => rfl

/-- The pass gives the styled tree, unless some element has a fault: the first one counts. -/
theorem outcome_restyle [CallStack] (v : Value) :
    (restyle v).outcome = barring (firstFault? (visits v)) (styled v) := by
  cases v with
  | map label es =>
    have hbelow : below (.map none (converted es)) = below (.map label es) :=
      below_convertedValue (.map label es)
    obtain ⟨spare, hspare⟩ := Nat.exists_eq_add_of_le (length_below_le (.map label es))
    have hbudget : mappings (.map label es) + 1 =
        (below (.map none (converted es))).length + 1 + (spare + 1) := by
      rw [hspare, hbelow]
      change (below (.map label es)).length + 1 + spare + 1 = _
      omega
    have hat : at? [] (.map none (converted es)) = some (.map none (converted es)) := rfl
    change _ = barring (firstFault? (es :: below (.map label es))) _
    rw [restyle, Run.outcome_bind, outcome_convert, firstFault?_cons]
    apply barring_bind
    change (restyleFrom _ (.map none (converted es)) [[]]).outcome = _
    rw [hbudget, visited _ [] (spare + 1) hat, restyleFrom_nil, hbelow, styled_eq]
    exact barring_bind_ok rfl
  | _ =>
    rw [visits, below_of_no_entries rfl, styled_of_no_entries rfl]
    rfl

end Tree

end Notemark.Style
