import Notemark.Proofs.Runs
import Notemark.Value.Depth
import Notemark.Value.Shown

/-!
# What messages can show

A message shows a value unless that holds a number with too many digits or is nested too deeply:

* `Value.all_of_imp`, `Value.allItems_iff`, `Value.allEntries_iff`: what all scalars in a value are,
* `Value.depthItems_le_iff`, `Value.depthEntries_le_iff`: a collection is nested as deeply as its
  parts,
* `Value.shown?_ok_iff`, `Value.plain?_ok_iff`: the values that a message can show.
-/

namespace Notemark

namespace Value

/-! ## The scalars in a value -/

variable {p q : Scalar → Bool}

mutual

/-- Scalars of a kind are of every kind that this one belongs to. -/
theorem all_of_imp (h : ∀ s, p s = true → q s = true) :
    (v : Value) → v.all p = true → v.all q = true
  | .scalar s, hv => h s hv
  | .list xs, hv | .tuple xs, hv => allItems_of_imp h xs hv
  | .set ms, hv => by
    rw [all, List.all_eq_true] at hv ⊢
    exact fun s hs => h s (hv s hs)
  | .map _ es, hv => allEntries_of_imp h es hv
  | .backRef _, _ => rfl

theorem allItems_of_imp (h : ∀ s, p s = true → q s = true) :
    (xs : List Value) → allItems p xs = true → allItems q xs = true
  | [], _ => rfl
  | x :: xs, hv => by
    rw [allItems, Bool.and_eq_true] at hv ⊢
    exact ⟨all_of_imp h x hv.1, allItems_of_imp h xs hv.2⟩

theorem allEntries_of_imp (h : ∀ s, p s = true → q s = true) :
    (es : List (Scalar × Value)) → allEntries p es = true → allEntries q es = true
  | [], _ => rfl
  | (k, v) :: es, hv => by
    rw [allEntries, Bool.and_eq_true, Bool.and_eq_true] at hv ⊢
    exact ⟨⟨h k hv.1.1, all_of_imp h v hv.1.2⟩, allEntries_of_imp h es hv.2⟩

end

theorem allItems_iff {xs : List Value} : allItems p xs = true ↔ ∀ x ∈ xs, x.all p = true := by
  induction xs with
  | nil => simp [allItems]
  | cons x xs ih => simp [allItems, ih]

theorem allEntries_iff {es : Entries} :
    allEntries p es = true ↔ ∀ e ∈ es, p e.1 = true ∧ e.2.all p = true := by
  induction es with
  | nil => simp [allEntries]
  | cons e es ih => simp [allEntries, ih]

/-! ## Levels -/

theorem depthItems_le_iff {xs : List Value} {n : Nat} :
    depthItems xs ≤ n ↔ ∀ x ∈ xs, x.depth ≤ n := by
  induction xs with
  | nil => simp [depthItems]
  | cons x xs ih => rw [depthItems, Nat.max_le, ih, List.forall_mem_cons]

theorem depthEntries_le_iff {es : Entries} {n : Nat} :
    depthEntries es ≤ n ↔ ∀ e ∈ es, e.2.depth ≤ n := by
  induction es with
  | nil => simp [depthEntries]
  | cons e es ih => rw [depthEntries, Nat.max_le, ih, List.forall_mem_cons]

end Value

/-! ## Messages -/

/-- Numbers with no more digits than are written, and all other scalars. -/
def Scalar.isBrief (s : Scalar) : Bool := !s.isLong

theorem Scalar.shown?_ok_iff (s : Scalar) : (∃ text, s.shown? = .ok text) ↔ s.isBrief = true := by
  rw [shown?, isBrief]
  cases s.isLong <;> simp

theorem Scalar.plain?_ok_iff (s : Scalar) : (∃ text, s.plain? = .ok text) ↔ s.isBrief = true := by
  rw [plain?, isBrief]
  cases s.isLong <;> simp

namespace Value

theorem shownMembers_ok_iff (ms : List Scalar) :
    (∃ texts, ms.mapM Scalar.shown? = .ok texts) ↔ ms.all Scalar.isBrief = true := by
  induction ms with
  | nil => simp [pure, Except.pure]
  | cons m ms ih =>
    rw [List.mapM_cons, List.all_cons, Bool.and_eq_true]
    exact exists_ok_bind_iff m.shown?_ok_iff fun _ => exists_ok_map_iff.trans ih

mutual

/-- A message can show a value exactly if all its numbers are brief and there is room for the
levels of its collections. -/
theorem shown?_ok_iff : (room : Nat) → (v : Value) →
    ((∃ text, v.shown? room = .ok text) ↔ v.all Scalar.isBrief = true ∧ v.depth ≤ room)
  | room, .scalar s => by
    rw [shown?, all, depth]
    exact s.shown?_ok_iff.trans (and_iff_left (Nat.zero_le room)).symm
  | room, .set ms => by
    rw [shown?, all, depth]
    exact (exists_ok_map_iff.trans (shownMembers_ok_iff ms)).trans
      (and_iff_left (Nat.zero_le room)).symm
  | room, .backRef mapping => by simp [shown?, all, depth]
  | 0, .list xs | 0, .tuple xs | 0, .map _ es => by simp [shown?, depth]
  | room + 1, .list xs | room + 1, .tuple xs => by
    rw [shown?, all, depth, Nat.add_le_add_iff_right]
    exact exists_ok_map_iff.trans (shownItems?_ok_iff room xs)
  | room + 1, .map _ es => by
    rw [shown?, all, depth, Nat.add_le_add_iff_right]
    exact exists_ok_map_iff.trans (shownEntries?_ok_iff room es)

theorem shownItems?_ok_iff (room : Nat) : (xs : List Value) →
    ((∃ texts, shownItems? room xs = .ok texts) ↔
      allItems Scalar.isBrief xs = true ∧ depthItems xs ≤ room)
  | [] => by simp [shownItems?, allItems, depthItems]
  | x :: xs => by
    rw [shownItems?, allItems, depthItems, Bool.and_eq_true, Nat.max_le, and_and_and_comm]
    exact exists_ok_bind_iff (shown?_ok_iff room x)
      fun _ => exists_ok_map_iff.trans (shownItems?_ok_iff room xs)

theorem shownEntries?_ok_iff (room : Nat) : (es : List (Scalar × Value)) →
    ((∃ texts, shownEntries? room es = .ok texts) ↔
      allEntries Scalar.isBrief es = true ∧ depthEntries es ≤ room)
  | [] => by simp [shownEntries?, allEntries, depthEntries]
  | (k, v) :: es => by
    rw [shownEntries?, allEntries, depthEntries, Bool.and_eq_true, Bool.and_eq_true, Nat.max_le,
      and_and_and_comm, and_assoc (a := k.isBrief = true), and_assoc]
    exact exists_ok_bind_iff k.shown?_ok_iff fun _ =>
      exists_ok_bind_iff (shown?_ok_iff room v)
        fun _ => exists_ok_map_iff.trans (shownEntries?_ok_iff room es)

end

theorem plain?_ok_iff (room : Nat) (v : Value) :
    (∃ text, v.plain? room = .ok text) ↔ v.all Scalar.isBrief = true ∧ v.depth ≤ room := by
  cases v with
  | scalar s => exact s.plain?_ok_iff.trans (and_iff_left (Nat.zero_le room)).symm
  | _ => exact shown?_ok_iff room _

end Value

end Notemark
