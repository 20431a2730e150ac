import Notemark.Proofs.Messages
import Notemark.Value.Json

/-!
# Values that can be written

Where values without a form of their own are written as plain text, three things still cannot be
written: numbers with too many digits, keys that are dates or bytes, and collections that are part
of themselves. Collections must not be nested too deeply either.

* `Value.writable`: the values that have a form,
* `Value.writableItems_iff`, `Value.writableEntries_iff`: a collection has a form if its parts do,
* `Value.json_ok_iff`: the values that can be written are those that have a form and are not nested
  too deeply.
-/

namespace Notemark

/-- Keys that can be written. -/
def Scalar.isWritableKey : Scalar → Bool
  | bytes _ | date _ | timestamp _ => false
  | key => !Scalar.isLong key

theorem Scalar.isLong_of_isWritableKey {key : Scalar} (h : key.isWritableKey = true) :
    Scalar.isLong key = false := by
  cases key with
  | int i => simpa [isWritableKey] using h
  | _ => rfl

namespace Value

mutual

/-- The values that can be written. -/
def writable : Value → Bool
  | scalar s => !Scalar.isLong s
  | list xs | tuple xs => writableItems xs
  | set ms => !ms.any Scalar.isLong
  | map _ es => writableEntries es
  | backRef _ => false

def writableItems : List Value → Bool
  | [] => true
  | x :: xs => x.writable && writableItems xs

def writableEntries : List (Scalar × Value) → Bool
  | [] => true
  | (k, v) :: es => k.isWritableKey && v.writable && writableEntries es

end

theorem writableItems_iff {xs : List Value} :
    writableItems xs = true ↔ ∀ x ∈ xs, x.writable = true := by
  induction xs with
  | nil => simp [writableItems]
  | cons x xs ih => simp [writableItems, ih]

theorem writableEntries_iff {es : Entries} :
    writableEntries es = true ↔ ∀ e ∈ es, e.1.isWritableKey = true ∧ e.2.writable = true := by
  induction es with
  | nil => simp [writableEntries]
  | cons e es ih => simp [writableEntries, ih]

end Value

/-! ## Texts -/

namespace Json

variable {format : JsonFormat}

theorem integer_ok_iff (i : Int) :
    (∃ text, integer i = .ok text) ↔ (!Scalar.isLong (.int i)) = true := by
  rw [integer]
  cases Scalar.isLong (.int i) <;> simp

theorem scalar_ok_iff (hplain : format.plainOthers = true) (s : Scalar) :
    (∃ text, scalar format s = .ok text) ↔ (!Scalar.isLong s) = true := by
  cases s with
  | int i => exact integer_ok_iff i
  | _ => simp [scalar, Scalar.isLong, hplain]

theorem key_ok_iff (k : Scalar) :
    (∃ text, key format k = .ok text) ↔ k.isWritableKey = true := by
  cases k with
  | int i => exact exists_ok_map_iff.trans (integer_ok_iff i)
  | _ => simp [key, Scalar.isWritableKey, Scalar.isLong]

/-- A collection is written if there is room for its parts. -/
theorem exists_ok_collection_iff {α : Type} {depth : Nat} {x : Except JsonFault α} {f : α → String}
    {p : Prop} {inner : Nat}
    (h : depth + 1 ≤ format.levels →
      ((∃ a, x = .ok a) ↔ p ∧ depth + 1 + inner ≤ format.levels)) :
    (∃ text, (do
      if format.levels ≤ depth then throw JsonFault.depth
      return f (← x)) = .ok text) ↔ p ∧ depth + (inner + 1) ≤ format.levels := by
  by_cases hroom : format.levels ≤ depth
  · rw [if_pos hroom]
    refine iff_of_false (fun ⟨_, h⟩ => nomatch h) ?_
    omega
  · rw [if_neg hroom]
    refine (exists_ok_map_iff.trans (h (by omega))).trans ?_
    rw [Nat.add_right_comm, Nat.add_assoc]

mutual

theorem value_ok_iff (hplain : format.plainOthers = true) (depth : Nat)
    (hroom : depth ≤ format.levels) : (v : Value) →
      ((∃ text, value format depth v = .ok text) ↔
        v.writable = true ∧ depth + v.depth ≤ format.levels)
  | .scalar s => by
    rw [value, Value.writable, scalar_ok_iff hplain s]
    exact (and_iff_left hroom).symm
  | .list xs | .tuple xs => by
    rw [value, Value.writable, Value.depth]
    exact exists_ok_collection_iff fun h => items_ok_iff hplain (depth + 1) h xs
  | .set ms => by
    rw [value, Value.writable, hplain, Value.depth, Nat.add_zero, and_iff_left hroom]
    cases ms.any Scalar.isLong <;> simp
  | .map label es => by
    rw [value, Value.writable, Value.depth]
    exact exists_ok_collection_iff fun h => entries_ok_iff hplain (depth + 1) h es
  | .backRef mapping => by simp [value, Value.writable]

theorem items_ok_iff (hplain : format.plainOthers = true) (depth : Nat)
    (hroom : depth ≤ format.levels) : (xs : List Value) →
      ((∃ texts, items format depth xs = .ok texts) ↔
        Value.writableItems xs = true ∧ depth + Value.depthItems xs ≤ format.levels)
  | [] => by simp [items, Value.writableItems, Value.depthItems, hroom]
  | x :: xs => by
    have hboth : depth + Value.depthItems (x :: xs) ≤ format.levels ↔
        depth + x.depth ≤ format.levels ∧ depth + Value.depthItems xs ≤ format.levels := by
      rw [Value.depthItems]
      omega
    rw [items, Value.writableItems, Bool.and_eq_true, hboth, and_and_and_comm]
    exact exists_ok_bind_iff (value_ok_iff hplain depth hroom x)
      fun _ => exists_ok_map_iff.trans (items_ok_iff hplain depth hroom xs)

theorem entries_ok_iff (hplain : format.plainOthers = true) (depth : Nat)
    (hroom : depth ≤ format.levels) : (es : List (Scalar × Value)) →
      ((∃ texts, entries format depth es = .ok texts) ↔
        Value.writableEntries es = true ∧ depth + Value.depthEntries es ≤ format.levels)
  | [] => by simp [entries, Value.writableEntries, Value.depthEntries, hroom]
  | (k, v) :: es => by
    have hboth : depth + Value.depthEntries ((k, v) :: es) ≤ format.levels ↔
        depth + v.depth ≤ format.levels ∧ depth + Value.depthEntries es ≤ format.levels := by
      rw [Value.depthEntries]
      omega
    rw [entries, Value.writableEntries, Bool.and_eq_true, Bool.and_eq_true, hboth,
      and_and_and_comm, and_assoc (a := k.isWritableKey = true), and_assoc]
    exact exists_ok_bind_iff (key_ok_iff k) fun _ =>
      exists_ok_bind_iff (value_ok_iff hplain depth hroom v)
        fun _ => exists_ok_map_iff.trans (entries_ok_iff hplain depth hroom es)

end

end Json

/-- A value has a text exactly if it has a form and is not nested too deeply. -/
theorem Value.json_ok_iff {format : JsonFormat} (hplain : format.plainOthers = true) (v : Value) :
    (∃ text, v.json format = .ok text) ↔ v.writable = true ∧ v.depth ≤ format.levels := by
  rw [← Nat.zero_add v.depth]
  exact Json.value_ok_iff hplain 0 (Nat.zero_le _) v

end Notemark
