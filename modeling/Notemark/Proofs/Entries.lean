import Notemark.Value.Basic

/-!
# Laws of mappings

* `Scalar.sameKey_str`: a string is the same key as itself only,
* `Entries.get?_put_self`, `Entries.get?_put_ne`, `Entries.get?_erase_ne`: what a mapping holds
  after a change,
* `Entries.put_get?`, `Entries.put_put`, `Entries.put_comm`: putting what is there, and putting
  twice,
* `Entries.erase_put`, `Entries.get?_update`, `Entries.exists_update_cons`: changes that are taken
  back, and many at once.
-/

namespace Notemark

/-- A string is the same key as itself only. -/
theorem Scalar.sameKey_str (key : Scalar) (name : String) :
    key.sameKey (.str name) = decide (key = .str name) := by
  cases key with
  | str s => simp [sameKey, Bool.beq_eq_decide_eq]
  | _ => simp [sameKey]

theorem Scalar.str_sameKey (name : String) (key : Scalar) :
    Scalar.sameKey (.str name) key = decide (key = .str name) := by
  cases key with
  | str s => simp [sameKey, Bool.beq_eq_decide_eq, eq_comm]
  | _ => simp [sameKey]

namespace Entries

variable {es new : Entries} {name other : String} {value : Value}

@[simp] theorem get?_nil (name : String) : get? [] name = none := rfl

theorem get?_cons (e : Scalar × Value) (es : Entries) (name : String) :
    get? (e :: es) name = if e.1 = .str name then some e.2 else get? es name := by
  by_cases he : e.1 = .str name
  · simp [get?, lookup, Scalar.sameKey_str, he]
  · simp [get?, lookup, Scalar.sameKey_str, he]

theorem put_cons (name : String) (value : Value) (e : Scalar × Value) (es : Entries) :
    put name value (e :: es) =
      if e.1 = .str name then (e.1, value) :: es else e :: put name value es := by
  by_cases he : e.1 = .str name
  · simp [put, set, Scalar.sameKey_str, he]
  · simp [put, set, Scalar.sameKey_str, he]

theorem mem_of_get? (h : es.get? name = some value) : (.str name, value) ∈ es := by
  induction es with
  | nil => simp at h
  | cons e es ih =>
    rw [get?_cons] at h
    by_cases he : e.1 = .str name
    · rw [if_pos he] at h
      rw [← he, ← Option.some.inj h]
      exact List.mem_cons_self
    · rw [if_neg he] at h
      exact List.mem_cons_of_mem e (ih h)

@[simp] theorem get?_put_self (name : String) (value : Value) (es : Entries) :
    get? (put name value es) name = some value := by
  induction es with
  | nil => simp [put, set, get?_cons]
  | cons e es ih =>
    rw [put_cons]
    split
    · next he => rw [get?_cons, if_pos he]
    · next he => rw [get?_cons, if_neg he, ih]

theorem get?_put_ne (h : other ≠ name) (value : Value) (es : Entries) :
    get? (put name value es) other = get? es other := by
  have hkey : (Scalar.str name) ≠ .str other := by simpa using h.symm
  induction es with
  | nil => simp [put, set, get?_cons, h.symm]
  | cons e es ih =>
    rw [put_cons]
    split
    · next he => rw [get?_cons, get?_cons, he, if_neg hkey, if_neg hkey]
    · rw [get?_cons, get?_cons, ih]

@[simp] theorem get?_erase_self (es : Entries) (name : String) :
    get? (erase es name) name = none := by
  simp [get?, lookup, erase, Scalar.sameKey_str]

theorem get?_erase_ne (h : other ≠ name) (es : Entries) :
    get? (erase es name) other = get? es other := by
  induction es with
  | nil => rfl
  | cons e es ih =>
    by_cases he : e.1 = .str name
    · have hne : e.1 ≠ .str other := by simpa [he] using h.symm
      rw [get?_cons, if_neg hne, ← ih]
      simp [erase, Scalar.sameKey_str, he]
    · have hkeep : erase (e :: es) name = e :: erase es name := by
        simp [erase, Scalar.sameKey_str, he]
      rw [hkeep, get?_cons, get?_cons, ih]

theorem erase_of_get?_eq_none (h : es.get? name = none) : es.erase name = es := by
  induction es with
  | nil => rfl
  | cons e es ih =>
    rw [get?_cons] at h
    by_cases he : e.1 = .str name
    · simp [he] at h
    · rw [if_neg he] at h
      have hkeep : erase (e :: es) name = e :: erase es name := by
        simp [erase, Scalar.sameKey_str, he]
      rw [hkeep, ih h]

theorem mem_put {e : Scalar × Value} (h : e ∈ put name value es) :
    e = (.str name, value) ∨ e ∈ es := by
  induction es with
  | nil => exact Or.inl (List.mem_singleton.mp h)
  | cons d es ih =>
    rw [put_cons] at h
    split at h
    · next hd =>
      rcases List.mem_cons.mp h with rfl | hmem
      · exact Or.inl (by rw [hd])
      · exact Or.inr (List.mem_cons_of_mem d hmem)
    · rcases List.mem_cons.mp h with rfl | hmem
      · exact Or.inr List.mem_cons_self
      · exact (ih hmem).imp_right (List.mem_cons_of_mem d)

/-- Putting what is there changes nothing. -/
theorem put_get? (h : es.get? name = some value) : put name value es = es := by
  induction es with
  | nil => simp at h
  | cons e es ih =>
    rw [get?_cons] at h
    rw [put_cons]
    split
    · next he =>
      rw [if_pos he] at h
      rw [← Option.some.inj h]
    · next he =>
      rw [if_neg he] at h
      rw [ih h]

theorem put_put (name : String) (value before : Value) (es : Entries) :
    put name value (put name before es) = put name value es := by
  induction es with
  | nil => simp [put, set, Scalar.sameKey_str]
  | cons e es ih =>
    rw [put_cons, put_cons]
    split
    · next he => rw [put_cons, if_pos he]
    · next he => rw [put_cons, if_neg he, ih]

/-- A key that is there keeps its place. -/
theorem put_comm (h : other ≠ name) {x y : Value} (hname : (es.get? name).isSome) :
    put other x (put name y es) = put name y (put other x es) := by
  induction es with
  | nil => simp at hname
  | cons e es ih =>
    rw [get?_cons] at hname
    rw [put_cons, put_cons]
    by_cases he : e.1 = .str name
    · have hne : e.1 ≠ .str other := by simpa [he] using h.symm
      rw [if_pos he, if_neg hne, put_cons, put_cons, if_neg hne, if_pos he]
    · rw [if_neg he] at hname ⊢
      by_cases he' : e.1 = .str other
      · rw [if_pos he', put_cons, put_cons, if_pos he', if_neg he]
      · rw [if_neg he', put_cons, put_cons, if_neg he', if_neg he, ih hname]

theorem erase_put (name : String) (value : Value) (es : Entries) :
    erase (put name value es) name = erase es name := by
  induction es with
  | nil => simp [put, set, erase, Scalar.sameKey_str]
  | cons e es ih =>
    rw [put_cons]
    split
    · next he => simp [erase, Scalar.sameKey_str, he]
    · next he => simpa [erase, Scalar.sameKey_str, he] using ih

theorem get?_set_ne {key : Scalar} (h : key ≠ .str name) (value : Value) (es : Entries) :
    get? (set key value es) name = get? es name := by
  induction es with
  | nil => rw [set, get?_cons, if_neg h]
  | cons e es ih =>
    rw [set]
    split
    -- The entry that is replaced has the same key, which is not the name either.
    · next hsame =>
      have hne : e.1 ≠ .str name := by
        intro he
        rw [he, Scalar.str_sameKey] at hsame
        exact h (of_decide_eq_true hsame)
      rw [get?_cons, get?_cons, if_neg hne, if_neg hne]
    · rw [get?_cons, get?_cons, ih]

/-- What is not set stays. -/
theorem get?_update_of_none (h : get? new name = none) (es : Entries) :
    get? (es.update new) name = get? es name := by
  induction new generalizing es with
  | nil => rfl
  | cons e new ih =>
    rw [get?_cons] at h
    by_cases hkey : e.1 = .str name
    · simp [hkey] at h
    · rw [if_neg hkey] at h
      calc get? (es.update (e :: new)) name
          = get? ((es.set e.1 e.2).update new) name := rfl
        _ = get? (es.set e.1 e.2) name := ih h _
        _ = get? es name := get?_set_ne hkey e.2 es

theorem get?_eq_none (h : ∀ e ∈ es, e.1 ≠ .str name) : get? es name = none := by
  induction es with
  | nil => rfl
  | cons e es ih =>
    rw [get?_cons, if_neg (h e List.mem_cons_self)]
    exact ih fun d hd => h d (List.mem_cons_of_mem e hd)

theorem get?_update (h : ∀ e ∈ new, ∃ other, e.1 = .str other ∧ other ≠ name) (es : Entries) :
    get? (es.update new) name = get? es name := by
  refine get?_update_of_none (get?_eq_none fun e he => ?_) es
  rcases h e he with ⟨other, hkey, hne⟩
  simpa [hkey] using hne

/-- The first entry keeps its key and its place. -/
theorem exists_update_cons (key : Scalar) (value : Value) (es new : Entries) :
    ∃ value' es', update ((key, value) :: es) new = (key, value') :: es' := by
  induction new generalizing value es with
  | nil => exact ⟨value, es, rfl⟩
  | cons e new ih =>
    by_cases hsame : key.sameKey e.1 = true
    · have hset : set e.1 e.2 ((key, value) :: es) = (key, e.2) :: es := by rw [set, if_pos hsame]
      rcases ih e.2 es with ⟨value', es', hlater⟩
      exact ⟨value', es', (congrArg (update · new) hset).trans hlater⟩
    · have hset : set e.1 e.2 ((key, value) :: es) = (key, value) :: set e.1 e.2 es := by
        rw [set, if_neg hsame]
      rcases ih value (set e.1 e.2 es) with ⟨value', es', hlater⟩
      exact ⟨value', es', (congrArg (update · new) hset).trans hlater⟩

end Entries

end Notemark
