import Mathlib.Data.List.Induction
import Notemark.Address.Tlv

/-!
# Payloads of tagged entries

A payload is meant to be a row of complete entries, with every byte in one of them. This module
holds

* `Complete`: the grammar of payloads, beside the reader,
* `parse_cons`: what the reader makes of the first entry,
* `parse_eq_ok_iff`: it takes complete payloads, and those with one stray byte behind them,
* `file`, `grouped_eq_foldl`: the table of values by type is built entry by entry,
* `Listed`: what the table holds, and in which order,
* `payload_accepted_iff`: the reader follows the grammar exactly if no byte is astray.
-/

namespace Notemark.Address.Tlv

/-! ## The grammar -/

/-- The payload is a row of complete entries: a type byte, a length byte, and so many bytes. -/
inductive Complete : List UInt8 → List Entry → Prop where
  | nil : Complete [] []
  | cons {type length : UInt8} {value rest : List UInt8} {es : List Entry} :
      value.length = length.toNat → Complete rest es →
        Complete (type :: length :: (value ++ rest)) (⟨type, value⟩ :: es)

/-- One byte is left behind complete entries. -/
def Stray (payload : List UInt8) (es : List Entry) : Prop :=
  ∃ rest b, payload = rest ++ [b] ∧ Complete rest es

/-- How many bytes the entries take up. -/
def size : List Entry → Nat
  | [] => 0
  | e :: es => e.value.length + 2 + size es

section Grammar

variable {payload rest : List UInt8} {es : List Entry} {e : Entry}

theorem Complete.length_eq (h : Complete payload es) : payload.length = size es := by
  induction h with
  | nil => rfl
  | cons hvalue _ ih =>
    simp only [size, List.length_cons, List.length_append]
    omega

theorem Stray.length_eq (h : Stray payload es) : payload.length = size es + 1 := by
  rcases h with ⟨rest, b, rfl, hrest⟩
  rw [List.length_append, hrest.length_eq, List.length_singleton]

theorem Stray.cons {type length : UInt8} {value : List UInt8} (hvalue : value.length = length.toNat)
    (h : Stray rest es) : Stray (type :: length :: (value ++ rest)) (⟨type, value⟩ :: es) := by
  rcases h with ⟨rest, b, rfl, hrest⟩
  exact ⟨type :: length :: (value ++ rest), b, by simp, .cons hvalue hrest⟩

/-- Entries with values of at most 255 bytes are written as a complete payload. -/
theorem complete_encode (h : ∀ e ∈ es, e.value.length ≤ 255) : Complete (encode es) es := by
  induction es with
  | nil => exact .nil
  | cons e es ih =>
    have hlength : e.value.length = e.value.length.toUInt8.toNat := by
      have hle := h e List.mem_cons_self
      simp
      omega
    exact .cons hlength (ih fun e' he' => h e' (List.mem_cons_of_mem e he'))

end Grammar

/-! ## The reader -/

section Reader

variable {payload rest : List UInt8} {es : List Entry}

/-- Inside a value the reader counts down to its last byte. -/
theorem parseFrom_value (type : UInt8) (left : Nat) (soFar bs : List UInt8) :
    parseFrom (.value type left soFar) bs =
      if left < bs.length then
        (parse (bs.drop (left + 1))).map (⟨type, soFar.reverse ++ bs.take (left + 1)⟩ :: ·)
      else .error .truncated := by
  induction bs generalizing left soFar with
  | nil => rfl
  | cons b bs ih =>
    cases left with
    | zero => simp [parseFrom, parse]
    | succ left => simp [parseFrom, ih]

/-- The first entry of a payload is read if it is complete. -/
theorem parse_cons (type length : UInt8) (bs : List UInt8) :
    parse (type :: length :: bs) =
      if length.toNat ≤ bs.length then
        (parse (bs.drop length.toNat)).map (⟨type, bs.take length.toNat⟩ :: ·)
      else .error .truncated := by
  by_cases hzero : length = 0
  · subst hzero
    simp [parse, parseFrom]
  · have hpos : length.toNat ≠ 0 := fun h => hzero (UInt8.toNat_inj.mp h)
    obtain ⟨left, hleft⟩ : ∃ left, length.toNat = left + 1 := ⟨length.toNat - 1, by omega⟩
    simp only [parse, parseFrom, if_neg hzero, parseFrom_value, hleft, Nat.add_sub_cancel,
      Nat.succ_le_iff, List.reverse_nil, List.nil_append]

theorem parse_append (h : Complete payload es) (rest : List UInt8) :
    parse (payload ++ rest) = (parse rest).map (es ++ ·) := by
  induction h with
  | nil =>
    rw [List.nil_append]
    cases parse rest <;> rfl
  | @cons type length value later es hvalue _ ih =>
    have hle : length.toNat ≤ (value ++ (later ++ rest)).length := by
      rw [List.length_append]
      omega
    rw [List.cons_append, List.cons_append, List.append_assoc, parse_cons, if_pos hle, ← hvalue,
      List.drop_left, List.take_left, ih]
    cases parse rest <;> rfl

theorem parse_complete (h : Complete payload es) : parse payload = .ok es := by
  have hparse := parse_append h []
  rw [List.append_nil] at hparse
  rw [hparse, show parse [] = .ok [] from rfl, Except.map, List.append_nil]

theorem parse_stray (h : Stray payload es) : parse payload = .ok es := by
  rcases h with ⟨rest, b, rfl, hrest⟩
  rw [parse_append hrest, show parse [b] = .ok [] from rfl, Except.map, List.append_nil]

/-- The reader goes from entry to entry until fewer than two bytes are left. -/
theorem complete_or_stray (h : parse payload = .ok es) :
    Complete payload es ∨ Stray payload es := by
  -- By the number of bytes, of which an entry takes at least two away.
  induction hn : payload.length using Nat.strongRecOn generalizing payload es with
  | ind n ih =>
    match payload with
    | [] => exact Or.inl (Except.ok.inj h ▸ .nil)
    | [b] => exact Or.inr (Except.ok.inj h ▸ ⟨[], b, rfl, .nil⟩)
    | type :: length :: bs =>
      rw [parse_cons] at h
      split at h
      · next hle =>
        cases hrest : parse (bs.drop length.toNat) with
        | error f => simp [hrest, Except.map] at h
        | ok later =>
          obtain rfl : ⟨type, bs.take length.toNat⟩ :: later = es := by
            simpa [hrest, Except.map] using h
          have hlt : (bs.drop length.toNat).length < n := by
            rw [← hn, List.length_drop, List.length_cons, List.length_cons]
            omega
          have hvalue : (bs.take length.toNat).length = length.toNat := List.length_take_of_le hle
          have hbs : type :: length :: bs =
              type :: length :: (bs.take length.toNat ++ bs.drop length.toNat) := by
            rw [List.take_append_drop]
          rw [hbs]
          exact (ih _ hlt hrest rfl).imp (.cons hvalue) (.cons hvalue)
      · simp at h

theorem parse_eq_ok_iff : parse payload = .ok es ↔ Complete payload es ∨ Stray payload es :=
  ⟨complete_or_stray, fun h => h.elim parse_complete parse_stray⟩

/-- No payload is both: the numbers of bytes differ. -/
theorem Complete.not_stray (h : Complete payload es) (es' : List Entry) : ¬ Stray payload es' := by
  intro hstray
  obtain rfl : es = es' := Except.ok.inj ((parse_complete h).symm.trans (parse_stray hstray))
  have hlength := h.length_eq
  have hlength' := hstray.length_eq
  omega

end Reader

/-! ## The table -/

/-- Values by type. -/
abbrev Table := List (UInt8 × List (List UInt8))

/-- Files an entry under its type, which comes last if it is new. -/
def file (table : Table) (e : Entry) : Table :=
  match table with
  | [] => [(e.type, [e.value])]
  | (type, vs) :: rest =>
    if type = e.type then (type, vs ++ [e.value]) :: rest else (type, vs) :: file rest e

/-- How many bytes the entries of a table take up. -/
def Table.size (table : Table) : Nat :=
  Tlv.size (table.flatMap fun row => row.2.map (Entry.mk row.1))

/-- The table holds the entries: the types come in the order of their first entries, and under each
type stand its values in order. -/
structure Listed (es : List Entry) (table : Table) : Prop where
  types : ∀ type, type ∈ table.map (·.1) ↔ ∃ e ∈ es, e.type = type
  order : (table.map (·.1)).Pairwise fun a b =>
    es.findIdx (·.type == a) < es.findIdx (·.type == b)
  values : ∀ row ∈ table, row.2 = (es.filter (·.type == row.1)).map (·.value)

section Table

variable {es : List Entry} {e : Entry} {type : UInt8} {ts : List UInt8}

theorem types_snoc (es : List Entry) (e : Entry) :
    types (es ++ [e]) = if e.type ∈ types es then types es else types es ++ [e.type] := by
  simp [types, List.foldl_append]

theorem values_snoc (es : List Entry) (e : Entry) (type : UInt8) :
    values (es ++ [e]) type = values es type ++ if e.type = type then [e.value] else [] := by
  by_cases h : e.type = type <;> simp [values, List.filter_append, h]

theorem mem_types : type ∈ types es ↔ ∃ e ∈ es, e.type = type := by
  induction es using List.reverseRecOn with
  | nil => simp [types]
  | append_singleton es e ih =>
    have hsnoc : (∃ e' ∈ es ++ [e], e'.type = type) ↔ type ∈ types es ∨ e.type = type := by
      rw [ih]
      simp [or_and_right, exists_or]
    rw [hsnoc, types_snoc]
    split
    · next hold =>
      constructor
      · exact Or.inl
      · rintro (h | rfl)
        · exact h
        · exact hold
    · simp [eq_comm]

theorem findIdx_snoc_old (h : type ∈ types es) (e : Entry) :
    (es ++ [e]).findIdx (·.type == type) = es.findIdx (·.type == type) ∧
      es.findIdx (·.type == type) < es.length := by
  have hlt : es.findIdx (·.type == type) < es.length := by
    rw [List.findIdx_lt_length]
    simpa using mem_types.mp h
  exact ⟨by rw [List.findIdx_append, if_pos hlt], hlt⟩

theorem findIdx_snoc_new (h : e.type ∉ types es) :
    (es ++ [e]).findIdx (·.type == e.type) = es.length := by
  have hnot : ¬ es.findIdx (·.type == e.type) < es.length := by
    rw [List.findIdx_lt_length]
    simpa using mt mem_types.mpr h
  rw [List.findIdx_append, if_neg hnot]
  simp

theorem types_order (es : List Entry) : (types es).Pairwise fun a b =>
    es.findIdx (·.type == a) < es.findIdx (·.type == b) := by
  induction es using List.reverseRecOn with
  | nil => exact List.Pairwise.nil
  | append_singleton es e ih =>
    have hold : (types es).Pairwise fun a b =>
        (es ++ [e]).findIdx (·.type == a) < (es ++ [e]).findIdx (·.type == b) := by
      refine ih.imp_of_mem fun {a b} ha hb hlt => ?_
      rw [(findIdx_snoc_old ha e).1, (findIdx_snoc_old hb e).1]
      exact hlt
    rw [types_snoc]
    split
    · exact hold
    · next hnew =>
      refine List.pairwise_append.mpr ⟨hold, List.pairwise_singleton _ _, ?_⟩
      intro a ha b hb
      rcases List.mem_singleton.mp hb with rfl
      rw [findIdx_snoc_new hnew, (findIdx_snoc_old ha e).1]
      exact (findIdx_snoc_old ha e).2

theorem types_nodup (es : List Entry) : (types es).Nodup :=
  (types_order es).imp fun {a b} hlt heq => by simp [heq] at hlt

theorem listed_grouped (es : List Entry) : Listed es (grouped es) where
  types := by
    intro type
    simp [grouped, Function.comp_def, mem_types]
  order := by
    have hkeys : (grouped es).map (·.1) = types es := by simp [grouped, Function.comp_def]
    rw [hkeys]
    exact types_order es
  values := by
    intro row hrow
    rcases List.mem_map.mp hrow with ⟨type, -, rfl⟩
    rfl

/-- Filing changes the row of the type, or adds one. -/
theorem file_map (hts : ts.Nodup) (f : UInt8 → List (List UInt8)) :
    file (ts.map fun type => (type, f type)) e =
      (ts.map fun type => (type, f type ++ if e.type = type then [e.value] else [])) ++
        if e.type ∈ ts then [] else [(e.type, [e.value])] := by
  induction ts with
  | nil => simp [file]
  | cons type ts ih =>
    rcases List.nodup_cons.mp hts with ⟨hnot, hts'⟩
    rw [List.map_cons, file]
    by_cases heq : type = e.type
    · -- The type stands in no later row, so that all of these stay as they are.
      subst heq
      have hsame : ∀ t ∈ ts, (t, f t) = (t, f t ++ if e.type = t then [e.value] else []) := by
        intro t ht
        have hne : e.type ≠ t := fun h => hnot (h ▸ ht)
        simp [hne]
      simp [List.map_congr_left hsame]
    · simp [heq, Ne.symm heq, ih hts']

theorem grouped_snoc (es : List Entry) (e : Entry) :
    grouped (es ++ [e]) = file (grouped es) e := by
  have hrows : ∀ ts : List UInt8, (ts.map fun type => (type, values (es ++ [e]) type)) =
      ts.map fun type => (type, values es type ++ if e.type = type then [e.value] else []) := by
    intro ts
    simp only [values_snoc]
  have hnone : e.type ∉ types es → values es e.type = [] := by
    intro hnew
    simpa [values] using mt mem_types.mpr hnew
  unfold grouped
  rw [file_map (types_nodup es), types_snoc]
  split
  · rw [hrows, List.append_nil]
  · next hnew =>
    rw [List.map_append, hrows, List.map_singleton, values_snoc, hnone hnew]
    simp

/-- The table is built entry by entry. -/
theorem grouped_eq_foldl (es : List Entry) : grouped es = es.foldl file [] := by
  induction es using List.reverseRecOn with
  | nil => rfl
  | append_singleton es e ih => rw [grouped_snoc, List.foldl_append, ih]; rfl

theorem size_append (es es' : List Entry) : size (es ++ es') = size es + size es' := by
  induction es with
  | nil => simp [size]
  | cons e es ih =>
    simp only [List.cons_append, size, ih]
    omega

theorem size_file (table : Table) (e : Entry) :
    (file table e).size = table.size + (e.value.length + 2) := by
  induction table with
  | nil => simp [file, Table.size, size]
  | cons row rest ih =>
    rcases row with ⟨type, vs⟩
    rw [file]
    simp only [Table.size] at ih ⊢
    split
    · simp only [List.flatMap_cons, List.map_append, List.map_cons, List.map_nil, size_append, size]
      omega
    · simp only [List.flatMap_cons, size_append, ih]
      omega

theorem size_foldl_file (table : Table) (es : List Entry) :
    (es.foldl file table).size = table.size + size es := by
  induction es generalizing table with
  | nil => rfl
  | cons e es ih =>
    rw [List.foldl_cons, ih, size_file, Nat.add_assoc]
    rfl

/-- No entry is lost in the table. -/
theorem size_grouped (es : List Entry) : Table.size (grouped es) = size es := by
  rw [grouped_eq_foldl, size_foldl_file]
  exact Nat.zero_add _

end Table

/-- What the reader takes. It fails unless complete entries are followed by one stray byte at most;
the table that it gives holds the entries, and all bytes of the payload but the stray one. So it
follows the grammar, taking complete payloads only, exactly if no byte is astray. -/
theorem payload_accepted_iff (payload : List UInt8) :
    (parse payload = .error .truncated ↔ ∀ es, ¬ Complete payload es ∧ ¬ Stray payload es) ∧
    (∀ es, parse payload = .ok es → Listed es (grouped es) ∧
      (Complete payload es ∧ Table.size (grouped es) = payload.length ∨
        Stray payload es ∧ Table.size (grouped es) + 1 = payload.length)) ∧
    (((∃ es, parse payload = .ok es) ↔ ∃ es, Complete payload es) ↔ ∀ es, ¬ Stray payload es) := by
  refine ⟨?_, ?_, ?_⟩
  · cases hparse : parse payload with
    | error f =>
      cases f
      simp only [true_iff]
      intro es
      rw [← not_or, ← parse_eq_ok_iff, hparse]
      simp
    | ok es =>
      have hread := parse_eq_ok_iff.mp hparse
      simp only [reduceCtorEq, false_iff]
      intro hnone
      exact hread.elim (hnone es).1 (hnone es).2
  · intro es hparse
    refine ⟨listed_grouped es, ?_⟩
    rw [size_grouped]
    rcases parse_eq_ok_iff.mp hparse with hcomplete | hstray
    · exact Or.inl ⟨hcomplete, hcomplete.length_eq.symm⟩
    · exact Or.inr ⟨hstray, hstray.length_eq.symm⟩
  · constructor
    · intro hiff es hstray
      rcases hiff.mp ⟨es, parse_stray hstray⟩ with ⟨es', hcomplete⟩
      exact hcomplete.not_stray es hstray
    · intro hnone
      exact exists_congr fun es => by simp [parse_eq_ok_iff, hnone es]

/-- A type byte alone is no entry, and it is passed over. -/
theorem payload_accepted_stray : parse [0] = .ok [] ∧ ∀ es, ¬ Complete [0] es := by
  refine ⟨rfl, fun es h => ?_⟩
  cases h

end Notemark.Address.Tlv
