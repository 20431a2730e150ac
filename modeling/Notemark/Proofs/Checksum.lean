import Notemark.Address.Bech32
import Notemark.Proofs.Text

/-!
# The checksum of Bech32 strings

The state of a checksum depends linearly on the symbols it has absorbed, so that the six symbols at
the end can be chosen to make it what it has to be. This module holds

* `carry_xor`, `absorb_xor`, `absorbAll_xor`: absorbing is linear in exclusive or,
* `absorbAll_digits`: from nothing, six symbols give the state that they are the digits of,
* `isIntact_checksum`: a checksum makes its string intact,
* `decode_encode`: reading a string gives back the label and the symbols it was made of.
-/

namespace Notemark.Address.Bech32

/-! ## Linearity -/

section Linear

variable {a b : Check} {ss ts : List Symbol}

theorem ite_xor (p q : Bool) (g : Check) :
    (if (p ^^ q) = true then g else 0) =
      (if p = true then g else 0) ^^^ (if q = true then g else 0) := by
  cases p <;> cases q <;> simp

/-- A sum of exclusive ors is the exclusive or of two sums. -/
theorem foldl_map_xor {α : Type} (f g : α → Check) (x y : Check) (xs : List α) :
    (xs.map fun i => f i ^^^ g i).foldl (· ^^^ ·) (x ^^^ y) =
      (xs.map f).foldl (· ^^^ ·) x ^^^ (xs.map g).foldl (· ^^^ ·) y := by
  induction xs generalizing x y with
  | nil => rfl
  | cons i xs ih =>
    have hfirst : x ^^^ y ^^^ (f i ^^^ g i) = (x ^^^ f i) ^^^ (y ^^^ g i) := by ac_rfl
    simp only [List.map_cons, List.foldl_cons, hfirst, ih]

theorem carry_xor (a b : Check) : carry (a ^^^ b) = carry a ^^^ carry b := by
  have hzero : (0 : Check) = 0 ^^^ 0 := by decide
  unfold carry
  rw [← foldl_map_xor, ← hzero]
  simp only [BitVec.getLsbD_xor, ite_xor]

theorem absorb_xor (a b : Check) (s t : Symbol) :
    absorb (a ^^^ b) (s ^^^ t) = absorb a s ^^^ absorb b t := by
  unfold absorb
  rw [carry_xor, BitVec.shiftLeft_xor_distrib, BitVec.setWidth_xor]
  ac_rfl

/-- Two rows of symbols of one length may be absorbed together or apart. -/
theorem absorbAll_xor (h : ss.length = ts.length) :
    absorbAll (a ^^^ b) (List.zipWith (· ^^^ ·) ss ts) = absorbAll a ss ^^^ absorbAll b ts := by
  induction ss generalizing a b ts with
  | nil =>
    rw [List.length_eq_zero_iff.mp h.symm]
    rfl
  | cons s ss ih =>
    cases ts with
    | nil => simp at h
    | cons t ts =>
      have hlength : ss.length = ts.length := by simpa using h
      change absorbAll (absorb (a ^^^ b) (s ^^^ t)) (List.zipWith (· ^^^ ·) ss ts) = _
      rw [absorb_xor, ih hlength]
      rfl

end Linear

/-! ## Digits of a state -/

/-- The last `n` digits of a state, highest first. -/
def digits (x : Check) (n : Nat) : List Symbol :=
  (List.range n).map fun i => (x >>> (5 * (n - 1 - i))).setWidth 5

/-- A state without its last digit has no bits to carry. -/
theorem carry_shift (x : Check) (n : Nat) : carry (x >>> (5 * (n + 1))) = 0 := by
  have hbit : ∀ i, (x >>> (5 * (n + 1))).getLsbD (25 + i) = false := by
    intro i
    rw [BitVec.getLsbD_ushiftRight]
    exact BitVec.getLsbD_of_ge x _ (by omega)
  simp [carry, hbit, generators]

/-- Absorbing the next digit of a state. -/
theorem absorb_digit (x : Check) (n : Nat) :
    absorb (x >>> (5 * (n + 1))) ((x >>> (5 * n)).setWidth 5) = x >>> (5 * n) := by
  unfold absorb
  rw [carry_shift]
  apply BitVec.eq_of_getLsbD_eq
  intro i hi
  -- The five low bits come from the digit, and the others are those of the state.
  by_cases hlow : i < 5
  · simp [hlow, hi]
  · have hplace : 5 * (n + 1) + (i - 5) = 5 * n + i := by omega
    simp [hlow, hi, hplace]

theorem digits_succ (x : Check) (n : Nat) :
    digits x (n + 1) = (x >>> (5 * n)).setWidth 5 :: digits x n := by
  have hlater : ∀ i, n + 1 - 1 - (i + 1) = n - 1 - i := by omega
  simp only [digits, List.range_succ_eq_map, List.map_cons, List.map_map, Function.comp_def, hlater]
  simp

theorem absorbAll_digits (x : Check) (n : Nat) : absorbAll (x >>> (5 * n)) (digits x n) = x := by
  induction n with
  | zero => simp [digits, absorbAll]
  | succ n ih =>
    rw [digits_succ]
    change absorbAll (absorb (x >>> (5 * (n + 1))) ((x >>> (5 * n)).setWidth 5)) (digits x n) = x
    rw [absorb_digit, ih]

/-- A state has six digits. -/
theorem absorbAll_zero_digits (x : Check) : absorbAll 0 (digits x 6) = x := by
  have hnone : x >>> (5 * 6) = 0 := BitVec.ushiftRight_eq_zero (by decide)
  rw [← hnone]
  exact absorbAll_digits x 6

theorem length_digits (x : Check) (n : Nat) : (digits x n).length = n := by simp [digits]

/-! ## Intact strings -/

theorem absorbAll_append (state : Check) (ss ts : List Symbol) :
    absorbAll state (ss ++ ts) = absorbAll (absorbAll state ss) ts := List.foldl_append

theorem checksum_eq_digits (label : Text) (ss : List Symbol) :
    checksum label ss =
      digits (absorbAll (absorbAll 1 (labelSymbols label ++ ss)) (List.replicate 6 0) ^^^ 1) 6 := by
  unfold checksum
  rw [absorbAll_append]
  rfl

/-- Zeros do not matter beside other symbols of the same number. -/
theorem absorbAll_eq_xor (state : Check) (ss : List Symbol) :
    absorbAll state ss = absorbAll state (List.replicate ss.length 0) ^^^ absorbAll 0 ss := by
  have hlength : (List.replicate ss.length (0 : Symbol)).length = ss.length := List.length_replicate
  have hzip : List.zipWith (· ^^^ ·) (List.replicate ss.length (0 : Symbol)) ss = ss := by
    induction ss with
    | nil => rfl
    | cons s ss ih => simpa [List.replicate_succ] using ih
  have hzero : state ^^^ 0 = state := by simp
  rw [← absorbAll_xor hlength, hzip, hzero]

/-- The checksum takes away what the label and the symbols leave, but for the one. -/
theorem isIntact_checksum (label : Text) (ss : List Symbol) :
    isIntact label (ss ++ checksum label ss) = true := by
  let state := absorbAll 1 (labelSymbols label ++ ss)
  let left := absorbAll state (List.replicate 6 0)
  have hone : absorbAll 1 (labelSymbols label ++ (ss ++ checksum label ss)) = 1 :=
    calc absorbAll 1 (labelSymbols label ++ (ss ++ checksum label ss))
      _ = absorbAll state (digits (left ^^^ 1) 6) := by
        rw [← List.append_assoc, absorbAll_append, checksum_eq_digits]
      _ = left ^^^ absorbAll 0 (digits (left ^^^ 1) 6) := by
        rw [absorbAll_eq_xor, length_digits]
      _ = left ^^^ (left ^^^ 1) := by rw [absorbAll_zero_digits]
      _ = 1 := by rw [← BitVec.xor_assoc, BitVec.xor_self, BitVec.zero_xor]
  unfold isIntact
  rw [hone, beq_self_eq_true]

/-! ## Strings -/

/-- Printable, and no upper-case letter. -/
def IsPlain (c : Char) : Prop := (33 ≤ c.toNat ∧ c.toNat ≤ 126) ∧ c.toLower = c

instance (c : Char) : Decidable (IsPlain c) := inferInstanceAs (Decidable (_ ∧ _))

/-- A label that a string can have. -/
structure IsLabel (label : Text) : Prop where
  ne_nil : label ≠ []
  plain : ∀ c ∈ label, IsPlain c

/-- The characters of symbols are plain, and they differ from each other and from the one that
divides a string. -/
theorem char_spec : ∀ s : Symbol, IsPlain s.char ∧ s.char ≠ '1' ∧
    Symbol.ofChar? s.char = some s := by
  decide

section Strings

variable {label t : Text} {ss : List Symbol}

theorem one_notMem_map (ss : List Symbol) : '1' ∉ ss.map Symbol.char := by
  intro h
  rcases List.mem_map.mp h with ⟨s, -, hs⟩
  exact (char_spec s).2.1 hs

theorem mapM_ofChar? (ss : List Symbol) : (ss.map Symbol.char).mapM Symbol.ofChar? = some ss := by
  induction ss with
  | nil => rfl
  | cons s ss ih => simp [(char_spec s).2.2, ih]

/-- A text is divided at a `1` that no other one follows. -/
theorem divide?_append {before after : Text} (h : '1' ∉ after) :
    divide? (before ++ '1' :: after) = some (before, after) := by
  have hall : ∀ c ∈ after.reverse, (c != '1') = true := by
    intro c hc
    simp only [bne_iff_ne, ne_eq]
    rintro rfl
    exact h (List.mem_reverse.mp hc)
  have hsymbols : ((before ++ '1' :: after).reverse.takeWhile (· != '1')).reverse = after := by
    rw [List.reverse_append, List.reverse_cons, List.append_assoc,
      List.takeWhile_append_of_pos hall]
    simp
  have hbefore : (before ++ '1' :: after).length - after.length - 1 = before.length := by
    rw [List.length_append, List.length_cons]
    omega
  unfold divide?
  simp only [hsymbols, hbefore, List.take_left]
  rw [if_pos]
  rw [List.length_append, List.length_cons]
  omega

theorem plain_of_mem_encode (hlabel : IsLabel label) {c : Char} (h : c ∈ encode label ss) :
    IsPlain c := by
  rcases List.mem_append.mp h with h | h
  · exact hlabel.plain c h
  · rcases List.mem_cons.mp h with rfl | h
    · decide
    · rcases List.mem_map.mp h with ⟨s, -, rfl⟩
      exact (char_spec s).1

theorem map_toLower (h : ∀ c ∈ t, IsPlain c) : t.map Char.toLower = t :=
  (List.map_congr_left fun c hc => (h c hc).2).trans (List.map_id' t)

theorem isUniform_of_plain (h : ∀ c ∈ t, IsPlain c) : isUniform t = true := by
  have hprintable : t.all (fun c => 33 ≤ c.toNat && c.toNat ≤ 126) = true := by
    rw [List.all_eq_true]
    intro c hc
    simpa using (h c hc).1
  unfold isUniform
  rw [hprintable, map_toLower h, beq_self_eq_true, Bool.true_or, Bool.and_true]

theorem length_checksum (label : Text) (ss : List Symbol) : (checksum label ss).length = 6 := by
  rw [checksum_eq_digits, length_digits]

/-- A string is read as the label and the symbols it was made of. -/
theorem decode_encode (hlabel : IsLabel label) (ss : List Symbol) :
    decode (encode label ss) = some (label, ss) := by
  have hplain : ∀ c ∈ encode label ss, IsPlain c := fun c hc => plain_of_mem_encode hlabel hc
  have hdivide : divide? (encode label ss) =
      some (label, (ss ++ checksum label ss).map Symbol.char) := divide?_append (one_notMem_map _)
  have hlabel' : label.isEmpty = false := List.isEmpty_eq_false_iff.mpr hlabel.ne_nil
  have hlength : (ss ++ checksum label ss).length = ss.length + 6 := by
    rw [List.length_append, length_checksum]
  have henough : ¬ ((ss ++ checksum label ss).map Symbol.char).length < 6 := by
    rw [List.length_map, hlength]
    omega
  unfold decode
  simp only [isUniform_of_plain hplain, map_toLower hplain, hdivide, hlabel', henough, mapM_ofChar?,
    isIntact_checksum, hlength, Nat.add_sub_cancel, List.take_left]
  simp

end Strings

end Notemark.Address.Bech32
