import Mathlib.Data.List.Induction
import Notemark.Address.Bech32

/-!
# Bits in groups of five and of eight

Bytes are written as symbols by taking their bits five at a time, with zeros to fill up the last
symbol, and read back by taking the bits eight at a time. This module holds

* `bits_ofBits`, `ofBits_bits`: a number and its bits,
* `groups_flatten`: groups put in a row are found again, with what is left over,
* `exists_groups`: every row of bits is such a row of groups,
* `flatMap_bits_ofBytes`: symbols have the bits of their bytes, and fewer than five zeros behind,
* `toBytes?_ofBytes`: the bytes are read back.
-/

namespace Notemark.Address.Bech32

/-! ## A number and its bits -/

/-- The number with these bits, highest first. -/
def number (bs : List Bool) : Nat := bs.foldl (fun n b => 2 * n + b.toNat) 0

section Bits

variable {w : Nat} {bs : List Bool}

/-- Each bit doubles what stands before it. -/
theorem testBit_number (bs : List Bool) (i : Nat) :
    (number bs).testBit i = bs.reverse.getD i false := by
  induction bs using List.reverseRecOn generalizing i with
  | nil => simp [number]
  | append_singleton bs b ih =>
    have hsnoc : number (bs ++ [b]) = 2 * number bs + b.toNat := List.foldl_append
    rw [hsnoc, List.reverse_append]
    cases i with
    | zero => cases b <;> simp
    | succ i =>
      have hhalf : (2 * number bs + b.toNat) / 2 = number bs := by
        cases b <;> simp
        omega
      rw [Nat.testBit_succ, hhalf, ih]
      rfl

theorem length_bits (x : BitVec w) : (bits x).length = w := by simp [bits]

theorem bits_ofBits (h : bs.length = w) : bits (ofBits w bs) = bs := by
  have hnumber : ofBits w bs = BitVec.ofNat w (number bs) := rfl
  subst h
  apply List.ext_getElem (length_bits _)
  intro i hi hi'
  have hplace : bs.length - 1 - i < bs.length := by omega
  have hback : bs.length - 1 - (bs.length - 1 - i) = i := by omega
  have hbit : (number bs).testBit (bs.length - 1 - i) = bs[i] := by
    rw [testBit_number, List.getD_eq_getElem?_getD, List.getElem?_reverse hplace]
    simp [hback, hi']
  simp only [bits, List.getElem_map, List.getElem_range, hnumber, BitVec.getMsbD,
    BitVec.getLsbD_ofNat, hbit]
  simp [hi', hplace]

theorem ofBits_bits (x : BitVec w) : ofBits w (bits x) = x := by
  have hbits : bits (ofBits w (bits x)) = bits x := bits_ofBits (length_bits x)
  apply BitVec.eq_of_getMsbD_eq
  intro i hi
  have hget := congrArg (·[i]?) hbits
  simpa [bits, hi] using hget

end Bits

/-! ## Groups -/

section Groups

variable {size : Nat} {gs : List (List Bool)} {g rest : List Bool}

/-- Bits that do not make up a group are left over. -/
theorem groups_short (current bs : List Bool) (h : current.length + bs.length < size) :
    groups size current bs = ([], current.reverse ++ bs) := by
  induction bs generalizing current with
  | nil => simp [groups]
  | cons b bs ih =>
    rw [List.length_cons] at h
    rw [groups, if_neg (by omega), ih (b :: current) (by rw [List.length_cons]; omega)]
    simp

/-- Bits that make up a group are one, and the others are grouped behind it. -/
theorem groups_append (current bs later : List Bool) (hbs : bs ≠ [])
    (h : current.length + bs.length = size) :
    groups size current (bs ++ later) =
      ((current.reverse ++ bs) :: (groups size [] later).1, (groups size [] later).2) := by
  induction bs generalizing current with
  | nil => exact absurd rfl hbs
  | cons b bs ih =>
    rw [List.length_cons] at h
    rw [List.cons_append, groups]
    cases bs with
    | nil =>
      rw [if_pos (by simpa using h)]
      simp
    | cons b' bs =>
      rw [if_neg (by rw [List.length_cons] at h; omega),
        ih (b :: current) (by simp) (by simp only [List.length_cons] at h ⊢; omega)]
      simp

theorem groups_flatten (hgs : ∀ g ∈ gs, g.length = size) (hrest : rest.length < size) :
    groups size [] (gs.flatten ++ rest) = (gs, rest) := by
  induction gs with
  | nil => simpa using groups_short [] rest (by simpa using hrest)
  | cons g gs ih =>
    have hg : g.length = size := hgs g List.mem_cons_self
    have hne : g ≠ [] := List.ne_nil_of_length_pos (by omega)
    rw [List.flatten_cons, List.append_assoc,
      groups_append [] g _ hne (by simpa using hg),
      ih fun g' hg' => hgs g' (List.mem_cons_of_mem g hg')]
    simp

theorem exists_groups (hsize : 0 < size) (bs : List Bool) :
    ∃ (gs : List (List Bool)) (rest : List Bool),
      bs = gs.flatten ++ rest ∧ (∀ g ∈ gs, g.length = size) ∧ rest.length < size := by
  induction hn : bs.length using Nat.strongRecOn generalizing bs with
  | ind n ih =>
    by_cases hshort : bs.length < size
    · exact ⟨[], bs, rfl, by simp, hshort⟩
    · have hlt : (bs.drop size).length < n := by
        rw [← hn, List.length_drop]
        omega
      rcases ih _ hlt (bs.drop size) rfl with ⟨gs, rest, hdrop, hgs, hrest⟩
      refine ⟨bs.take size :: gs, rest, ?_, ?_, hrest⟩
      · rw [List.flatten_cons, List.append_assoc, ← hdrop, List.take_append_drop]
      · intro g hg
        rcases List.mem_cons.mp hg with rfl | hg
        · exact List.length_take_of_le (by omega)
        · exact hgs g hg

end Groups

/-! ## Bytes -/

theorem flatMap_bits_map_ofBits {w : Nat} {gs : List (List Bool)} (h : ∀ g ∈ gs, g.length = w) :
    (gs.map (ofBits w)).flatMap bits = gs.flatten := by
  induction gs with
  | nil => rfl
  | cons g gs ih =>
    rw [List.map_cons, List.flatMap_cons, bits_ofBits (h g List.mem_cons_self),
      ih fun g' hg' => h g' (List.mem_cons_of_mem g hg'), List.flatten_cons]

/-- Symbols have the bits of the bytes that they stand for, and fewer than five zeros behind them. -/
theorem flatMap_bits_ofBytes (bytes : List UInt8) :
    ∃ n < 5, (ofBytes bytes).flatMap bits =
      (bytes.flatMap fun b => bits b.toBitVec) ++ List.replicate n false := by
  rcases exists_groups (by decide : 0 < 5) (bytes.flatMap fun b => bits b.toBitVec) with
    ⟨gs, rest, hbits, hgs, hrest⟩
  unfold ofBytes
  rw [hbits, groups_flatten hgs hrest]
  dsimp only
  -- A last symbol is filled up with zeros only if some bits are left over.
  by_cases hempty : rest = []
  · subst hempty
    refine ⟨0, by decide, ?_⟩
    simp [flatMap_bits_map_ofBits hgs]
  · have hpos := List.length_pos_iff.mpr hempty
    refine ⟨5 - rest.length, by omega, ?_⟩
    have hlast : (rest ++ List.replicate (5 - rest.length) false).length = 5 := by
      rw [List.length_append, List.length_replicate]
      omega
    rw [List.isEmpty_eq_false_iff.mpr hempty, List.flatMap_append, flatMap_bits_map_ofBits hgs]
    simp [bits_ofBits hlast]

/-- Bytes are read back from their symbols. -/
theorem toBytes?_ofBytes (bytes : List UInt8) : toBytes? (ofBytes bytes) = some bytes := by
  rcases flatMap_bits_ofBytes bytes with ⟨n, hn, hbits⟩
  have hgroups : ∀ g ∈ bytes.map fun b => bits b.toBitVec, g.length = 8 := by
    intro g hg
    rcases List.mem_map.mp hg with ⟨b, -, rfl⟩
    exact length_bits _
  -- The zeros behind the bits are too few for another byte.
  have hrest : (List.replicate n false).length < 8 := by
    rw [List.length_replicate]
    omega
  unfold toBytes?
  rw [hbits, List.flatMap_def, groups_flatten hgroups hrest]
  simp [hn, Function.comp_def, ofBits_bits]

end Notemark.Address.Bech32
