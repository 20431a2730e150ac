import Notemark.Text.Utf8

/-!
# Text and its bytes

The bytes of a text are read back as the text. A code point of more than one byte is read in steps:

* `ofUtf8From_one`: a code point of one byte,
* `ofUtf8From_lead`, `ofUtf8From_next`, `ofUtf8From_last`: the first byte of a longer one, the bytes
  in between, and the last one,
* `ofUtf8From_utf8Char`: a code point of any length,
* `ofUtf8_utf8`: a text.
-/

namespace Notemark.Text

section Steps

variable {offset start left low high code n : Nat} {b first : UInt8} {bs : List UInt8}
variable {p : Utf8Partial}

theorem toNat_toUInt8 (h : n < 0x100) : n.toUInt8.toNat = n := by
  simp
  omega

theorem toNat_tail (n : Nat) : (0x80 + n % 0x40).toUInt8.toNat = 0x80 + n % 0x40 :=
  toNat_toUInt8 (by omega)

theorem ofUtf8From_one (h : n < 0x80) :
    ofUtf8From offset none (n.toUInt8 :: bs) =
      (ofUtf8From (offset + 1) none bs).map (Char.ofNat n :: ·) := by
  have hbyte : n.toUInt8.toNat = n := toNat_toUInt8 (by omega)
  rw [ofUtf8From]
  simp only [hbyte, if_pos h]

theorem ofUtf8From_lead (hb : 0x80 ≤ b.toNat) (h : utf8Lead? offset b = some p) :
    ofUtf8From offset none (b :: bs) = ofUtf8From (offset + 1) (some p) bs := by
  rw [ofUtf8From]
  simp only [if_neg (Nat.not_lt_of_le hb), h]

/-- A byte within the bounds brings six bits, and others follow. -/
theorem ofUtf8From_next (hlow : low ≤ 0x80 + n % 0x40) (hhigh : 0x80 + n % 0x40 ≤ high) :
    ofUtf8From offset (some ⟨start, first, left + 2, low, high, code⟩)
        ((0x80 + n % 0x40).toUInt8 :: bs) =
      ofUtf8From (offset + 1)
        (some ⟨start, first, left + 1, 0x80, 0xBF, code * 0x40 + n % 0x40⟩) bs := by
  rw [ofUtf8From]
  simp only [toNat_tail, hlow, hhigh, decide_true, Bool.and_self, if_true, Nat.add_sub_cancel_left]
  rw [if_neg (by omega)]
  rfl

theorem ofUtf8From_last (hlow : low ≤ 0x80 + n % 0x40) (hhigh : 0x80 + n % 0x40 ≤ high) :
    ofUtf8From offset (some ⟨start, first, 1, low, high, code⟩)
        ((0x80 + n % 0x40).toUInt8 :: bs) =
      (ofUtf8From (offset + 1) none bs).map (Char.ofNat (code * 0x40 + n % 0x40) :: ·) := by
  rw [ofUtf8From]
  simp only [toNat_tail, hlow, hhigh, decide_true, Bool.and_self, if_true, Nat.add_sub_cancel_left]
  rw [if_pos (Nat.le_refl 1)]

end Steps

/-- No code point is a surrogate. -/
theorem toNat_bounds (c : Char) : c.toNat < 0xD800 ∨ 0xDFFF < c.toNat ∧ c.toNat < 0x110000 :=
  c.valid

section Leads

variable {offset n : Nat}

theorem utf8Lead?_two (h : 0x80 ≤ n) (h' : n < 0x800) :
    utf8Lead? offset (0xC0 + n / 0x40).toUInt8 =
      some ⟨offset, (0xC0 + n / 0x40).toUInt8, 1, 0x80, 0xBF, n / 0x40⟩ := by
  have hbyte : (0xC0 + n / 0x40).toUInt8.toNat = 0xC0 + n / 0x40 := toNat_toUInt8 (by omega)
  unfold utf8Lead?
  simp only [hbyte]
  rw [if_neg (by omega), if_pos (by omega), Nat.add_sub_cancel_left]

/-- Three bytes: the smallest ones and the surrogates are kept out by the second byte. -/
theorem utf8Lead?_three (h : n < 0x10000) :
    utf8Lead? offset (0xE0 + n / 0x1000).toUInt8 =
      some ⟨offset, (0xE0 + n / 0x1000).toUInt8, 2, if n / 0x1000 = 0 then 0xA0 else 0x80,
        if n / 0x1000 = 0xD then 0x9F else 0xBF, n / 0x1000⟩ := by
  have hbyte : (0xE0 + n / 0x1000).toUInt8.toNat = 0xE0 + n / 0x1000 := toNat_toUInt8 (by omega)
  have hfirst : 0xE0 + n / 0x1000 = 0xE0 ↔ n / 0x1000 = 0 := by omega
  have hsurrogate : 0xE0 + n / 0x1000 = 0xED ↔ n / 0x1000 = 0xD := by omega
  unfold utf8Lead?
  simp only [hbyte, hfirst, hsurrogate]
  rw [if_neg (by omega), if_neg (by omega), if_pos (by omega), Nat.add_sub_cancel_left]

/-- Four bytes: the smallest and the largest ones are kept out by the second byte. -/
theorem utf8Lead?_four (h : n < 0x110000) :
    utf8Lead? offset (0xF0 + n / 0x40000).toUInt8 =
      some ⟨offset, (0xF0 + n / 0x40000).toUInt8, 3, if n / 0x40000 = 0 then 0x90 else 0x80,
        if n / 0x40000 = 4 then 0x8F else 0xBF, n / 0x40000⟩ := by
  have hbyte : (0xF0 + n / 0x40000).toUInt8.toNat = 0xF0 + n / 0x40000 :=
    toNat_toUInt8 (by omega)
  have hfirst : 0xF0 + n / 0x40000 = 0xF0 ↔ n / 0x40000 = 0 := by omega
  have hlast : 0xF0 + n / 0x40000 = 0xF4 ↔ n / 0x40000 = 4 := by omega
  unfold utf8Lead?
  simp only [hbyte, hfirst, hlast]
  rw [if_neg (by omega), if_neg (by omega), if_neg (by omega), if_pos (by omega),
    Nat.add_sub_cancel_left]

end Leads

/-- The bytes of a code point are read as the code point, whatever follows. -/
theorem ofUtf8From_utf8Char (c : Char) (offset : Nat) (bs : List UInt8) :
    ofUtf8From offset none (utf8Char c ++ bs) =
      (ofUtf8From (offset + (utf8Char c).length) none bs).map (c :: ·) := by
  have hbounds := toNat_bounds c
  have hchar : Char.ofNat c.toNat = c := Char.ofNat_toNat c
  generalize hn : c.toNat = n at hbounds hchar
  unfold utf8Char
  simp only [hn]
  -- One case for each number of bytes; the numbers are put together again by their digits.
  split
  · next h =>
    rw [List.singleton_append, ofUtf8From_one h, hchar]
    rfl
  · split
    · next h h' =>
      have hlead : 0x80 ≤ (0xC0 + n / 0x40).toUInt8.toNat := by
        rw [toNat_toUInt8 (by omega)]
        omega
      have hcode : n / 0x40 * 0x40 + n % 0x40 = n := by omega
      rw [List.cons_append, List.singleton_append,
        ofUtf8From_lead hlead (utf8Lead?_two (by omega) h'),
        ofUtf8From_last (by omega) (by omega), hcode, hchar]
      rfl
    · split
      · next h h' h'' =>
        have hlead : 0x80 ≤ (0xE0 + n / 0x1000).toUInt8.toNat := by
          rw [toNat_toUInt8 (by omega)]
          omega
        have hcode : (n / 0x1000 * 0x40 + n / 0x40 % 0x40) * 0x40 + n % 0x40 = n := by omega
        rw [List.cons_append, List.cons_append, List.singleton_append,
          ofUtf8From_lead hlead (utf8Lead?_three h''),
          ofUtf8From_next (by split <;> omega) (by split <;> omega),
          ofUtf8From_last (by omega) (by omega), hcode, hchar]
        rfl
      · next h h' h'' =>
        have hlead : 0x80 ≤ (0xF0 + n / 0x40000).toUInt8.toNat := by
          rw [toNat_toUInt8 (by omega)]
          omega
        have hcode : ((n / 0x40000 * 0x40 + n / 0x1000 % 0x40) * 0x40 + n / 0x40 % 0x40) * 0x40 +
            n % 0x40 = n := by omega
        rw [List.cons_append, List.cons_append, List.cons_append, List.singleton_append,
          ofUtf8From_lead hlead (utf8Lead?_four (by omega)),
          ofUtf8From_next (by split <;> omega) (by split <;> omega),
          ofUtf8From_next (by omega) (by omega), ofUtf8From_last (by omega) (by omega), hcode, hchar]
        rfl

theorem ofUtf8From_utf8 (t : Text) (offset : Nat) : ofUtf8From offset none (utf8 t) = .ok t := by
  induction t generalizing offset with
  | nil => rfl
  | cons c cs ih =>
    rw [utf8, List.flatMap_cons, ofUtf8From_utf8Char]
    have hrest : ofUtf8From (offset + (utf8Char c).length) none (cs.flatMap utf8Char) = .ok cs :=
      ih _
    rw [hrest]
    rfl

/-- The bytes of a text are read as the text. -/
theorem ofUtf8_utf8 (t : Text) : ofUtf8 (utf8 t) = .ok t := ofUtf8From_utf8 t 0

end Notemark.Text
