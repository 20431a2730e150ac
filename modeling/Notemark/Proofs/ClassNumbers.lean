import Mathlib.Algebra.Group.Nat.Defs
import Mathlib.Data.List.TakeWhile
import Notemark.Proofs.StylePass
import Notemark.Proofs.Text

/-!
# Numbers in classes

A class may carry a number, and the number of an opacity is divided by a hundred.

* `Double.succ_le_roundDiv_iff`: from which quotient on rounding reaches an even number,
* `Double.ofRatio_hundred`: from which number on a hundredth is beyond every double,
* `wordFault?_eq_tooLarge_iff`: the classes whose number is too large, `oversized_nines`: some of
  these,
* `textFault?_eq`: the fault of a list of classes is that of the first class that has one.
-/

namespace Notemark

namespace Decimal.Double

/-! ## Rounding -/

/-- Halves go to the even neighbour, so what follows an odd number is reached from the half on. -/
theorem succ_le_roundDiv_iff {num den k : Nat} (hden : 0 < den) (hodd : k % 2 = 1) :
    k + 1 ≤ roundDiv num den ↔ 2 * (k * den) + den ≤ 2 * num := by
  have hnum : num / den * den + num % den = num := Nat.div_add_mod' num den
  have hrem : num % den < den := Nat.mod_lt num hden
  unfold roundDiv
  dsimp only
  generalize num / den = q at hnum
  generalize num % den = r at hnum hrem
  subst hnum
  rcases Nat.lt_trichotomy q k with hq | rfl | hq
  · -- Rounding adds at most one.
    have hmul : (q + 1) * den ≤ k * den := Nat.mul_le_mul_right den hq
    rw [Nat.add_mul, Nat.one_mul] at hmul
    split
    · omega
    · split
      · omega
      · split
        · omega
        · omega
  · split
    · omega
    · split
      · omega
      · rw [if_neg (by omega)]
        omega
  · have hmul : (k + 1) * den ≤ q * den := Nat.mul_le_mul_right den hq
    rw [Nat.add_mul, Nat.one_mul] at hmul
    split
    · omega
    · split
      · omega
      · split
        · omega
        · omega

/-- Which quotients are beyond every double, in terms of the first exponent that is tried. -/
theorem ofRatio_eq_infinite_iff {num den : Nat} (hnum : num ≠ 0) (hden : den ≠ 0) {start : Int}
    (hstart : start = if (Nat.log2 num : Int) - (Nat.log2 den : Int) - 53 < leastExponent then
      leastExponent else (Nat.log2 num : Int) - (Nat.log2 den : Int) - 53) (negative : Bool) :
    ofRatio negative num den = .infinite negative ↔
      if scaled num den start < mantissaBound then greatestExponent < start
      else if scaled num den (start + 1) < mantissaBound then greatestExponent < start + 1
      else greatestExponent < start + 1 + 1 := by
  unfold ofRatio
  rw [if_neg (by simp [hnum, hden])]
  dsimp only
  rw [← hstart]
  by_cases hfirst : scaled num den start < mantissaBound
  · simp only [if_pos hfirst]
    split <;> simp_all
  · simp only [if_neg hfirst]
    by_cases hsecond : scaled num den (start + 1) < mantissaBound
    · simp only [if_pos hsecond]
      split <;> simp_all
    · simp only [if_neg hsecond]
      split <;> simp_all

theorem eq_of_ofRatio_eq_infinite {negative sign : Bool} {num den : Nat}
    (h : ofRatio negative num den = .infinite sign) : sign = negative := by
  have hlast : ∀ (big : Prop) [Decidable big] (m : Nat) (e : Int),
      (if big then Double.infinite negative else .finite negative m e) = .infinite sign →
        sign = negative := by
    intro big _ m e h
    split at h
    · exact (Double.infinite.inj h).symm
    · simp at h
  unfold ofRatio at h
  split at h
  · simp [zero] at h
  · exact hlast _ _ _ h

/-- From which number on a hundredth is beyond every double: it lies half way between the greatest
double and the next power of two, or above. -/
def hundredthsBound : Nat := 100 * (2 ^ 54 - 1) * 2 ^ 970

theorem scaled_hundred (n e : Nat) : scaled n 100 (e + 1) = roundDiv n (200 * 2 ^ e) := by
  have hdivisor : 100 * Nat.pow 2 ((e : Int) + 1).toNat = 200 * 2 ^ e := by
    change 100 * 2 ^ (e + 1) = _
    rw [Nat.pow_succ]
    omega
  rw [scaled, if_pos (by omega), hdivisor]

theorem mantissaBound_le_iff (n : Nat) {unit : Nat} (hunit : 0 < unit) :
    mantissaBound ≤ roundDiv n (200 * unit) ↔ 100 * (2 ^ 54 - 1) * unit ≤ n := by
  change 9007199254740991 + 1 ≤ roundDiv n (200 * unit) ↔ _
  rw [succ_le_roundDiv_iff (by omega) (by decide)]
  omega

/-- A hundredth of a number is beyond every double from the bound on. The exponent has a name so
that the power is not computed. -/
theorem ofRatio_hundred {e : Nat} (he : e = 970) (n : Nat) :
    ofRatio false n 100 = .infinite false ↔ 100 * (2 ^ 54 - 1) * 2 ^ e ≤ n := by
  have hunit : 0 < 2 ^ e := Nat.two_pow_pos e
  by_cases hn : n = 0
  · subst hn
    exact iff_of_false (by decide) (by omega)
  · have hlow : 2 ^ n.log2 ≤ n := Nat.log2_self_le hn
    have hhigh : n < 2 ^ (n.log2 + 1) := Nat.lt_log2_self
    have hlog : Nat.log2 100 = 6 := by decide
    have hlast : mantissaBound ≤ scaled n 100 (e + 1) ↔ 100 * (2 ^ 54 - 1) * 2 ^ e ≤ n := by
      rw [scaled_hundred n e]
      exact mantissaBound_le_iff n hunit
    obtain ⟨start, hstart⟩ : ∃ start : Int, start =
        if (Nat.log2 n : Int) - (Nat.log2 100 : Int) - 53 < leastExponent then leastExponent
        else (Nat.log2 n : Int) - (Nat.log2 100 : Int) - 53 := ⟨_, rfl⟩
    rw [ofRatio_eq_infinite_iff hn (by decide) hstart]
    rw [hlog] at hstart
    unfold leastExponent at hstart
    unfold greatestExponent
    rcases Nat.lt_trichotomy n.log2 (e + 60) with hlt | heq | hgt
    · -- Too few digits: the exponent that is tried first is small.
      have hbelow : n < 2 ^ 60 * 2 ^ e := by
        calc n < 2 ^ (n.log2 + 1) := hhigh
          _ ≤ 2 ^ (60 + e) := Nat.pow_le_pow_right (by decide) (by omega)
          _ = 2 ^ 60 * 2 ^ e := Nat.pow_add 2 60 e
      have hnot : ¬ 100 * (2 ^ 54 - 1) * 2 ^ e ≤ n := by omega
      have hstart' : start ≤ e := by split at hstart <;> omega
      apply iff_of_false ?_ hnot
      split
      · omega
      · split
        · omega
        · next hsecond =>
          intro hbig
          have hthis : start = e := by omega
          rw [hthis] at hsecond
          exact hnot (hlast.mp (Nat.le_of_not_lt hsecond))
    · -- One digit in the last place decides.
      have hstart' : start = e + 1 := by split at hstart <;> omega
      rw [hstart', ← hlast]
      split
      · next hfirst => exact iff_of_false (by omega) (by omega)
      · next hfirst =>
        have hreached := Nat.le_of_not_lt hfirst
        split
        · exact iff_of_true (by omega) hreached
        · exact iff_of_true (by omega) hreached
    · -- Too many digits: the exponent that is tried first is too large.
      have habove : 2 ^ 61 * 2 ^ e ≤ n := by
        calc 2 ^ 61 * 2 ^ e = 2 ^ (61 + e) := (Nat.pow_add 2 61 e).symm
          _ ≤ 2 ^ n.log2 := Nat.pow_le_pow_right (by decide) (by omega)
          _ ≤ n := hlow
      have hstart' : (e : Int) + 2 ≤ start := by split at hstart <;> omega
      apply iff_of_true ?_ (by omega)
      split
      · omega
      · split
        · omega
        · omega

end Decimal.Double

/-! ## One class -/

namespace Style

open Decimal (Double)

/-- What is wrong with one class. -/
def wordFault? (word : Text) : Option ClassFault :=
  match declarations word with
  | .ok _ => none
  | .error f => some f

/-- An opacity whose hundredth is beyond every double. -/
def Oversized (word : Text) : Prop :=
  ∃ digits rest n, Text.splitOn '-' word = ['o', 'p', 'a', 'c', 'i', 't', 'y'] :: digits :: rest ∧
    digits.length ≤ Text.mostDigits ∧ Text.decimalNumber? digits = some n ∧
    Double.hundredthsBound ≤ n

theorem hundredths_eq_error_iff {n : Nat} {f : ClassFault} :
    hundredths n = .error f ↔ f = .tooLarge ∧ Double.hundredthsBound ≤ n := by
  have hbound : Double.ofRatio false n 100 = .infinite false ↔ Double.hundredthsBound ≤ n := by
    rw [Double.hundredthsBound]
    exact Double.ofRatio_hundred rfl n
  rw [← hbound]
  unfold hundredths
  split
  · next sign hsign =>
    obtain rfl := Double.eq_of_ofRatio_eq_infinite hsign
    simp [hsign, eq_comm]
  · next hfinite =>
    constructor
    · intro h
      simp at h
    · rintro ⟨-, hinfinite⟩
      exact absurd hinfinite (hfinite false)

theorem all_decimal_of_decimalNumberFrom {digits : Text} {start n : Nat}
    (h : Text.decimalNumberFrom start digits = some n) :
    ∀ c ∈ digits, (Text.decimalValue? c).isSome := by
  induction digits generalizing start with
  | nil => simp
  | cons c digits ih =>
    rw [Text.decimalNumberFrom] at h
    cases hc : Text.decimalValue? c with
    | none => simp [hc] at h
    | some d =>
      rw [hc] at h
      intro x hx
      rcases List.mem_cons.mp hx with rfl | hx
      · simp [hc]
      · exact ih h x hx

theorem leadingDecimals_of_decimalNumber? {digits : Text} {n : Nat}
    (h : Text.decimalNumber? digits = some n) : leadingDecimals digits = digits.length := by
  have hall : ∀ c ∈ digits, (Text.decimalValue? c).isSome = true := by
    cases digits with
    | nil => simp
    | cons c cs => exact all_decimal_of_decimalNumberFrom h
  rw [leadingDecimals, List.takeWhile_eq_self_iff.mpr hall]

theorem classNumber_eq_ok_iff {digits : Text} {n : Nat} :
    classNumber digits = .ok n ↔
      digits.length ≤ Text.mostDigits ∧ Text.decimalNumber? digits = some n := by
  unfold classNumber
  split
  · next hlong =>
    constructor
    · intro h
      simp at h
    · rintro ⟨hshort, hn⟩
      rw [leadingDecimals_of_decimalNumber? hn] at hlong
      omega
  · next hshort =>
    cases hn : Text.decimalNumber? digits with
    | none => simp
    | some m =>
      rw [leadingDecimals_of_decimalNumber? hn] at hshort
      simp [Nat.le_of_not_lt hshort]

theorem classNumber_ne_tooLarge (digits : Text) : classNumber digits ≠ .error .tooLarge := by
  unfold classNumber
  split
  · simp
  · split
    · simp
    · simp

/-- The number of an opacity has decimal digits only. -/
theorem isNumeric_of_decimalNumber? {digits : Text} {n : Nat}
    (h : Text.decimalNumber? digits = some n) : isNumeric digits = true := by
  cases digits with
  | nil => simp [Text.decimalNumber?] at h
  | cons c cs =>
    have hall := all_decimal_of_decimalNumberFrom h
    simp only [isNumeric, List.isEmpty_cons, Bool.not_false, Bool.true_and, List.all_eq_true]
    intro d hd
    rw [Text.isDigit, hall d hd, Bool.true_or]

/-- A class fails with a number that is too large only for an opacity. -/
theorem declarationsOf_eq_tooLarge_iff {palette : Palette} {head arg : String}
    {rest : List String} {alone : Bool} :
    declarationsOf palette head arg rest alone = .error .tooLarge ↔
      head = "opacity" ∧ isNumeric arg.toList = true ∧
        ∃ n, classNumber arg.toList = .ok n ∧ hundredths n = .error .tooLarge := by
  constructor
  · intro h
    unfold declarationsOf at h
    dsimp only at h
    split at h
    case h_16 =>
      split at h
      · next hnumeric =>
        rcases bind_eq_error_iff.mp h with hdigits | ⟨n, hn, hset⟩
        · exact absurd hdigits (classNumber_ne_tooLarge _)
        · rcases bind_eq_error_iff.mp hset with hlarge | ⟨setting, -, hpure⟩
          · exact ⟨rfl, hnumeric, n, hn, hlarge⟩
          · simp [pure, Except.pure] at hpure
      · simp at h
    case h_17 =>
      split at h
      · rcases bind_eq_error_iff.mp h with hdigits | ⟨n, -, hpure⟩
        · exact absurd hdigits (classNumber_ne_tooLarge _)
        · simp [pure, Except.pure] at hpure
      · simp at h
    -- No other class reads a number.
    all_goals
      repeat' split at h
      all_goals simp at h
  · rintro ⟨rfl, hnumeric, n, hn, hlarge⟩
    simp [declarationsOf, hnumeric, hn, hlarge, bind, Except.bind]

theorem declarations_eq_tooLarge_iff {word : Text} :
    declarations word = .error .tooLarge ↔ Oversized word := by
  have hopacity : ∀ head : Text,
      String.ofList head = "opacity" ↔ head = ['o', 'p', 'a', 'c', 'i', 't', 'y'] := by
    intro head
    rw [show "opacity" = String.ofList ['o', 'p', 'a', 'c', 'i', 't', 'y'] by decide,
      String.ofList_inj]
  unfold declarations Oversized
  cases hsplit : Text.splitOn '-' word with
  | nil => simp
  | cons head tail =>
    cases tail with
    | nil =>
      -- A class without a number is no number.
      simp [declarationsOf_eq_tooLarge_iff, isNumeric]
    | cons digits rest =>
      simp only [List.map_cons, declarationsOf_eq_tooLarge_iff, String.toList_ofList,
        classNumber_eq_ok_iff, hundredths_eq_error_iff, hopacity, List.cons.injEq]
      constructor
      · rintro ⟨rfl, -, n, ⟨hlength, hn⟩, -, hbound⟩
        exact ⟨digits, rest, n, ⟨rfl, rfl, rfl⟩, hlength, hn, hbound⟩
      · rintro ⟨_, _, n, ⟨rfl, rfl, rfl⟩, hlength, hn, hbound⟩
        exact ⟨rfl, isNumeric_of_decimalNumber? hn, n, ⟨hlength, hn⟩, trivial, hbound⟩

theorem wordFault?_eq_tooLarge_iff {word : Text} :
    wordFault? word = some .tooLarge ↔ Oversized word := by
  rw [← declarations_eq_tooLarge_iff, wordFault?]
  cases declarations word with
  | ok new => simp
  | error f => simp

/-- An opacity that is written with nines. -/
def ninesOpacity (n : Nat) : Text :=
  ['o', 'p', 'a', 'c', 'i', 't', 'y', '-'] ++ List.replicate n '9'

theorem decimalNumberFrom_nines (start n : Nat) :
    Text.decimalNumberFrom start (List.replicate n '9') = some ((start + 1) * 10 ^ n - 1) := by
  induction n generalizing start with
  | zero => simp [Text.decimalNumberFrom]
  | succ n ih =>
    have hnine : Text.decimalValue? '9' = some 9 := by decide
    have hshift : start * 10 + 9 + 1 = (start + 1) * 10 := by omega
    rw [List.replicate_succ, Text.decimalNumberFrom, hnine]
    change Text.decimalNumberFrom (start * 10 + 9) (List.replicate n '9') = _
    rw [ih, hshift, Nat.pow_succ', Nat.mul_assoc]

/-- There are oversized opacities that are short enough to be read as numbers. -/
theorem oversized_nines {n : Nat} (hlow : 311 ≤ n) (hhigh : n ≤ Text.mostDigits) :
    Oversized (ninesOpacity n) := by
  have hsplit : Text.splitOn '-' (List.replicate n '9') = [List.replicate n '9'] := by
    apply Text.splitOn_of_notMem
    simp
  have hbound : Double.hundredthsBound ≤ 10 ^ 311 - 1 := by decide +kernel
  have hpow : ∀ k ≤ n, 10 ^ k - 1 ≤ 10 ^ n - 1 := by
    intro k hk
    exact Nat.sub_le_sub_right (Nat.pow_le_pow_right (by decide) hk) 1
  refine ⟨List.replicate n '9', [], 10 ^ n - 1, ?_, by simpa using hhigh, ?_, ?_⟩
  · simp [ninesOpacity, Text.splitOn, hsplit]
  · obtain ⟨m, rfl⟩ : ∃ m, n = m + 1 := ⟨n - 1, by omega⟩
    have hnumber := decimalNumberFrom_nines 0 (m + 1)
    rw [Nat.zero_add, Nat.one_mul] at hnumber
    exact hnumber
  · exact Nat.le_trans hbound (hpow 311 hlow)

/-! ## Lists of classes -/

/-- The fault of a list of classes is that of the first class that has one. -/
theorem textFault?_eq (classes : Text) :
    textFault? classes = (Text.words classes).findSome? wordFault? := by
  have happly : ∀ (words : List Text) (style : Properties),
      (match applyClasses style words with
        | .ok _ => none
        | .error f => some f) = words.findSome? wordFault? := by
    intro words
    induction words with
    | nil => intro style; rfl
    | cons word words ih =>
      intro style
      rw [applyClasses, List.findSome?_cons, wordFault?]
      cases declarations word with
      | error f => rfl
      | ok new => exact ih (style.update new)
  rw [← happly (Text.words classes) [], textFault?, styleOf?]
  cases applyClasses [] (Text.words classes) with
  | error f => rfl
  | ok style => rfl

end Style

end Notemark
