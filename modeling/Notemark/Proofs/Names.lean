import Notemark.Proofs.TagForms
import Notemark.Proofs.Text

/-!
# Names

What the characters of a name are not, and the names of containers:

* `ne_of_isElementChar`, `not_blank_of_isElementChar`: no character of a name has a meaning in a
  tag, and none is blank,
* `checkElementName`: strict reading accepts names,
* `Container.ofName?_name`, `Container.name_of_ofName?`: names and containers stand for each other.
-/

namespace Notemark.Body

/-! ## Characters of names -/

section Names

variable {c : Char} {name : Text}

theorem isElementChar_ranges (h : isElementChar c = true) :
    48 ≤ c.toNat ∧ c.toNat ≤ 57 ∨ 65 ≤ c.toNat ∧ c.toNat ≤ 90 ∨ 97 ≤ c.toNat ∧ c.toNat ≤ 122 ∨
      c.toNat = 95 ∨ c.toNat = 45 := by
  have hupper : c.isUpper = decide ('A'.val ≤ c.val ∧ c.val ≤ 'Z'.val) := rfl
  have hlower : c.isLower = (decide ('a'.val ≤ c.val) && decide (c.val ≤ 'z'.val)) := rfl
  have hdigit : c.isDigit = (decide ('0'.val ≤ c.val) && decide (c.val ≤ '9'.val)) := rfl
  have halpha : c.isAlpha = (c.isUpper || c.isLower) := rfl
  have hval : c.val.toNat = c.toNat := rfl
  simp only [isElementChar, Char.isAlphanum, halpha, hupper, hlower, hdigit, Bool.or_eq_true,
    Bool.and_eq_true, decide_eq_true_eq, beq_iff_eq, UInt32.le_iff_toNat_le, hval] at h
  rcases h with (((⟨h₁, h₂⟩ | ⟨h₁, h₂⟩) | ⟨h₁, h₂⟩) | rfl) | rfl
  · exact Or.inr (Or.inl ⟨h₁, h₂⟩)
  · exact Or.inr (Or.inr (Or.inl ⟨h₁, h₂⟩))
  · exact Or.inl ⟨h₁, h₂⟩
  · exact Or.inr (Or.inr (Or.inr (Or.inl rfl)))
  · exact Or.inr (Or.inr (Or.inr (Or.inr rfl)))

theorem not_blank_of_isElementChar (h : isElementChar c = true) : Text.isBlank c = false := by
  have hranges := isElementChar_ranges h
  simp only [Text.isBlank, Bool.or_eq_false_iff, Bool.and_eq_false_iff, decide_eq_false_iff_not,
    beq_eq_false_iff_ne]
  omega

/-- A character of a name is none of the characters that have a meaning in a tag. -/
theorem ne_of_isElementChar (h : isElementChar c = true) :
    c ≠ '"' ∧ c ≠ ']' ∧ c ≠ '\\' ∧ c ≠ '=' ∧ c ≠ '\r' ∧ endsName c = false := by
  -- Each of these characters fails the test of a name when it is evaluated.
  have hends : endsName c = false := by
    simp only [endsName, Bool.or_eq_false_iff, beq_eq_false_iff_ne]
    refine ⟨⟨⟨?_, ?_⟩, ?_⟩, ?_⟩ <;> rintro rfl <;> exact absurd h (by decide)
  refine ⟨?_, ?_, ?_, ?_, ?_, hends⟩ <;> rintro rfl <;> exact absurd h (by decide)

/-- A name of some kind is made of the characters of element names. -/
theorem isElementChar_of_isName {first rest : Char → Bool} {n : Text}
    (hfirst : ∀ c, first c = true → isElementChar c = true)
    (hrest : ∀ c, rest c = true → isElementChar c = true) (h : isName first rest n = true) :
    ∀ c ∈ n, isElementChar c = true := by
  cases n with
  | nil => simp [isName] at h
  | cons d ds =>
    simp only [isName, Bool.and_eq_true, List.all_eq_true] at h
    intro c hc
    rcases List.mem_cons.mp hc with rfl | hc
    · exact hfirst c h.1
    · exact hrest c (h.2 c hc)

theorem isElementChar_of_isAlpha (h : c.isAlpha = true) : isElementChar c = true := by
  simp [isElementChar, Char.isAlphanum, h]

theorem elementChars_of_isName {n : Text} (h : isName Char.isAlpha isElementChar n = true) :
    ∀ c ∈ n, isElementChar c = true :=
  isElementChar_of_isName (fun _ => isElementChar_of_isAlpha) (fun _ hc => hc) h

theorem isElementChar_of_isEventHead (h : isEventHead c = true) : isElementChar c = true := by
  simp only [isEventHead, Bool.or_eq_true] at h
  simp only [isElementChar, Char.isAlphanum, Bool.or_eq_true]
  rcases h with h | h
  · exact Or.inl (Or.inl (Or.inl h))
  · exact Or.inl (Or.inr h)

theorem isElementChar_of_isEventChar (h : isEventChar c = true) : isElementChar c = true := by
  simp only [isEventChar, Bool.or_eq_true] at h
  simp only [isElementChar, Bool.or_eq_true]
  exact Or.inl h

theorem backslash_notMem_of_elementChars {a : Text} (h : ∀ c ∈ a, isElementChar c = true) :
    '\\' ∉ a := fun hmem => absurd (h _ hmem) (by decide)

theorem strip_of_isName (h : isName Char.isAlpha isElementChar name = true) :
    Text.strip name = name := by
  refine Text.strip_of_not_blank ?_
  intro c hc
  have hchars := elementChars_of_isName h
  exact not_blank_of_isElementChar (hchars c hc)

theorem ne_nil_of_isName {first other : Char → Bool} (h : isName first other name = true) :
    name ≠ [] := by
  rintro rfl
  simp [isName] at h

theorem checkElementName (h : isName Char.isAlpha isElementChar name = true) :
    Check.elementName name = .ok () := by
  have hchars := elementChars_of_isName h
  have hblank : Text.allBlank name = false :=
    Text.allBlank_eq_false_of_strip (strip_of_isName h) (ne_nil_of_isName h)
  have hnewline : '\n' ∉ name := by
    intro hmem
    exact absurd (hchars _ hmem) (by decide)
  have hreturn : '\r' ∉ name := by
    intro hmem
    exact absurd (hchars _ hmem) (by decide)
  simp [Check.elementName, hblank, hnewline, hreturn, matchesName, h]

end Names

/-! ## Names of containers -/

theorem Container.ofName?_name (c : Container) : Container.ofName? c.name = some c := by
  cases c <;> rfl

theorem Container.name_of_ofName? {name : Text} {c : Container}
    (h : Container.ofName? name = some c) : c.name = name := by
  simpa using List.find?_some h

theorem Container.name_not_selfClosing (c : Container) : selfClosing.contains c.name = false := by
  cases c <;> decide

theorem TagKind.name_of_ofName {name : Text} {c : Container}
    (h : TagKind.ofName name = .container c) : c.name = name := by
  unfold TagKind.ofName at h
  split at h
  · next c' hc' =>
    obtain rfl : c' = c := by simpa using h
    exact Container.name_of_ofName? hc'
  · split at h <;> simp at h

theorem Container.isName_name (c : Container) :
    isName Char.isAlpha isElementChar c.name = true := by
  cases c <;> decide

theorem Container.name_chars (c : Container) : ∀ d ∈ c.name, isElementChar d = true :=
  elementChars_of_isName c.isName_name

theorem TagKind.ofName_name (c : Container) : TagKind.ofName c.name = .container c := by
  cases c <;> rfl

end Notemark.Body
