import Notemark.Proofs.ClassNumbers
import Notemark.Proofs.ClassStyles

/-!
# Supported classes

Which classes set something, which set nothing, and which cannot be converted.

* `Supported`: the classes that set properties, by the parts between their hyphens,
* `Unreadable`: a number of digits that cannot be taken,
* `sorted`: every class is of one of the two kinds, or sets nothing,
* `conversion_total_iff`: classes are converted exactly if none of them is unreadable, and what is
  not supported is passed over with the same exception.
-/

namespace Notemark.Style

open Decimal (Double)

/-! ## Kinds of classes -/

/-- The parts of a class between its hyphens. -/
def parts (word : Text) : List String := (Text.splitOn '-' word).map String.ofList

/-- Digits that stand for a number, which has to stay below a bound. -/
def Readable (digits : Text) (bound : Option Nat) : Prop :=
  digits.length ≤ Text.mostDigits ∧
    ∃ n, Text.decimalNumber? digits = some n ∧ ∀ b ∈ bound, n < b

/-- The families of classes with a number, each with the bound of its numbers. -/
def numberBounds : List (String × Option Nat) :=
  [("opacity", some Double.hundredthsBound), ("z", none)]

/-- What stands behind the first hyphen of a class; nothing, if there is none. -/
def argument (args : List String) : String := args.headD ""

/-- The classes that set properties. -/
inductive Supported : List String → Prop where
  | flex : Supported ["flex"]
  | direction {args : List String} (h : argument args ∈ ["row", "col"]) : Supported ("flex" :: args)
  | hidden (args : List String) : Supported ("hidden" :: args)
  | display {head : String} (h : head ∈ ["block", "inline"]) : Supported [head]
  | size {head : String} {args : List String} (hhead : head ∈ ["w", "h"])
    (h : (sizeOf .standard (argument args)).isSome) : Supported (head :: args)
  | spacing {head : String} {args : List String} (hhead : (spacingProperties.get? head).isSome)
    (h : (Palette.standard.spacing.get? (argument args)).isSome) : Supported (head :: args)
  | align {args : List String} (h : argument args ∈ alignWords) : Supported ("text" :: args)
  | fontSize {args : List String} (h : (Palette.standard.fontSizes.get? (argument args)).isSome) :
    Supported ("text" :: args)
  | color {head : String} {args : List String} (hhead : head ∈ ["text", "bg", "border"])
    (h : (colorOf .standard (head :: args)).isSome) : Supported (head :: args)
  | borderWidth {args : List String}
    (h : (Palette.standard.borderWidths.get? (argument args)).isSome) : Supported ("border" :: args)
  | radius {args : List String} (h : (Palette.standard.radii.get? (argument args)).isSome) :
    Supported ("rounded" :: args)
  | weight {args : List String} (h : (Palette.standard.fontWeights.get? (argument args)).isSome) :
    Supported ("font" :: args)
  | justify {args : List String} (h : (justifyWords.get? (argument args)).isSome) :
    Supported ("justify" :: args)
  | items {args : List String} (h : (itemsWords.get? (argument args)).isSome) :
    Supported ("items" :: args)
  | self {args : List String} (h : (selfWords.get? (argument args)).isSome) :
    Supported ("self" :: args)
  | overflow {args : List String} (h : argument args ∈ overflowWords) :
    Supported ("overflow" :: args)
  | position {head : String} {args : List String} (h : head ∈ positionWords) :
    Supported (head :: args)
  | number {head : String} {args : List String} {bound : Option Nat}
    (hhead : (head, bound) ∈ numberBounds) (h : Readable (argument args).toList bound) :
    Supported (head :: args)

/-- A class of a family with a number that has digits, but not those of a number in its bound. -/
inductive Unreadable : List String → Prop where
  | number {head : String} {args : List String} {bound : Option Nat}
    (hhead : (head, bound) ∈ numberBounds) (hdigits : isNumeric (argument args).toList = true)
    (h : ¬ Readable (argument args).toList bound) : Unreadable (head :: args)

/-! ## What classes set -/

/-- The properties of a class, given its parts. -/
def declarationsIn : List String → Except ClassFault Properties
  | [] => .ok []
  | head :: args =>
    declarationsOf .standard head (argument args) args.tail args.isEmpty

theorem declarations_eq (word : Text) : declarations word = declarationsIn (parts word) := by
  unfold declarations parts
  cases Text.splitOn '-' word with
  | nil => rfl
  | cons head args =>
    cases args with
    | nil => rfl
    | cons arg rest => rfl

theorem exists_setText {text : Option String} (h : text.isSome) (property : String) :
    ∃ d ds, (.ok (setText property text) : Except ClassFault Properties) = .ok (d :: ds) := by
  rcases Option.isSome_iff_exists.mp h with ⟨s, rfl⟩
  exact ⟨_, _, rfl⟩

/-- A scale that does not name the empty text. -/
theorem ne_empty_of_isSome {f : String → Option String} (hempty : f "" = none) {name : String}
    (h : (f name).isSome) : name ≠ "" := by
  rintro rfl
  simp [hempty] at h

/-- A class with a number in its bound. -/
theorem declarationsIn_of_readable {head : String} {args : List String} {bound : Option Nat}
    (hhead : (head, bound) ∈ numberBounds) (h : Readable (argument args).toList bound) :
    ∃ d, declarationsIn (head :: args) = .ok [d] := by
  rcases h with ⟨hlength, n, hn, hbound⟩
  have hnumber := classNumber_eq_ok_iff.mpr ⟨hlength, hn⟩
  have hnumeric := isNumeric_of_decimalNumber? hn
  simp only [numberBounds, List.mem_cons, Prod.mk.injEq, List.not_mem_nil, or_false] at hhead
  rcases hhead with ⟨rfl, rfl⟩ | ⟨rfl, rfl⟩
  · cases hsetting : hundredths n with
    | error f =>
      have hlarge := (hundredths_eq_error_iff.mp hsetting).2
      have hsmall := hbound _ rfl
      omega
    | ok setting =>
      refine ⟨("opacity", setting), ?_⟩
      simp [declarationsIn, declarationsOf, hnumeric, hnumber, hsetting, bind, Except.bind, pure,
        Except.pure]
  · refine ⟨("zIndex", .whole n), ?_⟩
    simp [declarationsIn, declarationsOf, hnumeric, hnumber, bind, Except.bind, pure, Except.pure]

/-! ### Families with more than one kind of argument -/

theorem declarationsIn_text (args : List String) :
    declarationsIn ("text" :: args) =
      if alignWords.contains (argument args) then .ok [("textAlign", .text (argument args))]
      else
        match Palette.standard.fontSizes.get? (argument args) with
        | some size => .ok [("fontSize", .text size)]
        | none => .ok (setText "color" (colorOf .standard ("text" :: args))) := by
  cases args with
  | nil => rfl
  | cons arg rest => rfl

theorem declarationsIn_bg (args : List String) :
    declarationsIn ("bg" :: args) =
      .ok (setText "backgroundColor" (colorOf .standard ("bg" :: args))) := by
  cases args with
  | nil => rfl
  | cons arg rest => rfl

theorem declarationsIn_border (args : List String) :
    declarationsIn ("border" :: args) =
      match Palette.standard.borderWidths.get? (argument args) with
      | some width => .ok [("borderWidth", .text width)]
      | none => .ok (setText "borderColor" (colorOf .standard ("border" :: args))) := by
  cases args with
  | nil => rfl
  | cons arg rest => rfl

/-- Families other than those of spacing and of positions. -/
def namedHeads : List String :=
  ["flex", "hidden", "block", "inline", "w", "h", "text", "bg", "border", "rounded", "font",
    "justify", "items", "self", "overflow", "opacity", "z"]

theorem declarationsIn_other {head : String} (h : head ∉ namedHeads) (args : List String) :
    declarationsIn (head :: args) =
      match spacingProperties.get? head with
      | some properties =>
        match
          if argument args = "" then none else Palette.standard.spacing.get? (argument args)
        with
        | some size => .ok (properties.map fun p => (p, .text size))
        | none => .ok []
      | none => .ok (if positionWords.contains head then [("position", .text head)] else []) := by
  unfold declarationsIn declarationsOf
  dsimp only
  -- All cases but the last name one of the other families.
  split
  case h_18 => rfl
  all_goals exact absurd (by decide) h

theorem Table.mem_of_get? {α : Type} {t : Table α} {name : String} {a : α}
    (h : t.get? name = some a) : (name, a) ∈ t := by
  rcases Option.map_eq_some_iff.mp h with ⟨⟨key, value⟩, hfind, rfl⟩
  have hkey : key = name := by simpa using List.find?_some hfind
  exact hkey ▸ List.mem_of_find?_eq_some hfind

theorem spacing_family {head : String} {properties : List String}
    (h : spacingProperties.get? head = some properties) :
    head ∉ namedHeads ∧ properties ≠ [] := by
  have hall : ∀ e ∈ spacingProperties, e.1 ∉ namedHeads ∧ e.2 ≠ [] := by decide
  exact hall (head, properties) (Table.mem_of_get? h)

/-! ### The two kinds -/

theorem Supported.sets {ps : List String} (h : Supported ps) :
    ∃ d ds, declarationsIn ps = .ok (d :: ds) := by
  cases h with
  | flex => exact ⟨_, _, rfl⟩
  | @direction args h =>
    have hargs : args ≠ [] := by rintro rfl; simp [argument] at h
    simp only [List.mem_cons, List.not_mem_nil, or_false] at h
    simp [declarationsIn, declarationsOf, hargs, h, flexDirection]
  | hidden args => exact ⟨_, _, rfl⟩
  | display h =>
    simp only [List.mem_cons, List.not_mem_nil, or_false] at h
    rcases h with rfl | rfl
    · exact ⟨_, _, rfl⟩
    · exact ⟨_, _, rfl⟩
  | @size head args hhead h =>
    have harg := ne_empty_of_isSome (f := sizeOf .standard) (by decide) h
    simp only [List.mem_cons, List.not_mem_nil, or_false] at hhead
    rcases hhead with rfl | rfl
    · simpa [declarationsIn, declarationsOf, harg] using exists_setText h "width"
    · simpa [declarationsIn, declarationsOf, harg] using exists_setText h "height"
  | @spacing head args hhead h =>
    rcases Option.isSome_iff_exists.mp hhead with ⟨properties, hproperties⟩
    rcases Option.isSome_iff_exists.mp h with ⟨size, hsize⟩
    rcases spacing_family hproperties with ⟨hother, hne⟩
    have harg := ne_empty_of_isSome (f := Palette.standard.spacing.get?) (by decide) h
    rcases List.exists_cons_of_ne_nil hne with ⟨p, ps, rfl⟩
    rw [declarationsIn_other hother, hproperties, if_neg harg, hsize]
    exact ⟨_, _, rfl⟩
  | align h =>
    rw [declarationsIn_text, if_pos (List.contains_iff_mem.mpr h)]
    exact ⟨_, _, rfl⟩
  | fontSize h =>
    rcases Option.isSome_iff_exists.mp h with ⟨size, hsize⟩
    rw [declarationsIn_text, hsize]
    split
    · exact ⟨_, _, rfl⟩
    · exact ⟨_, _, rfl⟩
  | color hhead h =>
    simp only [List.mem_cons, List.not_mem_nil, or_false] at hhead
    rcases hhead with rfl | rfl | rfl
    · rw [declarationsIn_text]
      split
      · exact ⟨_, _, rfl⟩
      · split
        · exact ⟨_, _, rfl⟩
        · exact exists_setText h "color"
    · rw [declarationsIn_bg]
      exact exists_setText h "backgroundColor"
    · rw [declarationsIn_border]
      split
      · exact ⟨_, _, rfl⟩
      · exact exists_setText h "borderColor"
  | borderWidth h =>
    rcases Option.isSome_iff_exists.mp h with ⟨width, hwidth⟩
    rw [declarationsIn_border, hwidth]
    exact ⟨_, _, rfl⟩
  | radius h => exact exists_setText h "borderRadius"
  | weight h =>
    rcases Option.isSome_iff_exists.mp h with ⟨weight, hweight⟩
    simp [declarationsIn, declarationsOf, hweight]
  | justify h => exact exists_setText h "justifyContent"
  | items h => exact exists_setText h "alignItems"
  | self h => exact exists_setText h "alignSelf"
  | overflow h => simp [declarationsIn, declarationsOf, h]
  | position h =>
    simp only [positionWords, List.mem_cons, List.not_mem_nil, or_false] at h
    rcases h with rfl | rfl | rfl | rfl
    · exact ⟨_, _, rfl⟩
    · exact ⟨_, _, rfl⟩
    · exact ⟨_, _, rfl⟩
    · exact ⟨_, _, rfl⟩
  | number hhead h =>
    rcases declarationsIn_of_readable hhead h with ⟨d, hd⟩
    exact ⟨d, [], hd⟩

theorem Unreadable.fails {ps : List String} (h : Unreadable ps) :
    ∃ f, declarationsIn ps = .error f := by
  cases h with
  | @number head args bound hhead hdigits h =>
    simp only [numberBounds, List.mem_cons, Prod.mk.injEq, List.not_mem_nil, or_false] at hhead
    cases hnumber : classNumber (argument args).toList with
    | error f =>
      refine ⟨f, ?_⟩
      rcases hhead with ⟨rfl, rfl⟩ | ⟨rfl, rfl⟩
      · simp [declarationsIn, declarationsOf, hdigits, hnumber, bind, Except.bind]
      · simp [declarationsIn, declarationsOf, hdigits, hnumber, bind, Except.bind]
    | ok n =>
      -- The number can be read, so it is not in its bound, and only opacities have one.
      rcases classNumber_eq_ok_iff.mp hnumber with ⟨hlength, hn⟩
      rcases hhead with ⟨rfl, rfl⟩ | ⟨rfl, rfl⟩
      · have hlarge : Double.hundredthsBound ≤ n := by
          refine Nat.le_of_not_lt fun hsmall => h ⟨hlength, n, hn, ?_⟩
          simpa using hsmall
        have hfails := hundredths_eq_error_iff.mpr ⟨rfl, hlarge⟩
        exact ⟨.tooLarge, by
          simp [declarationsIn, declarationsOf, hdigits, hnumber, hfails, bind, Except.bind]⟩
      · exact absurd ⟨hlength, n, hn, by simp⟩ h

/-! ### No other kinds -/

/-- A class that sets nothing, or is of one of the two kinds. -/
def Sorted (ps : List String) : Prop :=
  declarationsIn ps = .ok [] ∨ Supported ps ∨ Unreadable ps

theorem Sorted.of_supported {ps : List String} (h : Supported ps) : Sorted ps := Or.inr (Or.inl h)

theorem Sorted.of_setText {ps : List String} {property : String} {text : Option String}
    (heq : declarationsIn ps = .ok (setText property text)) (h : text.isSome → Supported ps) :
    Sorted ps := by
  cases text with
  | none => exact Or.inl heq
  | some s => exact .of_supported (h rfl)

theorem sorted_flex (args : List String) : Sorted ("flex" :: args) := by
  cases args with
  | nil => exact .of_supported .flex
  | cons arg rest =>
    by_cases h : arg ∈ ["row", "col"]
    · exact .of_supported (.direction h)
    · left
      simp only [List.mem_cons, List.not_mem_nil, or_false] at h
      simp [declarationsIn, declarationsOf, argument, h]

theorem sorted_display {head : String} (hhead : head ∈ ["block", "inline"]) (args : List String) :
    Sorted (head :: args) := by
  cases args with
  | nil => exact .of_supported (.display hhead)
  | cons arg rest =>
    left
    simp only [List.mem_cons, List.not_mem_nil, or_false] at hhead
    rcases hhead with rfl | rfl
    · rfl
    · rfl

theorem sorted_size {head : String} (hhead : head ∈ ["w", "h"]) (args : List String) :
    Sorted (head :: args) := by
  by_cases harg : argument args = ""
  · left
    simp only [List.mem_cons, List.not_mem_nil, or_false] at hhead
    rcases hhead with rfl | rfl
    · simp [declarationsIn, declarationsOf, harg]
    · simp [declarationsIn, declarationsOf, harg]
  · have hsize : (sizeOf .standard (argument args)).isSome → Supported (head :: args) :=
      .size hhead
    simp only [List.mem_cons, List.not_mem_nil, or_false] at hhead
    rcases hhead with rfl | rfl
    · have heq : declarationsIn ("w" :: args) =
          .ok (setText "width" (sizeOf .standard (argument args))) := by
        simp [declarationsIn, declarationsOf, harg]
      exact .of_setText heq hsize
    · have heq : declarationsIn ("h" :: args) =
          .ok (setText "height" (sizeOf .standard (argument args))) := by
        simp [declarationsIn, declarationsOf, harg]
      exact .of_setText heq hsize

theorem sorted_text (args : List String) : Sorted ("text" :: args) := by
  by_cases halign : argument args ∈ alignWords
  · exact .of_supported (.align halign)
  · have heq := declarationsIn_text args
    rw [if_neg (by simpa using halign)] at heq
    cases hsize : Palette.standard.fontSizes.get? (argument args) with
    | some size => exact .of_supported (.fontSize (by simp [hsize]))
    | none =>
      rw [hsize] at heq
      exact .of_setText heq (.color (by decide))

theorem sorted_border (args : List String) : Sorted ("border" :: args) := by
  have heq := declarationsIn_border args
  cases hwidth : Palette.standard.borderWidths.get? (argument args) with
  | some width => exact .of_supported (.borderWidth (by simp [hwidth]))
  | none =>
    rw [hwidth] at heq
    exact .of_setText heq (.color (by decide))

theorem sorted_font (args : List String) : Sorted ("font" :: args) := by
  cases hweight : Palette.standard.fontWeights.get? (argument args) with
  | some weight => exact .of_supported (.weight (by simp [hweight]))
  | none =>
    left
    simp [declarationsIn, declarationsOf, hweight]

theorem sorted_overflow (args : List String) : Sorted ("overflow" :: args) := by
  by_cases h : argument args ∈ overflowWords
  · exact .of_supported (.overflow h)
  · left
    simp [declarationsIn, declarationsOf, h]

theorem sorted_number {head : String} {bound : Option Nat} (hhead : (head, bound) ∈ numberBounds)
    (args : List String) : Sorted (head :: args) := by
  by_cases hdigits : isNumeric (argument args).toList = true
  · by_cases hreadable : Readable (argument args).toList bound
    · exact .of_supported (.number hhead hreadable)
    · exact Or.inr (Or.inr (.number hhead hdigits hreadable))
  · left
    simp only [numberBounds, List.mem_cons, Prod.mk.injEq, List.not_mem_nil, or_false] at hhead
    rcases hhead with ⟨rfl, rfl⟩ | ⟨rfl, rfl⟩
    · simp [declarationsIn, declarationsOf, hdigits]
    · simp [declarationsIn, declarationsOf, hdigits]

theorem sorted_named {head : String} (hhead : head ∈ namedHeads) (args : List String) :
    Sorted (head :: args) := by
  -- One case for each family, in the order of the list.
  simp only [namedHeads, List.mem_cons, List.not_mem_nil, or_false] at hhead
  rcases hhead with rfl | rfl | rfl | rfl | rfl | rfl | rfl | rfl | rfl | rfl | rfl | rfl | rfl |
    rfl | rfl | rfl | rfl
  · exact sorted_flex args
  · exact .of_supported (.hidden args)
  · exact sorted_display (by decide) args
  · exact sorted_display (by decide) args
  · exact sorted_size (by decide) args
  · exact sorted_size (by decide) args
  · exact sorted_text args
  · exact .of_setText (declarationsIn_bg args) (.color (by decide))
  · exact sorted_border args
  · exact .of_setText rfl .radius
  · exact sorted_font args
  · exact .of_setText rfl .justify
  · exact .of_setText rfl .items
  · exact .of_setText rfl .self
  · exact sorted_overflow args
  · exact sorted_number List.mem_cons_self args
  · exact sorted_number (List.mem_cons_of_mem _ List.mem_cons_self) args

theorem sorted_other {head : String} (hhead : head ∉ namedHeads) (args : List String) :
    Sorted (head :: args) := by
  have heq := declarationsIn_other hhead args
  cases hproperties : spacingProperties.get? head with
  | some properties =>
    by_cases hsize : (Palette.standard.spacing.get? (argument args)).isSome
    · exact .of_supported (.spacing (by simp [hproperties]) hsize)
    · left
      rw [heq, hproperties, Option.not_isSome_iff_eq_none.mp hsize]
      simp
  | none =>
    by_cases hposition : head ∈ positionWords
    · exact .of_supported (.position hposition)
    · left
      rw [heq, hproperties]
      simp [hposition]

theorem sorted (ps : List String) : Sorted ps := by
  cases ps with
  | nil => exact Or.inl rfl
  | cons head args =>
    by_cases hhead : head ∈ namedHeads
    · exact sorted_named hhead args
    · exact sorted_other hhead args

theorem declarationsIn_eq_nil_iff {ps : List String} :
    declarationsIn ps = .ok [] ↔ ¬ Supported ps ∧ ¬ Unreadable ps := by
  constructor
  · intro heq
    constructor
    · intro h
      rcases h.sets with ⟨d, ds, hsets⟩
      simp [hsets] at heq
    · intro h
      rcases h.fails with ⟨f, hfails⟩
      simp [hfails] at heq
  · rintro ⟨hsupported, hunreadable⟩
    exact (sorted ps).resolve_right (not_or.mpr ⟨hsupported, hunreadable⟩)

theorem declarationsIn_fails_iff {ps : List String} :
    (∃ f, declarationsIn ps = .error f) ↔ Unreadable ps := by
  constructor
  · rintro ⟨f, hfails⟩
    rcases sorted ps with heq | h | h
    · simp [hfails] at heq
    · rcases h.sets with ⟨d, ds, hsets⟩
      simp [hfails] at hsets
    · exact h
  · exact Unreadable.fails

/-! ## Texts of classes -/

theorem wordFault?_eq_none_iff {word : Text} :
    wordFault? word = none ↔ ¬ Unreadable (parts word) := by
  rw [← declarationsIn_fails_iff, ← declarations_eq, wordFault?]
  cases declarations word with
  | error f => simp
  | ok new => simp

theorem Properties.update_ne_nil {style : Properties} (h : style ≠ []) (new : Properties) :
    style.update new ≠ [] := by
  induction new generalizing style with
  | nil => exact h
  | cons d new ih =>
    rw [update_cons]
    apply ih
    cases style with
    | nil => exact absurd rfl h
    | cons e style =>
      rw [set_cons]
      split
      · simp
      · simp

theorem classStyle_eq_nil_iff {word : Text} (hword : Text.words word = [word]) :
    classStyle word = .ok [] ↔ ¬ Supported (parts word) ∧ ¬ Unreadable (parts word) := by
  rw [← declarationsIn_eq_nil_iff, ← declarations_eq, classStyle_eq, hword, applyClasses]
  cases declarations word with
  | error f => simp [bind, Except.bind]
  | ok new =>
    cases new with
    | nil => exact iff_of_true rfl rfl
    | cons d new =>
      -- What is set once stays set.
      refine iff_of_false ?_ (by simp)
      intro heq
      exact Properties.update_ne_nil (by simp [Properties.set]) new (Except.ok.inj heq)

/-- A class that can be taken away wherever it stands. -/
def Ignored (word : Text) : Prop :=
  ∀ classes fewer front back, Text.words classes = front ++ word :: back →
    Text.words fewer = front ++ back → (styleOf classes).outcome = (styleOf fewer).outcome

theorem outcome_styleOf_congr {classes other : Text}
    (h : applyClasses [] (Text.words classes) = applyClasses [] (Text.words other)) :
    (styleOf classes).outcome = (styleOf other).outcome := by
  have hstyle : styleOf? classes = styleOf? other := by rw [styleOf?, styleOf?, h]
  rw [outcome_styleOf, outcome_styleOf, textFault?, textFault?, textStyle?, textStyle?, hstyle]

theorem ignored_iff {word : Text} (hword : Text.words word = [word]) :
    Ignored word ↔ ¬ Supported (parts word) ∧ ¬ Unreadable (parts word) := by
  rw [← classStyle_eq_nil_iff hword]
  constructor
  · -- A class that stands alone is taken away as well, and nothing is left.
    intro h
    rw [classStyle, h word [] [] [] hword rfl]
    rfl
  · intro hnothing classes fewer front back hclasses hfewer
    apply outcome_styleOf_congr
    rw [hclasses, hfewer]
    exact applyClasses_skip hword hnothing front back

/-- Classes are converted, to a style or to nothing, exactly if none of them is a number that
cannot be read. A class that is not supported is ignored with the same exception. -/
theorem conversion_total_iff (classes : Text) :
    ((∃ style, (styleOf classes).outcome = .ok style) ↔
      ∀ word ∈ Text.words classes, ¬ Unreadable (parts word)) ∧
    ∀ word ∈ Text.words classes, ¬ Supported (parts word) →
      (Ignored word ↔ ¬ Unreadable (parts word)) := by
  constructor
  · simp only [styleOf_ok_iff, textFault?_eq, List.findSome?_eq_none_iff, wordFault?_eq_none_iff]
  · intro word hword hsupported
    rw [ignored_iff (Text.words_of_mem_words hword)]
    simp [hsupported]

/-- An unknown class beside others. -/
theorem conversion_total_unknown :
    (∃ style, (styleOf "p-4 md:p-8 z-٣".toList).outcome = .ok style) ∧
    "md:p-8".toList ∈ Text.words "p-4 md:p-8 z-٣".toList ∧
    ¬ Supported (parts "md:p-8".toList) ∧ Ignored "md:p-8".toList := by
  have hwords : Text.words "p-4 md:p-8 z-٣".toList =
      ["p-4".toList, "md:p-8".toList, "z-٣".toList] := by decide
  have hmem : "md:p-8".toList ∈ Text.words "p-4 md:p-8 z-٣".toList := by rw [hwords]; simp
  have hnothing : declarationsIn (parts "md:p-8".toList) = .ok [] := rfl
  rcases declarationsIn_eq_nil_iff.mp hnothing with ⟨hsupported, hunreadable⟩
  rcases conversion_total_iff "p-4 md:p-8 z-٣".toList with ⟨htotal, hignored⟩
  refine ⟨htotal.mpr ?_, hmem, hsupported, (hignored _ hmem hsupported).mpr hunreadable⟩
  intro word hword
  simp only [hwords, List.mem_cons, List.not_mem_nil, or_false] at hword
  rcases hword with rfl | rfl | rfl
  · exact wordFault?_eq_none_iff.mp rfl
  · exact hunreadable
  · exact wordFault?_eq_none_iff.mp rfl

/-- A superscript is a digit and no number. -/
theorem conversion_fails_superscript :
    ¬ Supported (parts "z-²".toList) ∧ ¬ Ignored "z-²".toList ∧
    (styleOf "z-²".toList).outcome = .error (.digits ['²']) := by
  have hfails : declarationsIn (parts "z-²".toList) = .error (.digits ['²']) := rfl
  have hunreadable : Unreadable (parts "z-²".toList) := declarationsIn_fails_iff.mp ⟨_, hfails⟩
  refine ⟨?_, ?_, rfl⟩
  · intro hsupported
    rcases hsupported.sets with ⟨d, ds, hsets⟩
    rw [hfails] at hsets
    cases hsets
  · intro hignored
    exact ((ignored_iff (by decide)).mp hignored).2 hunreadable

end Notemark.Style
