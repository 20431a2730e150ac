import Mathlib.Data.List.Nodup
import Notemark.Proofs.StyleTree
import Notemark.Proofs.Text

/-!
# Styles of classes

A style is known by the order of its properties and by what each of them is set to.

* `Properties.ext`: these two determine a style in which every property stands once,
* `Properties.names_update`, `Properties.lookup_update`: what one style becomes under another,
* `Properties.update_assoc`: styles over styles can be taken in any order,
* `classStyle`: the style of a text of classes, empty where there is none,
* `classes_compose`: classes that stand one after the other contribute each for itself.
-/

namespace Notemark.Style

/-! ## Styles over styles -/

namespace Properties

variable {style new : Properties} {p q : String} {x : Setting}

/-- The properties of a style, in order. -/
def names (style : Properties) : List String := style.map Prod.fst

/-- Every property stands once. -/
def Distinct (style : Properties) : Prop := style.names.Nodup

@[simp] theorem names_nil : names [] = [] := rfl

@[simp] theorem names_cons (d : String × Setting) (style : Properties) :
    names (d :: style) = d.1 :: names style := rfl

theorem distinct_nil : Distinct [] := List.nodup_nil

theorem lookup_cons (p : String) (d : String × Setting) (style : Properties) :
    List.lookup p (d :: style) = if p = d.1 then some d.2 else style.lookup p := by
  by_cases hp : p = d.1
  · rw [if_pos hp, hp]
    exact List.lookup_cons_self
  · rw [if_neg hp, List.lookup_cons, beq_eq_false_iff_ne.mpr hp]

theorem lookup_eq_none_iff : style.lookup p = none ↔ p ∉ style.names := by
  induction style with
  | nil => simp
  | cons d style ih =>
    rw [lookup_cons, names_cons, List.mem_cons, not_or, ← ih]
    by_cases hp : p = d.1
    · simp [hp]
    · simp only [hp, if_false, not_false_eq_true, true_and]

/-- A style is determined by its properties, in order, and by their settings. -/
theorem ext (hdistinct : style.Distinct) (hnames : style.names = new.names)
    (hlookup : ∀ p, style.lookup p = new.lookup p) : style = new := by
  induction style generalizing new with
  | nil => exact (List.map_eq_nil_iff.mp hnames.symm).symm
  | cons d style ih =>
    cases new with
    | nil => simp at hnames
    | cons e new =>
      obtain ⟨hfirst, hrest⟩ : d.1 = e.1 ∧ names style = names new := List.cons.inj hnames
      rcases List.nodup_cons.mp hdistinct with ⟨hd, hlater⟩
      have hsetting := hlookup d.1
      rw [lookup_cons, lookup_cons, if_pos rfl, if_pos hfirst] at hsetting
      have hstyle : style = new := by
        refine ih hlater hrest fun p => ?_
        by_cases hp : p = d.1
        · -- The first property does not come back.
          have hnone : p ∉ names style := hp ▸ hd
          rw [lookup_eq_none_iff.mpr hnone, lookup_eq_none_iff.mpr (hrest ▸ hnone)]
        · have hsame := hlookup p
          rwa [lookup_cons, lookup_cons, if_neg hp, if_neg (hfirst ▸ hp)] at hsame
      rw [hstyle, Prod.ext hfirst (Option.some.inj hsetting)]

/-! ### One property -/

theorem set_cons (p : String) (x : Setting) (d : String × Setting) (style : Properties) :
    set p x (d :: style) = if d.1 = p then (d.1, x) :: style else d :: set p x style := rfl

theorem lookup_set (p : String) (x : Setting) (style : Properties) (q : String) :
    List.lookup q (set p x style) = if q = p then some x else style.lookup q := by
  induction style with
  | nil => exact lookup_cons q (p, x) []
  | cons d style ih =>
    rw [set_cons]
    by_cases hd : d.1 = p
    · rw [if_pos hd, lookup_cons, lookup_cons, hd]
      by_cases hq : q = p
      · rw [if_pos hq, if_pos hq]
      · rw [if_neg hq, if_neg hq, if_neg hq]
    · rw [if_neg hd, lookup_cons, lookup_cons, ih]
      by_cases hq : q = d.1
      · have hne : q ≠ p := hq ▸ hd
        rw [if_pos hq, if_neg hne, if_pos hq]
      · rw [if_neg hq, if_neg hq]

/-- A known property keeps its place, and a new one goes to the end. -/
theorem names_set (p : String) (x : Setting) (style : Properties) :
    names (set p x style) = if p ∈ style.names then style.names else style.names ++ [p] := by
  induction style with
  | nil => rfl
  | cons d style ih =>
    rw [set_cons, names_cons]
    by_cases hd : d.1 = p
    · rw [if_pos hd, names_cons, if_pos (by simp [hd])]
    · rw [if_neg hd, names_cons, ih]
      by_cases hp : p ∈ names style
      · rw [if_pos hp, if_pos (List.mem_cons_of_mem d.1 hp)]
      · rw [if_neg hp, if_neg (by simp [hp, Ne.symm hd]), List.cons_append]

theorem mem_names_set : q ∈ names (set p x style) ↔ q = p ∨ q ∈ style.names := by
  rw [names_set]
  split
  · next hp =>
    constructor
    · exact Or.inr
    · rintro (rfl | hq)
      · exact hp
      · exact hq
  · rw [List.mem_append, List.mem_singleton, or_comm]

theorem Distinct.set (h : style.Distinct) (p : String) (x : Setting) :
    (set p x style).Distinct := by
  rw [Distinct, names_set]
  split
  · exact h
  · next hp =>
    rw [List.nodup_append]
    refine ⟨h, List.nodup_singleton p, ?_⟩
    rintro q hq _ hmem rfl
    exact hp (List.mem_singleton.mp hmem ▸ hq)

/-! ### All properties of a style -/

theorem update_cons (style : Properties) (d : String × Setting) (new : Properties) :
    style.update (d :: new) = (set d.1 d.2 style).update new := rfl

theorem Distinct.update (h : style.Distinct) (new : Properties) : (style.update new).Distinct := by
  induction new generalizing style with
  | nil => exact h
  | cons d new ih =>
    rw [update_cons]
    exact ih (h.set d.1 d.2)

/-- The settings of the second style win. -/
theorem lookup_update (hnew : new.Distinct) (style : Properties) (q : String) :
    (style.update new).lookup q = (new.lookup q).or (style.lookup q) := by
  induction new generalizing style with
  | nil => rfl
  | cons d new ih =>
    rcases List.nodup_cons.mp hnew with ⟨hd, hrest⟩
    rw [update_cons, ih hrest, lookup_set, lookup_cons]
    by_cases hq : q = d.1
    · rw [if_pos hq, if_pos hq, lookup_eq_none_iff.mpr (hq ▸ hd)]
      rfl
    · rw [if_neg hq, if_neg hq]

/-- The properties of the first style keep their places, and the others follow in order. -/
theorem names_update (hnew : new.Distinct) (style : Properties) :
    (style.update new).names = style.names ++ new.names.filter (· ∉ style.names) := by
  induction new generalizing style with
  | nil => simp [update]
  | cons d new ih =>
    rcases List.nodup_cons.mp hnew with ⟨hd, hrest⟩
    -- The first property of the second style does not come back in it.
    have hfilter : (names new).filter (· ∉ names (set d.1 d.2 style)) =
        (names new).filter (· ∉ style.names) := by
      apply List.filter_congr
      intro q hq
      have hne : q ≠ d.1 := fun heq => hd (heq ▸ hq)
      simp [mem_names_set, hne]
    rw [update_cons, ih hrest, hfilter, names_set, names_cons, List.filter_cons]
    by_cases hmem : d.1 ∈ style.names
    · simp [hmem]
    · simp [hmem]

/-- A property that is set in the end can as well be set in the second style. -/
theorem set_update (hstyle : style.Distinct) (hnew : new.Distinct) (p : String) (x : Setting) :
    set p x (style.update new) = style.update (set p x new) := by
  apply ext ((hstyle.update new).set p x)
  · -- The property is new, or it keeps the place that it has in one of the two.
    rw [names_set, names_update hnew, names_update (hnew.set p x), names_set]
    by_cases hold : p ∈ style.names
    · by_cases hp : p ∈ new.names
      · simp [hold, hp]
      · simp [hold, hp, List.filter_append]
    · by_cases hp : p ∈ new.names
      · simp [hold, hp]
      · simp [hold, hp, List.filter_append]
  · intro q
    rw [lookup_set, lookup_update hnew, lookup_update (hnew.set p x), lookup_set]
    by_cases hq : q = p
    · rw [if_pos hq, if_pos hq]
      rfl
    · rw [if_neg hq, if_neg hq]

/-- Styles are set over one another in any grouping. -/
theorem update_assoc (hstyle : style.Distinct) (hnew : new.Distinct) (later : Properties) :
    (style.update new).update later = style.update (new.update later) := by
  induction later generalizing new with
  | nil => rfl
  | cons d later ih => rw [update_cons, update_cons, set_update hstyle hnew, ih (hnew.set d.1 d.2)]

end Properties

/-! ## Lists of classes -/

/-- What classes set does not depend on the style they are set in. -/
theorem applyClasses_update {style new : Properties} (hstyle : style.Distinct)
    (hnew : new.Distinct) (words : List Text) :
    applyClasses (style.update new) words = (applyClasses new words).map style.update := by
  -- The induction is over the classes, while the style that they are set in grows.
  induction words generalizing new with
  | nil => rfl
  | cons word words ih =>
    rw [applyClasses, applyClasses]
    cases declarations word with
    | error f => rfl
    | ok set =>
      change applyClasses ((style.update new).update set) words =
        (applyClasses (new.update set) words).map style.update
      rw [Properties.update_assoc hstyle hnew, ih (hnew.update set)]

theorem applyClasses_append (style : Properties) (words more : List Text) :
    applyClasses style (words ++ more) = applyClasses style words >>= (applyClasses · more) := by
  induction words generalizing style with
  | nil => rfl
  | cons word words ih =>
    rw [List.cons_append, applyClasses, applyClasses]
    cases declarations word with
    | error f => rfl
    | ok set => exact ih (style.update set)

theorem distinct_applyClasses {style result : Properties} {words : List Text}
    (hstyle : style.Distinct) (h : applyClasses style words = .ok result) : result.Distinct := by
  induction words generalizing style with
  | nil => exact Except.ok.inj h ▸ hstyle
  | cons word words ih =>
    rw [applyClasses] at h
    rcases bind_eq_ok_iff.mp h with ⟨new, -, hlater⟩
    exact ih (hstyle.update new) hlater

/-! ## Texts of classes -/

/-- The style of a text of classes; the empty style if there is none. -/
def classStyle (classes : Text) : Except ClassFault Properties :=
  (styleOf classes).outcome.map (·.getD [])

theorem classStyle_eq (classes : Text) :
    classStyle classes = applyClasses [] (Text.words classes) := by
  rw [classStyle, outcome_styleOf, textFault?, textStyle?, styleOf?]
  cases applyClasses [] (Text.words classes) with
  | error f => rfl
  | ok style =>
    cases style with
    | nil => rfl
    | cons d style => rfl

theorem distinct_classStyle {classes : Text} {style : Properties}
    (h : classStyle classes = .ok style) : style.Distinct := by
  rw [classStyle_eq] at h
  exact distinct_applyClasses Properties.distinct_nil h

theorem classStyle_append (a b : Text) :
    classStyle (a ++ ' ' :: b) =
      classStyle a >>= fun style : Properties => (classStyle b).map style.update := by
  rw [classStyle_eq, Text.words_append (by decide), applyClasses_append, ← classStyle_eq]
  cases h : classStyle a with
  | error f => rfl
  | ok style =>
    rw [classStyle_eq b]
    exact applyClasses_update (distinct_classStyle h) Properties.distinct_nil (Text.words b)

/-- A class contributes the style that it has when it stands alone. -/
theorem applyClasses_cons {style : Properties} (hstyle : style.Distinct) {word : Text}
    (hword : Text.words word = [word]) (words : List Text) :
    applyClasses style (word :: words) =
      (classStyle word).map style.update >>= (applyClasses · words) := by
  -- The style is the same with nothing set over it.
  have halone := applyClasses_update hstyle Properties.distinct_nil [word]
  rw [← hword, ← classStyle_eq] at halone
  exact (applyClasses_append style [word] words).trans (by rw [← halone, hword]; rfl)

theorem applyClasses_eq_foldlM {style : Properties} (hstyle : style.Distinct) {words : List Text}
    (hwords : ∀ word ∈ words, Text.words word = [word]) :
    applyClasses style words =
      words.foldlM (fun (style : Properties) word => (classStyle word).map style.update) style := by
  induction words generalizing style with
  | nil => rfl
  | cons word words ih =>
    rw [applyClasses_cons hstyle (hwords word List.mem_cons_self), List.foldlM_cons]
    cases classStyle word with
    | error f => rfl
    | ok new =>
      exact ih (hstyle.update new) fun w hw => hwords w (List.mem_cons_of_mem word hw)

/-- A class that sets nothing can be left out. -/
theorem applyClasses_skip {word : Text} (hword : Text.words word = [word])
    (hnothing : classStyle word = .ok []) (front back : List Text) :
    applyClasses [] (front ++ word :: back) = applyClasses [] (front ++ back) := by
  rw [applyClasses_append, applyClasses_append]
  cases h : applyClasses [] front with
  | error f => rfl
  | ok style =>
    have hstyle := distinct_applyClasses Properties.distinct_nil h
    change applyClasses style (word :: back) = applyClasses style back
    rw [applyClasses_cons hstyle hword, hnothing]
    rfl

/-- The style of two texts of classes in a row is that of the first, with what the second sets over
it: the properties of the first keep their places, the others follow in order, and the settings of
the second win. It fails if one of the two does. So every class contributes what it sets when it
stands alone, and a class that sets nothing can be left out. -/
theorem classes_compose (a b : Text) :
    classStyle (a ++ ' ' :: b) =
      (classStyle a >>= fun style : Properties => (classStyle b).map style.update) ∧
    ((∃ f, classStyle (a ++ ' ' :: b) = .error f) ↔
      (∃ f, classStyle a = .error f) ∨ ∃ f, classStyle b = .error f) ∧
    (∀ style new : Properties, classStyle a = .ok style → classStyle b = .ok new →
      (style.update new).names = style.names ++ new.names.filter (· ∉ style.names) ∧
      ∀ p, (style.update new).lookup p = (new.lookup p).or (style.lookup p)) ∧
    (∀ classes, classStyle classes = (Text.words classes).foldlM
      (fun (style : Properties) word => (classStyle word).map style.update) []) ∧
    ∀ classes fewer front word back, Text.words classes = front ++ word :: back →
      Text.words fewer = front ++ back → classStyle word = .ok [] →
        classStyle classes = classStyle fewer := by
  refine ⟨classStyle_append a b, ?_, ?_, ?_, ?_⟩
  · rw [classStyle_append]
    cases classStyle a with
    | error f => simp [bind, Except.bind]
    | ok style =>
      cases classStyle b with
      | error f => simp [bind, Except.bind, Except.map]
      | ok new => simp [bind, Except.bind, Except.map]
  · intro style new _ hnew
    have hdistinct := distinct_classStyle hnew
    exact ⟨Properties.names_update hdistinct style, Properties.lookup_update hdistinct style⟩
  · intro classes
    rw [classStyle_eq]
    exact applyClasses_eq_foldlM Properties.distinct_nil fun word hword =>
      Text.words_of_mem_words hword
  · intro classes fewer front word back hclasses hfewer hnothing
    have hword : Text.words word = [word] := by
      apply Text.words_of_mem_words (t := classes)
      simp [hclasses]
    rw [classStyle_eq, classStyle_eq, hclasses, hfewer, applyClasses_skip hword hnothing]

/-- Padding on one side and on all, a class that is not known, and padding on the side again. -/
theorem classes_compose_padding :
    classStyle "pl-4 p-2".toList =
      .ok [("paddingLeft", .text "1rem"), ("padding", .text "0.5rem")] ∧
    classStyle "md:p-8\tpl-1".toList = .ok [("paddingLeft", .text "0.25rem")] ∧
    classStyle "md:p-8".toList = .ok [] ∧
    classStyle "pl-4 p-2 md:p-8\tpl-1".toList =
      .ok [("paddingLeft", .text "0.25rem"), ("padding", .text "0.5rem")] ∧
    Properties.names (Properties.update [("paddingLeft", .text "1rem"), ("padding", .text "0.5rem")]
      [("paddingLeft", .text "0.25rem")]) = ["paddingLeft", "padding"] ∧
    classStyle "pl-4 p-2 md:p-8\tpl-1".toList = classStyle "pl-4 p-2 pl-1".toList := by
  have hfirst : classStyle "pl-4 p-2".toList =
      .ok [("paddingLeft", .text "1rem"), ("padding", .text "0.5rem")] := by rfl
  have hsecond : classStyle "md:p-8\tpl-1".toList = .ok [("paddingLeft", .text "0.25rem")] := by
    rfl
  have hnothing : classStyle "md:p-8".toList = .ok [] := by rfl
  rcases classes_compose "pl-4 p-2".toList "md:p-8\tpl-1".toList with
    ⟨hjoined, -, hupdate, -, hskip⟩
  refine ⟨hfirst, hsecond, hnothing, ?_, (hupdate _ _ hfirst hsecond).1, ?_⟩
  · rw [hfirst, hsecond] at hjoined
    exact hjoined
  · exact hskip _ _ ["pl-4".toList, "p-2".toList] _ ["pl-1".toList] (by rfl) (by rfl) hnothing

end Notemark.Style
