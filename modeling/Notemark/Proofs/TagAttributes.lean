import Mathlib.Data.List.Basic
import Notemark.Proofs.Conservation
import Notemark.Proofs.Decoration
import Notemark.Proofs.RoundTrip

/-!
# Attributes and literals of written tags

The text of a tag is a name with named values and at most one literal behind it. This module holds

* `TagItem`, `WrittenTag`: such tags in writing, for all boxes and leaves,
* `WrittenTag.pairs`, `WrittenTag.literal?`: what was written,
* `WrittenTag.kept`, `WrittenTag.shown`: what the tag is read to,
* `WrittenTag.Kept`: an element that has the pairs for its attributes and shows the literal,
* `tag_kept_iff`: a tag comes to such an element exactly if no value is named like the key under
  which literals are kept.
-/

namespace Notemark.Body

/-! ## Tags in writing -/

/-- What may follow the name of a tag. -/
inductive TagItem where
  | pair (name value : Text)
  | literal (value : Text)
  deriving Repr, DecidableEq

namespace TagItem

def text : TagItem → Text
  | pair name value => name ++ '=' :: '"' :: (value ++ ['"'])
  | literal value => '"' :: (value ++ ['"'])

/-- The text between the quotes. -/
def value : TagItem → Text
  | pair _ value | literal value => value

def pair? : TagItem → Option (Text × Text)
  | pair name value => some (name, value)
  | literal _ => none

def literal? : TagItem → Option Text
  | pair _ _ => none
  | literal value => some value

/-- The named values among the items. -/
def pairs (items : List TagItem) : Attributes := items.filterMap pair?

def literals (items : List TagItem) : List Text := items.filterMap literal?

/-- The key under which the item is kept, and its text. -/
def entry : TagItem → Text × Text
  | pair name value => (name, value)
  | literal value => (contentKey, value)

/-- The text, if the item is kept under the key of literals. -/
def content? (item : TagItem) : Option Text :=
  if item.entry.1 = contentKey then some item.entry.2 else none

/-- The last text that is kept under the key of literals. -/
def lastContent? (items : List TagItem) : Option Text := (items.filterMap content?).getLast?

end TagItem

/-- The items, each behind one space or more. -/
def itemsText : List (Nat × TagItem) → Text
  | [] => []
  | (gap, item) :: later => List.replicate gap ' ' ++ ' ' :: (item.text ++ itemsText later)

/-- The tag of a box or of a leaf other than data. The names of its values are distinct, and it has
one literal at most, which is not empty. -/
structure WrittenTag where
  name : Text
  items : List (Nat × TagItem)
  name_chars : ∀ c ∈ name, endsName c = false ∧ c ≠ ']' ∧ c ≠ '\r'
  name_head : name.head? ≠ some '/' ∧ name.head? ≠ some '#'
  kind : TagKind.ofName name ∈
    [.leaf, .container .div, .container .button, .container .span]
  names : ∀ a ∈ TagItem.pairs (items.map (·.2)), isName Char.isAlpha isElementChar a.1 = true
  distinct : ((TagItem.pairs (items.map (·.2))).map (·.1)).Nodup
  values : ∀ item ∈ items.map (·.2), '"' ∉ item.value ∧ '\r' ∉ item.value
  literals : TagItem.literals (items.map (·.2)) = [] ∨
    ∃ t, t ≠ [] ∧ TagItem.literals (items.map (·.2)) = [t]

namespace WrittenTag

variable (tag : WrittenTag)

def inner : Text := tag.name ++ itemsText tag.items

def text : Text := '[' :: (tag.inner ++ [']'])

def pairs : Attributes := TagItem.pairs (tag.items.map (·.2))

def literal? : Option Text := (TagItem.literals (tag.items.map (·.2))).head?

end WrittenTag

/-! ## Reading the items -/

section Items

variable {items : List (Nat × TagItem)}

theorem readFrom_spaces (offset n : Nat) (t : Text) :
    Attribute.readFrom .between offset (List.replicate n ' ' ++ t) =
      Attribute.readFrom .between (offset + n) t := by
  induction n generalizing offset with
  | zero => rfl
  | succ n ih =>
    have hstep : Attribute.Phase.step offset ' ' .between = (.between, none) := rfl
    rw [List.replicate_succ, List.cons_append, Attribute.readFrom, hstep]
    dsimp only
    rw [ih, Nat.add_right_comm, Nat.add_assoc]

theorem readFrom_literal (offset : Nat) (soFar : Text) {v : Text} (h : '"' ∉ v) (t : Text) :
    Attribute.readFrom (.literal soFar) offset (v ++ '"' :: t) =
      .literal (soFar.reverse ++ v) :: Attribute.readFrom .between (offset + v.length + 1) t := by
  induction v generalizing offset soFar with
  | nil => simp [Attribute.readFrom, Attribute.Phase.step]
  | cons c cs ih =>
    have hc : c ≠ '"' := fun hc => h (by simp [hc])
    have hcs : '"' ∉ cs := fun hmem => h (by simp [hmem])
    have hstep : Attribute.Phase.step offset c (.literal soFar) =
        (.literal (c :: soFar), none) := by simp [Attribute.Phase.step, hc]
    have hoffset : offset + 1 + cs.length + 1 = offset + (c :: cs).length + 1 := by
      rw [List.length_cons]
      omega
    rw [List.cons_append, Attribute.readFrom, hstep]
    dsimp only
    rw [ih (offset + 1) (c :: soFar) hcs, List.reverse_cons, List.append_assoc, hoffset]
    rfl

/-- An item behind a space is read to one attribute, which is stored under the key of the item. -/
theorem readFrom_item (offset : Nat) {item : TagItem}
    (hname : ∀ a, item.pair? = some a → isName Char.isAlpha isElementChar a.1 = true)
    (hvalue : '"' ∉ item.value) (t : Text) :
    ∃ found next, Attribute.readFrom .between offset (' ' :: (item.text ++ t)) =
        found :: Attribute.readFrom .between next t ∧
      ∀ as, Attribute.store as found = as.set item.entry.1 item.entry.2 := by
  cases item with
  | pair n v =>
    have hisName : isName Char.isAlpha isElementChar n = true := hname (n, v) rfl
    have htext : ' ' :: ((TagItem.pair n v).text ++ t) =
        ' ' :: (n ++ '=' :: '"' :: (v ++ '"' :: t)) := by simp [TagItem.text]
    refine ⟨_, _, htext ▸ readFrom_attribute (a := (n, v)) offset hisName hvalue t, fun as => ?_⟩
    have hne : n.isEmpty = false := by simpa using ne_nil_of_isName hisName
    simp [Attribute.store, hne, TagItem.entry]
  | literal v =>
    have htext : ' ' :: ((TagItem.literal v).text ++ t) = ' ' :: '"' :: (v ++ '"' :: t) := by
      simp [TagItem.text]
    have hopen : Attribute.readFrom .between offset (' ' :: '"' :: (v ++ '"' :: t)) =
        Attribute.readFrom (.literal []) (offset + 1 + 1) (v ++ '"' :: t) := rfl
    exact ⟨_, _, htext ▸ hopen.trans (readFrom_literal _ [] hvalue t), fun as => rfl⟩

/-- Storing the items one after the other. -/
def storeAll (as : Attributes) (items : List TagItem) : Attributes :=
  items.foldl (fun as item => as.set item.entry.1 item.entry.2) as

theorem foldl_store_itemsText (offset : Nat) (as : Attributes)
    (hnames : ∀ a ∈ TagItem.pairs (items.map (·.2)), isName Char.isAlpha isElementChar a.1 = true)
    (hvalues : ∀ item ∈ items.map (·.2), '"' ∉ item.value) :
    (Attribute.readAll offset (itemsText items)).foldl Attribute.store as =
      storeAll as (items.map (·.2)) := by
  induction items generalizing offset as with
  | nil => rfl
  | cons first items ih =>
    rcases first with ⟨gap, item⟩
    rw [List.map_cons] at hnames hvalues
    have hname : ∀ a, item.pair? = some a → isName Char.isAlpha isElementChar a.1 = true :=
      fun a ha => hnames a (List.mem_filterMap.mpr ⟨item, by simp, ha⟩)
    have hlater : ∀ a ∈ TagItem.pairs (items.map (·.2)),
        isName Char.isAlpha isElementChar a.1 = true := by
      intro a ha
      rcases List.mem_filterMap.mp ha with ⟨other, hother, hpair⟩
      exact hnames a (List.mem_filterMap.mpr ⟨other, List.mem_cons_of_mem _ hother, hpair⟩)
    rcases readFrom_item (offset + gap) hname (hvalues item (by simp)) (itemsText items) with
      ⟨found, next, hread, hstore⟩
    rw [Attribute.readAll, itemsText, readFrom_spaces, hread, List.foldl_cons, hstore]
    exact ih next _ hlater fun other hother => hvalues other (List.mem_cons_of_mem _ hother)

end Items

/-! ## What is stored -/

namespace Attributes

theorem get?_set_ne {name key : Text} (h : name ≠ key) (value : Text) (as : Attributes) :
    get? (set name value as) key = get? as key := by
  induction as with
  | nil => simp [set, get?, h]
  | cons a as ih =>
    unfold set
    by_cases ha : a.1 = name
    · have hkey : a.1 ≠ key := fun hkey => h (ha.symm.trans hkey)
      rw [if_pos ha, get?_cons, get?_cons, if_neg hkey, if_neg hkey]
    · rw [if_neg ha, get?_cons, get?_cons, ih]

theorem erase_cons (a : Text × Text) (as : Attributes) (key : Text) :
    erase (a :: as) key = if a.1 = key then erase as key else a :: erase as key := by
  by_cases ha : a.1 = key <;> simp [erase, ha]

theorem erase_set (name value : Text) (as : Attributes) :
    erase (set name value as) name = erase as name := by
  induction as with
  | nil => simp [set, erase]
  | cons a as ih =>
    unfold set
    by_cases ha : a.1 = name
    · rw [if_pos ha, erase_cons, erase_cons, if_pos ha, if_pos ha]
    · rw [if_neg ha, erase_cons, erase_cons, if_neg ha, if_neg ha, ih]

theorem erase_set_ne {name key : Text} (h : name ≠ key) (value : Text) (as : Attributes) :
    erase (set name value as) key = set name value (erase as key) := by
  induction as with
  | nil => simp [set, erase, h]
  | cons a as ih =>
    rcases a with ⟨n, v⟩
    by_cases hn : n = name
    · subst hn
      simp [set, erase_cons, h]
    · by_cases hkey : n = key
      · rw [set, if_neg hn, erase_cons, if_pos hkey, erase_cons, if_pos hkey, ih]
      · rw [set, if_neg hn, erase_cons, if_neg hkey, erase_cons, if_neg hkey, set, if_neg hn, ih]

end Attributes

section Stored

variable {items : List TagItem}

/-- The last item that is kept under the key of literals decides. -/
theorem get?_storeAll (as : Attributes) (items : List TagItem) :
    (storeAll as items).get? contentKey =
      (TagItem.lastContent? items).or (as.get? contentKey) := by
  induction items generalizing as with
  | nil => rfl
  | cons item items ih =>
    have hstep : storeAll as (item :: items) =
        storeAll (as.set item.entry.1 item.entry.2) items := rfl
    rw [hstep, ih, TagItem.lastContent?, TagItem.lastContent?]
    -- A text under the key is what is left if no later one takes its place.
    by_cases hkey : item.entry.1 = contentKey
    · have hcontent : item.content? = some item.entry.2 := by simp [TagItem.content?, hkey]
      rw [hkey, Attributes.get?_set, List.filterMap_cons_some hcontent, List.getLast?_cons]
      cases (items.filterMap TagItem.content?).getLast? <;> rfl
    · have hcontent : item.content? = none := by simp [TagItem.content?, hkey]
      rw [Attributes.get?_set_ne hkey, List.filterMap_cons_none hcontent]

/-- Under other keys the pairs are kept, each in its place. -/
theorem erase_storeAll (as : Attributes) (hdistinct : ((TagItem.pairs items).map (·.1)).Nodup)
    (hnew : ∀ a ∈ TagItem.pairs items, a.1 ∉ (as.erase contentKey).map (·.1)) :
    (storeAll as items).erase contentKey =
      as.erase contentKey ++ (TagItem.pairs items).erase contentKey := by
  induction items generalizing as with
  | nil => simp [storeAll, TagItem.pairs, Attributes.erase]
  | cons item items ih =>
    cases item with
    | literal t =>
      have herase := Attributes.erase_set contentKey t as
      have hlater := ih (as.set contentKey t) hdistinct (by rw [herase]; exact hnew)
      rwa [herase] at hlater
    | pair n v =>
      have hpairs : TagItem.pairs (.pair n v :: items) = (n, v) :: TagItem.pairs items := rfl
      rw [hpairs, List.map_cons, List.nodup_cons] at hdistinct
      rw [hpairs, List.forall_mem_cons] at hnew
      rw [hpairs, Attributes.erase_cons]
      by_cases hn : n = contentKey
      · -- Such a pair is stored like a literal, and erased like one.
        subst hn
        have herase := Attributes.erase_set contentKey v as
        have hlater := ih (as.set contentKey v) hdistinct.2 (by rw [herase]; exact hnew.2)
        rwa [herase] at hlater
      · -- A new name goes to the end.
        have herase : (as.set n v).erase contentKey = as.erase contentKey ++ [(n, v)] := by
          rw [Attributes.erase_set_ne hn, set_of_notMem v hnew.1]
        have hlater := ih (as.set n v) hdistinct.2 (by
          intro a ha hmem
          rw [herase, List.map_append, List.mem_append] at hmem
          rcases hmem with hmem | hmem
          · exact hnew.2 a ha hmem
          · have hsame : a.1 = n := by simpa using hmem
            have hmem' := List.mem_map_of_mem (f := (·.1)) ha
            exact hdistinct.1 (hsame ▸ hmem'))
        rw [herase, List.append_assoc] at hlater
        rw [if_neg hn]
        exact hlater

end Stored

/-! ## The element of a tag -/

namespace WrittenTag

variable (tag : WrittenTag)

/-- The attributes of the element: all pairs but one that has the key of literals for its name. -/
def kept : Attributes := tag.pairs.erase contentKey

/-- The text that the element shows. -/
def shown : Option Text := TagItem.lastContent? (tag.items.map (·.2))

def block : Block :=
  match TagKind.ofName tag.name with
  | .container _ => .container (.box tag.name tag.kept) tag.shown
  | _ => .leaf tag.name tag.shown tag.kept

theorem itemsText_spaced (items : List (Nat × TagItem)) :
    itemsText items = [] ∨ (itemsText items).head? = some ' ' := by
  cases items with
  | nil => exact Or.inl rfl
  | cons first items =>
    rcases first with ⟨gap, item⟩
    cases gap <;> exact Or.inr rfl

/-- The token of the tag stands for its block. -/
theorem block?_token : (Tag.ofInner tag.inner).token.block? = some tag.block := by
  have hstored : Attribute.toAttributes
      (Attribute.readAll tag.name.length (itemsText tag.items)) =
        storeAll [] (tag.items.map (·.2)) :=
    foldl_store_itemsText _ [] tag.names fun item hitem => (tag.values item hitem).1
  have hkept : (storeAll [] (tag.items.map (·.2))).erase contentKey = tag.kept :=
    erase_storeAll [] tag.distinct fun _ _ => List.not_mem_nil
  have hshown : (storeAll [] (tag.items.map (·.2))).get? contentKey = tag.shown :=
    (get?_storeAll [] _).trans Option.or_none
  have hinner := Tag.ofInner_named (fun c hc => (tag.name_chars c hc).1) tag.name_head.1
    tag.name_head.2 (itemsText_spaced tag.items)
  -- A box keeps its name, which is none of the names that mean something else.
  have hbox : ∀ c : Container, c = .div ∨ c = .button ∨ c = .span →
      TagKind.ofName tag.name = .container c →
        (Tag.ofInner tag.inner).token.block? = some tag.block := by
    intro c hc hkind
    have hname := TagKind.name_of_ofName hkind
    have hhead : Head.ofAttributes (Head.typeOf c tag.name) tag.kept = .box tag.name tag.kept := by
      rcases hc with rfl | rfl | rfl <;> rw [← hname] <;> rfl
    have hclause : Clause.ofText (.container c) tag.name.length (itemsText tag.items) =
        .plain (Attribute.readAll tag.name.length (itemsText tag.items)) := by
      rcases hc with rfl | rfl | rfl <;> rfl
    rw [inner, hinner, hkind, hclause]
    simp only [Tag.token, hkind, Clause.attributes, hstored, Token.block?, Block.ofOpening, hkept,
      hshown, hhead, block]
  have hkind := tag.kind
  simp only [List.mem_cons, List.not_mem_nil, or_false] at hkind
  rcases hkind with hleaf | hdiv | hbutton | hspan
  · have hname : tag.name ≠ jsonName := by
      intro hjson
      rw [hjson] at hleaf
      exact absurd hleaf (by decide)
    rw [inner, hinner, hleaf]
    simp only [Tag.token, hleaf, Clause.ofText, Clause.attributes, hstored, Token.block?,
      Block.ofLeaf, if_neg hname, hkept, hshown, block]
  · exact hbox .div (by simp) hdiv
  · exact hbox .button (by simp) hbutton
  · exact hbox .span (by simp) hspan

end WrittenTag

/-! ## Reading the tag -/

section Read

variable {items : List (Nat × TagItem)}

/-- What holds of spaces and of the items, and of texts in a row, holds of them all. -/
theorem itemsText_induction {P : Text → Prop} (hnil : P [])
    (happend : ∀ a b, P a → P b → P (a ++ b)) (hspaces : ∀ n, P (List.replicate n ' '))
    (hitems : ∀ item ∈ items.map (·.2), P item.text) : P (itemsText items) := by
  induction items with
  | nil => exact hnil
  | cons first items ih =>
    rcases first with ⟨gap, item⟩
    rw [List.map_cons, List.forall_mem_cons] at hitems
    exact happend _ _ (hspaces gap)
      (happend [' '] _ (hspaces 1) (happend _ _ hitems.1 (ih hitems.2)))

theorem TagItem.transparent_text {item : TagItem}
    (hname : ∀ a, item.pair? = some a → isName Char.isAlpha isElementChar a.1 = true)
    (hvalue : '"' ∉ item.value) : Transparent item.text := by
  cases item with
  | literal v => exact transparent_quoted hvalue
  | pair n v =>
    have hplain : Transparent (n ++ ['=']) := by
      refine transparent_plain fun c hc => ?_
      rcases List.mem_append.mp hc with hc | hc
      · have hne := ne_of_isElementChar (elementChars_of_isName (hname (n, v) rfl) c hc)
        exact ⟨hne.1, hne.2.1⟩
      · rw [List.mem_singleton.mp hc]
        decide
    have hwhole := hplain.append (transparent_quoted hvalue)
    simpa [TagItem.text, TagItem.value] using hwhole

theorem TagItem.cr_notMem_text {item : TagItem}
    (hname : ∀ a, item.pair? = some a → isName Char.isAlpha isElementChar a.1 = true)
    (hvalue : '\r' ∉ item.value) : '\r' ∉ item.text := by
  cases item with
  | literal v => simpa [TagItem.text, TagItem.value] using hvalue
  | pair n v =>
    have hn : '\r' ∉ n := fun hmem =>
      (ne_of_isElementChar (elementChars_of_isName (hname (n, v) rfl) _ hmem)).2.2.2.2.1 rfl
    have hv : '\r' ∉ v := hvalue
    simp [TagItem.text, hn, hv]

end Read

namespace WrittenTag

variable (tag : WrittenTag)

theorem isName_pair {item : TagItem} (hitem : item ∈ tag.items.map (·.2)) :
    ∀ a, item.pair? = some a → isName Char.isAlpha isElementChar a.1 = true :=
  fun a ha => tag.names a (List.mem_filterMap.mpr ⟨item, hitem, ha⟩)

theorem transparent_inner : Transparent tag.inner := by
  have hname : Transparent tag.name := by
    refine transparent_plain fun c hc => ⟨?_, (tag.name_chars c hc).2.1⟩
    rintro rfl
    exact absurd (tag.name_chars _ hc).1 (by decide)
  refine hname.append (itemsText_induction (transparent_plain (by simp)) (fun _ _ => .append) ?_ ?_)
  · intro n
    refine transparent_plain fun c hc => ?_
    rw [List.eq_of_mem_replicate hc]
    decide
  · intro item hitem
    exact TagItem.transparent_text (tag.isName_pair hitem) (tag.values item hitem).1

theorem settled_text : Text.Settled tag.text := by
  have hitems : '\r' ∉ itemsText tag.items := by
    refine itemsText_induction (P := fun t => '\r' ∉ t) (by simp) ?_ ?_ ?_
    · intro a b ha hb
      simp [ha, hb]
    · intro n hmem
      exact absurd (List.eq_of_mem_replicate hmem) (by decide)
    · intro item hitem
      exact TagItem.cr_notMem_text (tag.isName_pair hitem) (tag.values item hitem).2
  have hname : '\r' ∉ tag.name := fun hmem => (tag.name_chars _ hmem).2.2 rfl
  exact Text.settled_of_notMem (by simp [text, inner, hname, hitems])

/-- A tag at the beginning of a body is its first token, whatever follows. -/
theorem exists_tokens (rest : Text) :
    ∃ ts, tokenize .lenient (tag.text ++ rest) = .ok ((Tag.ofInner tag.inner).token :: ts) ∧
      (rest = [] → ts = [.eof]) := by
  have hread : readAt {} (tag.text ++ Text.joinLines rest) = .tag tag.inner :=
    readAt_tag {} tag.transparent_inner
  have hreadings : readings (Text.joinLines (tag.text ++ rest)) =
      ⟨0, .tag tag.inner⟩ ::
        readFrom 0 (Cursor.advance {} tag.text) (Text.joinLines rest) := by
    have hspan : (Reading.tag tag.inner).span = tag.text := rfl
    rw [tag.settled_text rest]
    refine (readFrom_step {} (by simp [text])).trans ?_
    rw [hread, hspan, List.drop_left]
  refine ⟨assemble ((readFrom 0 (Cursor.advance {} tag.text) (Text.joinLines rest)).map
    (·.reading)), ?_, ?_⟩
  · rw [tokenize_eq_tokensOf]
    change Except.ok (assemble ((readings (Text.joinLines (tag.text ++ rest))).map (·.reading))) = _
    rw [hreadings]
    rfl
  · rintro rfl
    rfl

end WrittenTag

/-! ## The first element -/

namespace Builder

variable {b b' : Builder} {t : Token} {entry : Entry}

/-- What comes first stays first: only a paragraph is ever changed, and only the last one. -/
theorem Effect.head? (h : Effect b b' t) (hentry : entry.1.isParagraph = false)
    (hhead : b.outline.head? = some entry) : b'.outline.head? = some entry := by
  have happend : ∀ more, (b.outline ++ more).head? = some entry := by
    intro more
    rw [List.head?_append, hhead]
    rfl
  cases h with
  | block _ houtline _ _ => rw [houtline, happend]
  | begins _ _ _ _ houtline _ _ => rw [houtline, happend]
  | @goesOn t front items blanks item mark _ _ _ _ hbefore houtline _ _ =>
    rw [hbefore] at hhead
    cases front with
    | nil =>
      obtain rfl : (Block.paragraph items, mark) = entry := Option.some.inj hhead
      simp [Block.isParagraph] at hentry
    | cons first front => rw [houtline]; exact hhead
  | marks _ houtline _ _ => rw [houtline, hhead]
  | closes _ houtline _ _ => rw [houtline, hhead]
  | breaks houtline _ _ => rw [houtline, hhead]
  | rests _ houtline _ _ => rw [houtline, hhead]

/-- A block at the beginning is the first entry of the outline, and has no mark. -/
theorem head?_of_block (hsound : t.Sound) {block : Block} (hblock : t.block? = some block) :
    ∃ b', Builder.step {} t = .ok b' ∧ b'.Neat ∧ b'.outline.head? = some (block, {}) := by
  rcases step_effect neat_start hsound with ⟨b', hstep, hneat, heffect⟩
  have hsort := Token.sort_of_block? hblock
  refine ⟨b', hstep, hneat, ?_⟩
  cases heffect with
  | block hown houtline _ _ =>
    rw [houtline, Option.some.inj (hown.symm.trans hblock)]
    rfl
  | begins hink => simp [hsort.1] at hink
  | goesOn hink => simp [hsort.1] at hink
  | marks hremark => simp [hsort.2] at hremark
  | closes => simp [Token.block?] at hblock
  | breaks => simp [Token.block?] at hblock
  | rests hidle => simp [(Token.sort_of_idle hidle).1] at hblock

end Builder

theorem Element.exists_cons_of_entries {elements : List Element} {entry : Entry}
    (h : (Element.entries elements).head? = some entry) :
    ∃ e es, elements = e :: es ∧ e.entry = entry := by
  cases elements with
  | nil => simp [Element.entries, Element.preorderAll] at h
  | cons e es =>
    rcases e with ⟨block, mark, children⟩
    refine ⟨_, es, rfl, ?_⟩
    simpa [Element.entries, Element.preorderAll, Element.preorder] using h

/-- A list of one block. -/
theorem parse_block {t : Token} {block : Block} (h : t.block? = some block) :
    parse [t, .eof] = .ok [.mk block {} []] := by
  cases t with
  | heading level value => exact Option.some.inj h ▸ rfl
  | image as => exact Option.some.inj h ▸ rfl
  | component value as => exact Option.some.inj h ▸ rfl
  | leaf name as => exact Option.some.inj h ▸ rfl
  | opening c name as => exact Option.some.inj h ▸ rfl
  | _ => simp [Token.block?] at h

/-! ## The fields of elements -/

section Fields

variable (name : Text) (shown : Option Text) (as : Attributes) (children : List Element)

theorem fields_leaf :
    let v := (Element.mk (.leaf name shown as) {} children).toValue
    v.get? "attributes" = (if as = [] then none else some (attributesValue as)) ∧
      v.get? "content" = (shown.map fun t => .list [textValue t]) ∧
      v.get? "elements" = none := by
  intro v
  refine ⟨?_, ?_, ?_⟩
  · refine (get?_toValue _).2.trans ?_
    cases as <;> rfl
  · cases shown <;> cases as <;> rfl
  · cases shown <;> cases as <;> rfl

theorem fields_box :
    let v := (Element.mk (.container (.box name as) shown) {} children).toValue
    v.get? "attributes" = (if as = [] then none else some (attributesValue as)) ∧
      v.get? "content" = none ∧
      v.get? "elements" = some (.list (Block.literalParagraph (.container (.box name as) shown) ++
        Element.toValues children)) := by
  intro v
  refine ⟨?_, ?_, ?_⟩
  · refine (get?_toValue _).2.trans ?_
    cases as <;> rfl
  · cases as <;> rfl
  · cases as <;> rfl

end Fields

/-! ## What was meant -/

namespace WrittenTag

variable (tag : WrittenTag)

/-- The element has exactly the pairs for its attributes, and shows the literal and nothing else:
a leaf as its content, a box as its first paragraph. -/
structure Kept (tag : WrittenTag) (e : Element) : Prop where
  attributes : e.toValue.get? "attributes" =
    if tag.pairs = [] then none else some (attributesValue tag.pairs)
  content : e.toValue.get? "content" =
    if (TagKind.ofName tag.name).isContainer then none
    else tag.literal?.map fun t => .list [textValue t]
  elements : e.toValue.get? "elements" =
    if (TagKind.ofName tag.name).isContainer then
      some (.list ((tag.literal?.map fun t =>
        .object [("type", .str "p"), ("content", .list [textValue t])]).toList ++
          Element.toValues e.children))
    else none

/-- Where no pair has the key of literals for its name, the literal is shown. -/
theorem shown_eq_literal (h : contentKey ∉ tag.pairs.map (·.1)) : tag.shown = tag.literal? := by
  have hsame : (tag.items.map (·.2)).filterMap TagItem.content? =
      TagItem.literals (tag.items.map (·.2)) := by
    refine List.filterMap_congr fun item hitem => ?_
    cases item with
    | literal t => rfl
    | pair n v =>
      have hne : n ≠ contentKey := by
        rintro rfl
        exact h (List.mem_map.mpr ⟨(contentKey, v),
          List.mem_filterMap.mpr ⟨_, hitem, rfl⟩, rfl⟩)
      simp [TagItem.content?, TagItem.entry, TagItem.literal?, hne]
  rw [shown, TagItem.lastContent?, hsame, literal?]
  rcases tag.literals with hnone | ⟨t, -, hone⟩
  · rw [hnone]
    rfl
  · rw [hone]
    rfl

theorem literalParagraph_literal (head : Head) :
    Block.literalParagraph (.container head tag.literal?) =
      (tag.literal?.map fun t =>
        .object [("type", .str "p"), ("content", .list [textValue t])]).toList := by
  rw [literal?]
  rcases tag.literals with hnone | ⟨t, hne, hone⟩
  · rw [hnone]
    rfl
  · rw [hone]
    simp [Block.literalParagraph, hne]

theorem kept_of_notMem (h : contentKey ∉ tag.pairs.map (·.1)) (children : List Element) :
    tag.Kept (.mk tag.block {} children) := by
  have hkept : tag.kept = tag.pairs :=
    erase_of_notMem fun a ha hkey => h (List.mem_map.mpr ⟨a, ha, hkey⟩)
  unfold block
  rw [hkept, tag.shown_eq_literal h]
  cases hkind : TagKind.ofName tag.name with
  | container c =>
    rcases fields_box tag.name tag.literal? tag.pairs children with
      ⟨hattributes, hcontent, helements⟩
    refine ⟨hattributes, ?_, ?_⟩
    · rw [hkind]
      exact hcontent
    · rw [hkind, ← tag.literalParagraph_literal (.box tag.name tag.pairs)]
      exact helements
  | _ =>
    rcases fields_leaf tag.name tag.literal? tag.pairs children with
      ⟨hattributes, hcontent, helements⟩
    exact ⟨hattributes, by rw [hkind]; exact hcontent, by rw [hkind]; exact helements⟩

theorem get?_attributes (children : List Element) :
    (Element.mk tag.block {} children).toValue.get? "attributes" =
      if tag.kept = [] then none else some (attributesValue tag.kept) := by
  unfold block
  split
  · exact (fields_box tag.name tag.shown tag.kept children).1
  · exact (fields_leaf tag.name tag.shown tag.kept children).1

/-- A pair with the key of literals for its name is lost, and nothing else is. -/
theorem kept_iff (children : List Element) :
    tag.Kept (.mk tag.block {} children) ↔ contentKey ∉ tag.pairs.map (·.1) := by
  refine ⟨fun hkept hmem => ?_, fun h => tag.kept_of_notMem h children⟩
  have hattributes := (tag.get?_attributes children).symm.trans hkept.attributes
  rcases List.mem_map.mp hmem with ⟨a, ha, hkey⟩
  have hne : tag.pairs ≠ [] := List.ne_nil_of_mem ha
  rw [if_neg hne] at hattributes
  split at hattributes
  · simp at hattributes
  · -- The attributes that are shown are fewer than the pairs.
    have hlength : tag.kept.length = tag.pairs.length := by
      simpa [attributesValue, Value.object, Value.entries?] using
        congrArg (fun v : Value => v.entries?.map List.length) (Option.some.inj hattributes)
    have hall := List.length_filter_eq_length_iff.mp hlength a ha
    simp [hkey] at hall

end WrittenTag

/-- A tag at the beginning of a body comes to its first element, whatever follows. The element has
the pairs of the tag for its attributes and shows the literal exactly if no pair has the key of
literals for its name; such a pair is no attribute, and it is shown unless a literal comes later. -/
theorem tag_kept_iff (tag : WrittenTag) (rest : Text) :
    ∃ ts e es, tokenize .lenient (tag.text ++ rest) = .ok ts ∧ parse ts = .ok (e :: es) ∧
      e.block = tag.block ∧ e.mark = {} ∧ (rest = [] → e.children = [] ∧ es = []) ∧
      (tag.Kept e ↔ contentKey ∉ tag.pairs.map (·.1)) := by
  rcases tag.exists_tokens rest with ⟨ts, htokens, hlast⟩
  have hblock := tag.block?_token
  have hne : (Tag.ofInner tag.inner).token ≠ .eof := ne_eof_tag _
  have hsound := (tokenList_of_tokenize htokens).sound
  rw [untilEof_cons hne] at hsound
  -- The block of the tag is the first entry of the outline, and no later token takes its place.
  rcases Builder.head?_of_block (sound_tag _) hblock with ⟨b₁, hstep, hneat₁, hhead₁⟩
  have hparagraph : tag.block.isParagraph = false := by
    unfold WrittenTag.block
    split <;> rfl
  have hlater : ∀ t ∈ untilEof ts, t.Sound := fun t ht => hsound t (List.mem_cons_of_mem _ ht)
  rcases Builder.run_preserves (fun heffect => heffect.head? hparagraph) hneat₁ hhead₁ hlater with
    ⟨b, hrun, hneat, hhead⟩
  rcases Builder.finish_neat hneat with ⟨elements, hfinish, hentries⟩
  have hparse : parse ((Tag.ofInner tag.inner).token :: ts) = .ok elements := by
    rw [parse, untilEof_cons hne, Builder.run_of_step hstep, hrun]
    exact hfinish
  rw [← hentries] at hhead
  rcases Element.exists_cons_of_entries hhead with ⟨e, es, rfl, hentry⟩
  rcases e with ⟨block, mark, children⟩
  rcases Prod.mk.inj hentry with ⟨hsame, hmark⟩
  obtain rfl : block = tag.block := hsame
  obtain rfl : mark = {} := hmark
  refine ⟨_, _, es, htokens, hparse, rfl, rfl, ?_, tag.kept_iff children⟩
  -- With nothing behind it the tag is the whole body.
  intro hrest
  rw [hlast hrest, parse_block hblock] at hparse
  have hone : [Element.mk tag.block {} []] = .mk tag.block {} children :: es := Except.ok.inj hparse
  simp only [List.cons.injEq, Element.mk.injEq, true_and] at hone
  exact ⟨hone.1.symm, hone.2.symm⟩

/-- A box with one pair, which is named like the key of literals. -/
def contentBox : WrittenTag where
  name := ['d', 'i', 'v']
  items := [(0, .pair contentKey ['x'])]
  name_chars := by simp [endsName]
  name_head := by decide
  kind := by decide
  names := by decide
  distinct := by decide
  values := by decide
  literals := Or.inl rfl

/-- The pair is not an attribute of the element, but its first paragraph. -/
theorem tag_not_kept_content :
    contentBox.text = "[div content=\"x\"]".toList ∧
      ∃ ts e, tokenize .lenient contentBox.text = .ok ts ∧ parse ts = .ok [e] ∧
        ¬ contentBox.Kept e ∧ e.toValue.get? "attributes" = none ∧
        e.block = .container (.box ['d', 'i', 'v'] []) (some ['x']) := by
  refine ⟨by decide, [.opening .div ['d', 'i', 'v'] [(contentKey, ['x'])], .eof],
    .mk (.container (.box ['d', 'i', 'v'] []) (some ['x'])) {} [], by decide, rfl, ?_, rfl, rfl⟩
  intro h
  have hattributes : none = some (attributesValue contentBox.pairs) := h.attributes
  simp at hattributes

end Notemark.Body
