import Notemark.Body.Tag

/-!
# Forms of tags

What a tag says can be told apart from what strict reading demands of it:

* `Attribute.readAll`: the items of an attribute list,
* `Clause`, `Tag`: what follows a name, and the whole of a tag; `Tag.ofInner` is the tag with a given
  inner text, `Tag.token` its token,
* `checkTag`: all rules for a tag except the balance, `Tag.balance`: the balance,
* `takeTag_eq`: a tag is taken as it says, after its rules and its balance have been demanded in
  the order in which they come.
-/

namespace Notemark.Body

/-! ## What a tag says -/

namespace Attribute

def readFrom (phase : Phase) (offset : Nat) : Text → List Attribute
  | [] => phase.finish
  | c :: cs =>
    match phase.step offset c with
    | (next, none) => readFrom next (offset + 1) cs
    | (next, some item) => item :: readFrom next (offset + 1) cs

/-- Items of the form `name="value"`, `name=value`, bare names and quoted literals. -/
def readAll (offset : Nat) (t : Text) : List Attribute := readFrom .between offset t

def toAttributes (items : List Attribute) : Attributes := items.foldl store []

end Attribute

/-- What follows the name of an opening tag. -/
inductive Clause where
  | plain (items : List Attribute)
  | form (event : Text) (items : List Attribute)
  | each (source loopVariable : Text)
  | cond (condition : Text)
  | json (shown : Text)
  deriving Repr, DecidableEq

namespace Clause

/-- `@event` comes first, then attributes. -/
def ofForm (offset : Nat) (rest : Text) : Clause :=
  let stripped := Text.stripStart rest
  if stripped.head? = some '@' then
    let event := stripped.takeWhile fun c => !Text.isBlank c
    let used := rest.length - stripped.length + event.length
    .form event (Attribute.readAll (offset + used) (rest.drop used))
  else .form [] (Attribute.readAll offset rest)

/-- `source as variable`. -/
def ofEach (rest : Text) : Clause :=
  let padded := ' ' :: (Text.strip rest ++ [' '])
  match Text.cut? [' ', 'a', 's', ' '] padded with
  | some (source, loopVariable) => .each (Text.strip source) (Text.strip loopVariable)
  | none => .each (Text.strip padded) []

/-- Reads what follows a name by the kind of the tag; the offset is that of the text read. -/
def ofText (kind : TagKind) (offset : Nat) (rest : Text) : Clause :=
  match kind with
  | .container .form => ofForm offset rest
  | .container .each => ofEach rest
  | .container .cond => .cond (Text.strip rest)
  | .json => .json (Text.strip rest)
  | _ => .plain (Attribute.readAll offset rest)

def attributes : Clause → Attributes
  | plain items => Attribute.toAttributes items
  | form event items => (Attribute.toAttributes items).set eventKey event
  | each source loopVariable => [(sourceKey, source), (variableKey, loopVariable)]
  | cond condition => [(conditionKey, condition)]
  | json shown => [(variableKey, shown)]

end Clause

/-- A bracket tag. -/
inductive Tag where
  | closing (name : Text)
  | component (name argument : Text)
  | opening (name : Text) (clause : Clause)
  deriving Repr, DecidableEq

namespace Tag

def ofInner : Text → Tag
  | '/' :: t => closing (Text.strip t)
  | '#' :: t =>
    let body := Text.strip t
    component (body.takeWhile fun c => !Text.isBlank c)
      (Text.strip (body.dropWhile fun c => !Text.isBlank c))
  | t =>
    let name := t.takeWhile fun c => !endsName c
    opening name (Clause.ofText (TagKind.ofName name) name.length (t.drop name.length))

def token : Tag → Token
  | closing name => .closing (Container.ofName? name) name
  | component name argument =>
    .component ('#' :: name) [(aliasKey, '#' :: name), (argumentKey, argument)]
  | opening name clause =>
    match TagKind.ofName name with
    | .container c => .opening c name clause.attributes
    | _ => .leaf name clause.attributes

end Tag

/-! ## What is demanded -/

/-- The items of an attribute list whose tag text starts at `inner`. -/
def checkAttributes (map : SourceMap) (inner : Nat) : List Attribute → Except ScanError Unit
  | [] => .ok ()
  | .literal _ :: later => checkAttributes map inner later
  | .pair name value quoted offset :: later => do
    report map (inner + offset) (Check.attributeItem name value quoted)
    checkAttributes map inner later

/-- What follows the name of the tag at `start`. -/
def checkClause (map : SourceMap) (start : Nat) : Clause → Except ScanError Unit
  | .plain items => checkAttributes map (start + 1) items
  | .form event items => do
    report map start (Check.event event)
    checkAttributes map (start + 1) items
  | .each source loopVariable => report map start (Check.loop source loopVariable)
  | .cond condition => report map start (Check.condition condition)
  | .json shown => report map start (Check.jsonVariable shown)

/-- The tag at `start`. -/
def checkTag (map : SourceMap) (start : Nat) : Tag → Except ScanError Unit
  | .closing name => report map start (Check.elementName name)
  | .component name _ => report map start (Check.elementName name)
  | .opening name clause => do
    report map start (Check.elementName name)
    checkClause map start clause

/-- A container tag is opened, the innermost one is closed, or nothing changes. -/
def Tag.balance (map : SourceMap) (stack : TagStack Container) (start : Nat) :
    Tag → Except ScanError (TagStack Container)
  | .closing name => (stack.pop name (map.position start)).map (·.2)
  | .opening name _ =>
    match TagKind.ofName name with
    | .container c => .ok (stack.push ⟨c, name, map.position start⟩)
    | _ => .ok stack
  | .component .. => .ok stack

/-! ## Taking a tag -/

section Taking

variable {mode : Mode} {map : SourceMap} {stack : TagStack Container}

/-- Demands one after the other are one demand. -/
theorem Mode.demand_bind (r r' : Except ScanError Unit) :
    (mode.demand r >>= fun _ => mode.demand r') = mode.demand (r >>= fun _ => r') := by
  cases mode <;> rfl

theorem checkAttributes_cons (inner : Nat) (item : Attribute) (items : List Attribute) :
    checkAttributes map inner (item :: items) =
      item.check map inner >>= fun _ => checkAttributes map inner items := by
  cases item with
  | literal value => rfl
  | pair name value quoted offset => rfl

/-- Items are judged one by one, and kept if none of them is refused. -/
theorem foldlM_keepAttribute (inner : Nat) (as : Attributes) (items : List Attribute) :
    items.foldlM (keepAttribute mode map inner) as =
      (mode.demand (checkAttributes map inner items)).map fun _ =>
        items.foldl Attribute.store as := by
  induction items generalizing as with
  | nil => cases mode <;> rfl
  | cons item items ih =>
    rw [List.foldlM_cons, List.foldl_cons, checkAttributes_cons, ← Mode.demand_bind, keepAttribute]
    cases mode.demand (item.check map inner) with
    | error e => rfl
    | ok u => exact ih (item.store as)

/-- An item is kept as soon as it is complete, which is as good as keeping all of them at the
end. -/
theorem parseAttributesFrom_eq (inner : Nat) (phase : Attribute.Phase) (offset : Nat)
    (as : Attributes) (t : Text) :
    parseAttributesFrom mode map inner phase offset as t =
      (Attribute.readFrom phase offset t).foldlM (keepAttribute mode map inner) as := by
  induction t generalizing phase offset as with
  | nil => rfl
  | cons c cs ih =>
    rw [parseAttributesFrom, Attribute.readFrom]
    rcases phase.step offset c with ⟨next, _ | item⟩
    · exact ih next (offset + 1) as
    · dsimp only
      rw [List.foldlM_cons]
      congr 1
      funext kept
      exact ih next (offset + 1) kept

theorem parseAttributes_eq (inner offset : Nat) (t : Text) :
    parseAttributes mode map inner offset t =
      (mode.demand (checkAttributes map inner (Attribute.readAll offset t))).map fun _ =>
        Attribute.toAttributes (Attribute.readAll offset t) := by
  rw [parseAttributes, parseAttributesFrom_eq, foldlM_keepAttribute]
  rfl

/-- The attributes of a clause are those that it says, once its rules have been demanded. -/
theorem parseClause_eq (kind : TagKind) (start offset : Nat) (rest : Text) :
    parseClause mode map kind start offset rest =
      (mode.demand (checkClause map start (Clause.ofText kind offset rest))).map fun _ =>
        (Clause.ofText kind offset rest).attributes := by
  have hplain : parseAttributes mode map (start + 1) offset rest =
      (mode.demand (checkClause map start (.plain (Attribute.readAll offset rest)))).map fun _ =>
        (Clause.plain (Attribute.readAll offset rest)).attributes :=
    parseAttributes_eq (start + 1) offset rest
  -- An event stands before the attributes, and is judged before them.
  have hform : ∀ (event : Text) (used : Nat),
      (mode.demand (report map start (Check.event event)) >>= fun _ =>
        parseAttributes mode map (start + 1) (offset + used) (rest.drop used) >>= fun as =>
          .ok (as.set eventKey event)) =
        (mode.demand (checkClause map start
          (.form event (Attribute.readAll (offset + used) (rest.drop used))))).map fun _ =>
          (Clause.form event (Attribute.readAll (offset + used) (rest.drop used))).attributes := by
    intro event used
    rw [parseAttributes_eq, checkClause, ← Mode.demand_bind]
    cases mode.demand (report map start (Check.event event)) with
    | error e => rfl
    | ok u =>
      cases mode.demand (checkAttributes map (start + 1)
        (Attribute.readAll (offset + used) (rest.drop used))) <;> rfl
  cases kind with
  | leaf => exact hplain
  | json => rfl
  | container c =>
    cases c with
    | form =>
      unfold parseClause parseForm Clause.ofText Clause.ofForm
      dsimp only
      split
      · exact hform _ _
      · exact hform [] 0
    | each =>
      unfold parseClause parseEach Clause.ofText Clause.ofEach
      dsimp only
      cases Text.cut? [' ', 'a', 's', ' '] (' ' :: (Text.strip rest ++ [' '])) with
      | none => rfl
      | some parts => rfl
    | cond => rfl
    | _ => exact hplain

/-- Lenient reading does not look at the balance either. -/
def Mode.balance (mode : Mode) (map : SourceMap) (stack : TagStack Container) (start : Nat)
    (tag : Tag) : Except ScanError (TagStack Container) :=
  match mode with
  | .lenient => .ok stack
  | .strict => tag.balance map stack start

theorem takeClosing_eq (start : Nat) (name : Text) :
    takeClosing mode map stack start name =
      mode.demand (checkTag map start (.closing name)) >>= fun _ =>
        (mode.balance map stack start (.closing name)).map fun stack =>
          ((Tag.closing name).token, stack) := by
  have hclose : closeTag mode map stack start name =
      mode.balance map stack start (.closing name) := by cases mode <;> rfl
  rw [takeClosing, hclose, checkTag]
  cases mode.demand (report map start (Check.elementName name)) with
  | error e => rfl
  | ok u => cases mode.balance map stack start (.closing name) <;> rfl

theorem takeComponent_eq (start : Nat) (t : Text) :
    takeComponent mode map stack start t =
      mode.demand (checkTag map start (Tag.ofInner ('#' :: t))) >>= fun _ =>
        (mode.balance map stack start (Tag.ofInner ('#' :: t))).map fun stack =>
          ((Tag.ofInner ('#' :: t)).token, stack) := by
  cases mode with
  | lenient => rfl
  | strict => rfl

/-- The name is read first, and its kind decides how the rest is read. -/
theorem takeOpening_eq (start : Nat) {inner name : Text} {clause : Clause}
    (hname : inner.takeWhile (fun c => !endsName c) = name)
    (hclause : Clause.ofText (TagKind.ofName name) name.length (inner.drop name.length) = clause) :
    takeOpening mode map stack start inner =
      mode.demand (checkTag map start (.opening name clause)) >>= fun _ =>
        (mode.balance map stack start (.opening name clause)).map fun stack =>
          ((Tag.opening name clause).token, stack) := by
  unfold takeOpening
  dsimp only
  rw [hname, parseClause_eq, hclause, checkTag, ← Mode.demand_bind]
  cases mode.demand (report map start (Check.elementName name)) with
  | error e => rfl
  | ok u =>
    cases mode.demand (checkClause map start clause) with
    | error e => rfl
    | ok u =>
      -- Only a container tag has an effect on the tags that are open.
      cases hkind : TagKind.ofName name <;> cases mode <;>
        simp only [Mode.balance, Tag.balance, Tag.token, hkind] <;> rfl

/-- A tag is taken as it says, once its rules have been demanded, and then its balance. -/
theorem takeTag_eq (start : Nat) (inner : Text) :
    takeTag mode map stack start inner =
      mode.demand (checkQuotes map (start + 1) inner >>= fun _ =>
        checkTag map start (Tag.ofInner inner)) >>= fun _ =>
          (mode.balance map stack start (Tag.ofInner inner)).map fun stack =>
            ((Tag.ofInner inner).token, stack) := by
  unfold takeTag
  rw [← Mode.demand_bind]
  cases mode.demand (checkQuotes map (start + 1) inner) with
  | error e => rfl
  | ok u =>
    split
    · exact takeClosing_eq start _
    · exact takeComponent_eq start _
    · next hslash hhash =>
      obtain ⟨name, clause, htag, hname, hclause⟩ : ∃ name clause,
          Tag.ofInner inner = .opening name clause ∧
            inner.takeWhile (fun c => !endsName c) = name ∧
              Clause.ofText (TagKind.ofName name) name.length (inner.drop name.length) =
                clause := by
        unfold Tag.ofInner
        split
        · exact absurd rfl (hslash _)
        · exact absurd rfl (hhash _)
        · exact ⟨_, _, rfl, rfl, rfl⟩
      rw [htag]
      exact takeOpening_eq start hname hclause

end Taking

end Notemark.Body
