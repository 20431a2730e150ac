import Notemark.Document.Compile
import Notemark.Proofs.Conservation
import Notemark.Proofs.StylePass

/-!
# The parts of a document

What each part of the work on a note comes to, whatever is noted on the way:

* `exists_elements`: the tokens of a body always have a tree, with the blocks of the tokens,
* `outcome_elementsOf`: the elements of a body, styled if the settings say so, unless one of them has
  a fault,
* `outcome_build`, `outcome_compile_unchecked`: the fields of the header and the elements of the
  body are put together, unless the pipes have a fault.
-/

namespace Notemark

/-- The tokens of a body have elements, and their blocks other than paragraphs are those of the
tokens. -/
theorem Body.exists_elements {mode : Mode} {body : Text} {ts : List Token}
    (h : tokenize mode body = .ok ts) :
    ∃ elements, parse ts = .ok elements ∧
      ((Element.preorderAll elements).map Element.block).filter (!·.isParagraph) =
        (untilEof ts).filterMap Token.block? := by
  have htokens := tokenList_of_tokenize h
  rcases Builder.run_tells Builder.neat_start Builder.tells_start htokens.sound htokens.shaped with
    ⟨b, hrun, hneat, htells⟩
  rcases Builder.finish_neat hneat with ⟨elements, hfinish, hentries⟩
  refine ⟨elements, ?_, ?_⟩
  · rw [parse, hrun]
    exact hfinish
  · have hblocks : Builder.outlineBlocks (Element.entries elements) = _ :=
      hentries ▸ htells.blocks
    rwa [Builder.outlineBlocks, Element.entries, List.map_map] at hblocks

namespace Document

open Body (Mode)

variable {settings : Settings} {mode : Mode} {body note : Text}

/-- Elements as the settings want them. -/
def dressed (settings : Settings) (vs : List Value) : List Value :=
  if settings.convertStyles then vs.map Style.styled else vs

/-- The elements whose classes are converted, in order. -/
def classed (settings : Settings) (vs : List Value) : List Entries :=
  if settings.convertStyles then vs.flatMap Style.visits else []

/-- What there is to say about a scan does not matter for what comes of it. -/
theorem outcome_tokensOf (mode : Mode) (body : Text) :
    (tokensOf mode body).outcome = (Body.tokenize mode body).mapError Failure.scan := by
  unfold tokensOf Body.tokenize
  cases Body.scan mode body with
  | error e => rfl
  | ok found => rfl

variable [CallStack]

theorem outcome_restyleAll (vs : List Value) :
    (restyleAll vs).outcome =
      (barring (Style.firstFault? (vs.flatMap Style.visits)) (vs.map Style.styled)).mapError
        Failure.style := by
  induction vs with
  | nil => rfl
  | cons v vs ih =>
    rw [restyleAll, Run.outcome_bind, Run.outcome_adapt, Style.outcome_restyle, List.flatMap_cons,
      Style.firstFault?_append, barring_mapError, barring_mapError, Option.map_or]
    apply barring_bind
    rw [Run.outcome_bind, ih, barring_mapError]
    exact barring_bind_ok rfl

theorem outcome_elementsOf_error {e : Body.ScanError} (h : Body.tokenize mode body = .error e) :
    (elementsOf settings mode body).outcome = .error (.scan e) := by
  rw [elementsOf, Run.outcome_bind, outcome_tokensOf, h]
  rfl

theorem outcome_elementsOf {ts : List Body.Token} {elements : List Body.Element}
    (htokens : Body.tokenize mode body = .ok ts) (htree : Body.parse ts = .ok elements) :
    (elementsOf settings mode body).outcome =
      (barring (Style.firstFault? (classed settings (Body.Element.toValues elements)))
        (dressed settings (Body.Element.toValues elements))).mapError Failure.style := by
  have hpart : (tokensOf mode body).outcome = .ok ts := by rw [outcome_tokensOf, htokens]; rfl
  have htreeOf : (treeOf ts).outcome = .ok (Body.Element.toValues elements) := by
    rw [treeOf, htree]
    rfl
  rw [elementsOf, Run.outcome_bind, hpart]
  change (Run.outcome (treeOf ts >>= _)) = _
  rw [Run.outcome_bind, htreeOf]
  change (Run.outcome (if settings.convertStyles then _ else _)) = _
  rw [classed, dressed]
  split
  · rw [outcome_restyleAll]
  · rfl

/-- The outcome of the whole work. -/
theorem outcome_build (settings : Settings) (mode : Mode) (note : Text) :
    (build settings mode note).outcome =
      (Header.extract note).outcome.mapError Failure.header >>= fun found =>
        (elementsOf settings mode found.2).outcome >>= fun elements =>
          ((assemble settings found.1 elements).outcome.mapError Failure.pipe).map
            (Value.map none) := by
  rw [build, Run.outcome_bind]
  change (Run.outcome (_ >>= _)) = _
  rw [Run.outcome_bind, Run.outcome_adapt]
  congr 1
  funext found
  rw [Run.outcome_bind]
  congr 1
  funext elements
  rw [Run.outcome_bind, Run.outcome_adapt]
  cases (assemble settings found.1 elements).outcome <;> rfl

/-- Without the check a document is what it is built to be. -/
theorem outcome_compile_unchecked (h : settings.validateOutput = false) (mode : Mode)
    (note : Text) : (compile settings mode note).outcome = (build settings mode note).outcome := by
  rw [compile, Run.outcome_bind]
  simp only [h]
  cases (build settings mode note).outcome with
  | error f => rfl
  | ok document => rfl

end Document

end Notemark
