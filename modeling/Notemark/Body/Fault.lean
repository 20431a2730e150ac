import Notemark.Body.Position

/-!
# Structural faults

* `Fault`: the causes for which strict reading gives up,
* `FaultCode`: the closed set of codes, one or more causes each,
* `Fault.message`: the wording, without the position,
* `ScanError`: a cause together with the position of the construct.
-/

namespace Notemark.Body

inductive FaultCode where
  | unmatchedClosingTag
  | mismatchedTag
  | unclosedTag
  | emptyElementName
  | invalidElementName
  | invalidAttributeName
  | unquotedAttribute
  | emptyCondition
  | invalidCondition
  | invalidLoopSource
  | missingLoopVariable
  | invalidLoopVariable
  | missingFormEvent
  | invalidFormEvent
  | invalidEventName
  | emptyVariable
  | unbalancedBraces
  | unclosedQuote
  | unclosedElement
  deriving Repr, DecidableEq

def FaultCode.text : FaultCode → String
  | unmatchedClosingTag => "UNMATCHED_CLOSING_TAG"
  | mismatchedTag => "MISMATCHED_TAG"
  | unclosedTag => "UNCLOSED_TAG"
  | emptyElementName => "EMPTY_ELEMENT_NAME"
  | invalidElementName => "INVALID_ELEMENT_NAME"
  | invalidAttributeName => "INVALID_ATTRIBUTE_NAME"
  | unquotedAttribute => "UNQUOTED_ATTRIBUTE"
  | emptyCondition => "EMPTY_CONDITION"
  | invalidCondition => "INVALID_CONDITION"
  | invalidLoopSource => "INVALID_LOOP_SOURCE"
  | missingLoopVariable => "MISSING_LOOP_VARIABLE"
  | invalidLoopVariable => "INVALID_LOOP_VARIABLE"
  | missingFormEvent => "MISSING_FORM_EVENT"
  | invalidFormEvent => "INVALID_FORM_EVENT"
  | invalidEventName => "INVALID_EVENT_NAME"
  | emptyVariable => "EMPTY_VARIABLE"
  | unbalancedBraces => "UNBALANCED_BRACES"
  | unclosedQuote => "UNCLOSED_QUOTE"
  | unclosedElement => "UNCLOSED_ELEMENT"

/-- Why a construct is refused. -/
inductive Fault where
  | unmatchedClosingTag (name : Text)
  | mismatchedTag (name expected : Text) (opened : Position)
  | unclosedTag (name : Text)
  | emptyElementName
  | emptyIdMarker
  | elementNameNewline (name : Text)
  | invalidElementName (name : Text)
  | invalidAttributeName (name : Text)
  | unquotedAttribute (name : Text)
  | unquotedClass
  | emptyCondition
  | invalidCondition (condition : Text)
  | invalidLoopSource (source : Text)
  | missingLoopVariable
  | invalidLoopVariable (name : Text)
  | missingFormEvent
  | invalidFormEvent (event : Text)
  | invalidEventName (event : Text)
  | emptyReference
  | emptyJsonVariable
  | unbalancedReference (raw : Text)
  | unterminatedIdMarker
  | malformedStyleMarker
  | unclosedQuote
  | unclosedElement
  deriving Repr, DecidableEq

namespace Fault

def code : Fault → FaultCode
  | unmatchedClosingTag _ => .unmatchedClosingTag
  | mismatchedTag .. => .mismatchedTag
  | unclosedTag _ => .unclosedTag
  | emptyElementName | emptyIdMarker => .emptyElementName
  | elementNameNewline _ | invalidElementName _ => .invalidElementName
  | invalidAttributeName _ => .invalidAttributeName
  | unquotedAttribute _ | unquotedClass => .unquotedAttribute
  | emptyCondition => .emptyCondition
  | invalidCondition _ => .invalidCondition
  | invalidLoopSource _ => .invalidLoopSource
  | missingLoopVariable => .missingLoopVariable
  | invalidLoopVariable _ => .invalidLoopVariable
  | missingFormEvent => .missingFormEvent
  | invalidFormEvent _ => .invalidFormEvent
  | invalidEventName _ => .invalidEventName
  | emptyReference | emptyJsonVariable => .emptyVariable
  | unbalancedReference _ | unterminatedIdMarker | malformedStyleMarker => .unbalancedBraces
  | unclosedQuote => .unclosedQuote
  | unclosedElement => .unclosedElement

/-- A name as it is shown in a message: line ends are spelled out. -/
def visibleLineEnds (name : Text) : Text :=
  Text.replaceChar '\r' ['\\', 'r'] (Text.replaceChar '\n' ['\\', 'n'] name)

private def shown (t : Text) : String := String.ofList t

def message : Fault → String
  | unmatchedClosingTag name =>
    s!"Unexpected closing tag [/{shown name}] with no matching opening tag"
  | mismatchedTag name expected opened =>
    s!"Mismatched closing tag [/{shown name}] - expected [/{shown expected}] " ++
      s!"(opened at line {opened.line}, column {opened.column})"
  | unclosedTag name => s!"Unclosed tag [{shown name}]"
  | emptyElementName => "Empty element name"
  | emptyIdMarker => "Empty id in \x7b#\x7d marker"
  | elementNameNewline name =>
    s!"Invalid element name [{shown (visibleLineEnds name)}] - contains newline"
  | invalidElementName name =>
    s!"Invalid element name [{shown name}] - must start with a letter and contain " ++
      "only letters, numbers, hyphens, and underscores"
  | invalidAttributeName name => s!"Invalid attribute name \"{shown name}\""
  | unquotedAttribute name => s!"Attribute value for \"{shown name}\" must be quoted"
  | unquotedClass => "Style marker class must be quoted"
  | emptyCondition => "Empty condition in [if] statement"
  | invalidCondition condition => s!"Invalid condition \"{shown condition}\" in [if] statement"
  | invalidLoopSource source =>
    s!"Invalid loop source \"{shown source}\" - must be a query reference starting with $"
  | missingLoopVariable => "Missing loop variable name"
  | invalidLoopVariable name => s!"Invalid loop variable name \"{shown name}\""
  | missingFormEvent => "Form requires an event reference"
  | invalidFormEvent event => s!"Invalid form event \"{shown event}\" - must start with @"
  | invalidEventName event => s!"Invalid event name \"{shown event}\""
  | emptyReference => "Empty variable reference \x7b\x7d"
  | emptyJsonVariable => "Empty variable in [json] element"
  | unbalancedReference raw => s!"Unbalanced braces in variable reference \"{shown raw}\""
  | unterminatedIdMarker => "Unterminated id marker"
  | malformedStyleMarker => "Malformed style marker"
  | unclosedQuote => "Unclosed quote in attribute"
  | unclosedElement => "Missing closing bracket for element"

end Fault

/-- A refused construct and where it stands. -/
structure ScanError where
  fault : Fault
  position : Position
  deriving Repr, DecidableEq

/-- The message with its position. -/
def ScanError.text (e : ScanError) : String :=
  s!"{e.fault.message} at line {e.position.line}, column {e.position.column}"

end Notemark.Body
