import Notemark.Log
import Notemark.Style.Palette
import Notemark.Text.Digit

/-!
# Utility classes

* `Setting`: what a style property is set to,
* `Properties`: style properties in order of first appearance, the last setting of each counting,
* `declarations`: the properties that one class sets,
* `styleOf`: the style of a list of classes.
-/

namespace Notemark.Style

open Decimal (Double)

inductive Setting where
  | text (s : String)
  | whole (n : Nat)
  | fraction (x : Double)
  deriving Repr, DecidableEq

def Setting.toValue : Setting → Value
  | text s => .str s
  | whole n => .int n
  | fraction x => .scalar (.float x)

/-- Style properties, each once. -/
abbrev Properties := List (String × Setting)

/-- A new property goes to the end; a known one keeps its place. -/
def Properties.set (property : String) (setting : Setting) : Properties → Properties
  | [] => [(property, setting)]
  | (p, s) :: later =>
    if p = property then (p, setting) :: later else (p, s) :: Properties.set property setting later

/-- Sets all properties of the second style in the first. -/
def Properties.update (style new : Properties) : Properties :=
  new.foldl (fun s d => Properties.set d.1 d.2 s) style

def Properties.toValue (style : Properties) : Value :=
  .object (style.map fun d => (d.1, d.2.toValue))

/-- Why a class with a number has no style. -/
inductive ClassFault where
  | digits (text : Text)
  | tooLong (count : Nat)
  | tooLarge
  deriving Repr, DecidableEq

namespace ClassFault

def kind : ClassFault → FaultKind
  | digits _ | tooLong _ => .value
  | tooLarge => .range

def message : ClassFault → String
  | digits text => Text.notInteger 10 text
  | tooLong count => Text.tooManyDigits count
  | tooLarge => "integer division result too large for a float"

end ClassFault

/-! ## One class -/

def justifyWords : Table String :=
  [("start", "flex-start"), ("end", "flex-end"), ("center", "center"),
    ("between", "space-between"), ("around", "space-around"), ("evenly", "space-evenly")]

def itemsWords : Table String :=
  [("start", "flex-start"), ("end", "flex-end"), ("center", "center"), ("baseline", "baseline"),
    ("stretch", "stretch")]

def selfWords : Table String :=
  [("auto", "auto"), ("start", "flex-start"), ("end", "flex-end"), ("center", "center"),
    ("stretch", "stretch")]

def alignWords : List String := ["left", "center", "right", "justify"]

def overflowWords : List String := ["auto", "hidden", "visible", "scroll"]

def positionWords : List String := ["absolute", "relative", "fixed", "sticky"]

/-- The properties that a spacing class sets. -/
def spacingProperties : Table (List String) :=
  [("p", ["padding"]), ("pt", ["paddingTop"]), ("pr", ["paddingRight"]), ("pb", ["paddingBottom"]),
    ("pl", ["paddingLeft"]), ("px", ["paddingLeft", "paddingRight"]),
    ("py", ["paddingTop", "paddingBottom"]), ("m", ["margin"]), ("mt", ["marginTop"]),
    ("mr", ["marginRight"]), ("mb", ["marginBottom"]), ("ml", ["marginLeft"]),
    ("mx", ["marginLeft", "marginRight"]), ("my", ["marginTop", "marginBottom"]),
    ("gap", ["gap"])]

/-- One property, if there is a text to set it to. -/
def setText (property : String) (text : Option String) : Properties :=
  match text with
  | some s => [(property, .text s)]
  | none => []

/-- A colour by name, or by name and shade. -/
def colorOf (palette : Palette) (parts : List String) : Option String :=
  match parts with
  | [_, name] => palette.colors.get? name
  | [_, name, shade] => (palette.shades.get? name).bind (·.get? shade)
  | _ => none

def sizeOf (palette : Palette) (name : String) : Option String :=
  if name = "full" then some "100%" else if name = "auto" then some "auto"
  else palette.spacing.get? name

def flexDirection (arg : String) (rest : List String) : Properties :=
  let direction := if arg = "row" then "row" else "column"
  let reverse := rest.head? = some "reverse"
  [("flexDirection", .text (if reverse then direction ++ "-reverse" else direction))]

/-- How many decimal digits a text begins with. -/
def leadingDecimals (digits : Text) : Nat :=
  (digits.takeWhile fun c => (Text.decimalValue? c).isSome).length

/-- The number that the digits of a class stand for. They are counted up to the first that is not
decimal. -/
def classNumber (digits : Text) : Except ClassFault Nat :=
  if Text.mostDigits < leadingDecimals digits then .error (.tooLong (leadingDecimals digits))
  else
    match Text.decimalNumber? digits with
    | some n => .ok n
    | none => .error (.digits digits)

def isNumeric (t : Text) : Bool := !t.isEmpty && t.all Text.isDigit

/-- A number of hundredths. -/
def hundredths (n : Nat) : Except ClassFault Setting :=
  match Double.ofRatio false n 100 with
  | .infinite _ => .error .tooLarge
  | x => .ok (.fraction x)

/-- The properties of a class, given its parts between hyphens; a class that is not known sets
none. -/
def declarationsOf (palette : Palette) (head arg : String) (rest : List String) (alone : Bool) :
    Except ClassFault Properties :=
  let parts := head :: (if alone then [] else arg :: rest)
  match head with
  | "flex" =>
    if alone then .ok [("display", .text "flex")]
    else if arg = "row" || arg = "col" then .ok (flexDirection arg rest)
    else .ok []
  | "hidden" => .ok [("display", .text "none")]
  | "block" | "inline" => .ok (if alone then [("display", .text head)] else [])
  | "w" => .ok (if arg = "" then [] else setText "width" (sizeOf palette arg))
  | "h" => .ok (if arg = "" then [] else setText "height" (sizeOf palette arg))
  | "text" =>
    if alignWords.contains arg then .ok [("textAlign", .text arg)]
    else
      match palette.fontSizes.get? arg with
      | some size => .ok [("fontSize", .text size)]
      | none => .ok (setText "color" (colorOf palette parts))
  | "bg" => .ok (setText "backgroundColor" (colorOf palette parts))
  | "border" =>
    match palette.borderWidths.get? arg with
    | some width => .ok [("borderWidth", .text width)]
    | none => .ok (setText "borderColor" (colorOf palette parts))
  | "rounded" => .ok (setText "borderRadius" (palette.radii.get? arg))
  | "font" =>
    match palette.fontWeights.get? arg with
    | some weight => .ok [("fontWeight", .whole weight)]
    | none => .ok []
  | "justify" => .ok (setText "justifyContent" (justifyWords.get? arg))
  | "items" => .ok (setText "alignItems" (itemsWords.get? arg))
  | "self" => .ok (setText "alignSelf" (selfWords.get? arg))
  | "overflow" => .ok (if overflowWords.contains arg then [("overflow", .text arg)] else [])
  | "opacity" =>
    if isNumeric arg.toList then do
      let n ← classNumber arg.toList
      return [("opacity", ← hundredths n)]
    else .ok []
  | "z" =>
    if isNumeric arg.toList then do
      return [("zIndex", .whole (← classNumber arg.toList))]
    else .ok []
  | _ =>
    match spacingProperties.get? head with
    | some properties =>
      match if arg = "" then none else palette.spacing.get? arg with
      | some size => .ok (properties.map fun p => (p, .text size))
      | none => .ok []
    | none => .ok (if positionWords.contains head then [("position", .text head)] else [])

/-- The properties that one class sets. -/
def declarations (cls : Text) : Except ClassFault Properties :=
  match (Text.splitOn '-' cls).map String.ofList with
  | [] => .ok []
  | [head] => declarationsOf .standard head "" [] true
  | head :: arg :: rest => declarationsOf .standard head arg rest false

/-! ## Lists of classes -/

/-- The style of some classes, set one after the other in a style. -/
def applyClasses (style : Properties) : List Text → Except ClassFault Properties
  | [] => .ok style
  | cls :: later => do
    let new ← declarations cls
    applyClasses (style.update new) later

/-- The style of a text of classes; `none` if no class sets anything. -/
def styleOf? (classes : Text) : Except ClassFault (Option Properties) := do
  let style ← applyClasses [] (Text.words classes)
  return if style.isEmpty then none else some style

/-- The same, with a note on classes that come to nothing. -/
def styleOf (classes : Text) : Run ClassFault (Option Properties) := do
  match ← Run.ofExcept (styleOf? classes) with
  | some style => return some style
  | none =>
    if !Text.allBlank classes then
      Run.trace 3 s!"No styles generated for \"{String.ofList classes}\""
    return none

end Notemark.Style
