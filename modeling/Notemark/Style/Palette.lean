import Notemark.Value.Shown
import Notemark.Yaml.Load

/-!
# Palettes

The scales behind utility classes:

* `Table`: names and what they stand for, `Palette`: the tables of all scales,
* `Palette.standard`: the scales that classes are converted with,
* `loadPalette`: a palette file as data, with names for keys.
-/

namespace Notemark.Style

/-- Names and what they stand for. -/
abbrev Table (α : Type) := List (String × α)

def Table.get? {α : Type} (t : Table α) (name : String) : Option α :=
  (t.find? fun e => e.1 == name).map (·.2)

/-- Colours come in shades or stand alone. -/
structure Palette where
  shades : Table (Table String)
  colors : Table String
  spacing : Table String
  fontSizes : Table String
  fontWeights : Table Nat
  radii : Table String
  borderWidths : Table String

def slateShades : Table String :=
  [("50", "rgb(248,250,252)"), ("100", "rgb(241,245,249)"), ("200", "rgb(226,232,240)"),
   ("300", "rgb(203,213,225)"), ("400", "rgb(148,163,184)"), ("500", "rgb(100,116,139)"),
   ("600", "rgb(71,85,105)"), ("700", "rgb(51,65,85)"), ("800", "rgb(30,41,59)"),
   ("900", "rgb(15,23,42)"), ("950", "rgb(2,6,23)")]

def grayShades : Table String :=
  [("50", "rgb(249,250,251)"), ("100", "rgb(243,244,246)"), ("200", "rgb(229,231,235)"),
   ("300", "rgb(209,213,219)"), ("400", "rgb(156,163,175)"), ("500", "rgb(107,114,128)"),
   ("600", "rgb(75,85,99)"), ("700", "rgb(55,65,81)"), ("800", "rgb(31,41,55)"),
   ("900", "rgb(17,24,39)"), ("950", "rgb(3,7,18)")]

def redShades : Table String :=
  [("50", "rgb(254,242,242)"), ("100", "rgb(254,226,226)"), ("200", "rgb(254,202,202)"),
   ("300", "rgb(252,165,165)"), ("400", "rgb(248,113,113)"), ("500", "rgb(239,68,68)"),
   ("600", "rgb(220,38,38)"), ("700", "rgb(185,28,28)"), ("800", "rgb(153,27,27)"),
   ("900", "rgb(127,29,29)"), ("950", "rgb(69,10,10)")]

def amberShades : Table String :=
  [("50", "rgb(255,251,235)"), ("100", "rgb(254,243,199)"), ("200", "rgb(253,230,138)"),
   ("300", "rgb(252,211,77)"), ("400", "rgb(251,191,36)"), ("500", "rgb(245,158,11)"),
   ("600", "rgb(217,119,6)"), ("700", "rgb(180,83,9)"), ("800", "rgb(146,64,14)"),
   ("900", "rgb(120,53,15)"), ("950", "rgb(69,26,3)")]

def blueShades : Table String :=
  [("50", "rgb(239,246,255)"), ("100", "rgb(219,234,254)"), ("200", "rgb(191,219,254)"),
   ("300", "rgb(147,197,253)"), ("400", "rgb(96,165,250)"), ("500", "rgb(59,130,246)"),
   ("600", "rgb(37,99,235)"), ("700", "rgb(29,78,216)"), ("800", "rgb(30,64,175)"),
   ("900", "rgb(30,58,138)"), ("950", "rgb(23,37,84)")]

def greenShades : Table String :=
  [("50", "rgb(240,253,244)"), ("100", "rgb(220,252,231)"), ("200", "rgb(187,247,208)"),
   ("300", "rgb(134,239,172)"), ("400", "rgb(74,222,128)"), ("500", "rgb(34,197,94)"),
   ("600", "rgb(22,163,74)"), ("700", "rgb(21,128,61)"), ("800", "rgb(22,101,52)"),
   ("900", "rgb(20,83,45)"), ("950", "rgb(5,46,22)")]

def Palette.standard : Palette where
  shades :=
    [("slate", slateShades), ("gray", grayShades), ("red", redShades),
      ("amber", amberShades), ("blue", blueShades), ("green", greenShades)]
  colors :=
    [("white", "rgb(255,255,255)"), ("black", "rgb(0,0,0)"), ("transparent", "transparent")]
  spacing :=
    [("0", "0"), ("px", "1px"), ("0.5", "0.125rem"), ("1", "0.25rem"), ("1.5", "0.375rem"),
     ("2", "0.5rem"), ("2.5", "0.625rem"), ("3", "0.75rem"), ("3.5", "0.875rem"), ("4", "1rem"),
     ("5", "1.25rem"), ("6", "1.5rem"), ("7", "1.75rem"), ("8", "2rem"), ("9", "2.25rem"),
     ("10", "2.5rem"), ("11", "2.75rem"), ("12", "3rem"), ("14", "3.5rem"), ("16", "4rem"),
     ("20", "5rem"), ("24", "6rem"), ("28", "7rem"), ("32", "8rem"), ("36", "9rem"),
     ("40", "10rem"), ("44", "11rem"), ("48", "12rem"), ("52", "13rem"), ("56", "14rem"),
     ("60", "15rem"), ("64", "16rem"), ("72", "18rem"), ("80", "20rem"), ("96", "24rem")]
  fontSizes :=
    [("xs", "0.75rem"), ("sm", "0.875rem"), ("base", "1rem"), ("lg", "1.125rem"),
     ("xl", "1.25rem"), ("2xl", "1.5rem"), ("3xl", "1.875rem"), ("4xl", "2.25rem"),
     ("5xl", "3rem"), ("6xl", "3.75rem"), ("7xl", "4.5rem"), ("8xl", "6rem"), ("9xl", "8rem")]
  fontWeights :=
    [("thin", 100), ("extralight", 200), ("light", 300), ("normal", 400), ("medium", 500),
     ("semibold", 600), ("bold", 700), ("extrabold", 800), ("black", 900)]
  radii :=
    [("none", "0"), ("sm", "0.125rem"), ("", "0.25rem"), ("md", "0.375rem"), ("lg", "0.5rem"),
     ("xl", "0.75rem"), ("2xl", "1rem"), ("3xl", "1.5rem"), ("full", "9999px")]
  borderWidths :=
    [("", "1px"), ("0", "0"), ("2", "2px"), ("4", "4px"), ("8", "8px")]

/-! ## Palette files -/

/-- Why a palette file cannot be used. -/
inductive PaletteFault where
  | unreadable (reason : String)
  | malformed
  | value (fault : Yaml.Fault)
  deriving Repr, DecidableEq

def PaletteFault.message : PaletteFault → String
  | unreadable reason => s!"Failed to load palette.yaml: {reason}"
  | malformed => "Failed to parse palette.yaml"
  | value fault => fault.message

mutual

/-- Turns the keys of nested mappings into names; mappings inside lists stay as they are. -/
def nameKeys : Value → Value
  | .map label entries =>
    .map label ((nameEntries entries).foldl (fun es e => Entries.put e.1 e.2 es) [])
  | v => v

def nameEntries : List (Scalar × Value) → List (String × Value)
  | [] => []
  | (k, v) :: es => (k.plain, nameKeys v) :: nameEntries es

end

/-- The data of a palette file; a file without content is an empty palette. -/
def loadPalette (text : Text) : Except PaletteFault Value :=
  match Yaml.load (Text.unifyLines text) with
  | .error .malformed => .error .malformed
  | .error fault => .error (.value fault)
  | .ok v => .ok (if v.holds then nameKeys v else .map none [])

end Notemark.Style
