import Notemark.Files.Path

/-!
# Settings

* `Settings`: what a compilation can be told, with its defaults,
* `Settings.outputName`: the name of a compiled file,
* `Settings.verbosity`: how much is noted on a run.
-/

namespace Notemark

structure Settings where
  /-- Stamped on every document. -/
  documentVersion : String := "1.1.0"
  strictMode : Bool := true
  convertStyles : Bool := true
  validateOutput : Bool := false
  debugMode : Bool := false
  /-- Which files of a directory are sources. -/
  inputPattern : String := "*.md"
  outputSuffix : String := ".json"
  /-- Indentation of written documents; zero writes them on one line. -/
  jsonIndent : Int := 2
  deriving Repr, DecidableEq

namespace Settings

/-- The name of a compiled file: the last name of its source with another suffix. -/
def outputName (s : Settings) (source : Text) : String :=
  String.ofList (Files.stem (Files.Path.ofText source).name) ++ s.outputSuffix

/-- Debugging shows every trace. -/
def verbosity (s : Settings) (asked : Int) : Int := if s.debugMode then max asked 3 else asked

end Settings

end Notemark
