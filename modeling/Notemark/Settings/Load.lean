import Notemark.Schema.Record
import Notemark.Settings.Basic
import Notemark.Settings.EnvFile

/-!
# Where settings come from

* `settingFields`: the names of the settings,
* `ofEnvironment`, `ofEnvFile`: settings given by variables, whose names begin with `HYPERNOTE_`
  in any case,
* `gather`: options before the environment before a file of variables,
* `load`: the settings that are given, checked, with defaults for the others.
-/

namespace Notemark.Settings

open Schema

inductive SettingKind where
  | text
  | flag
  | number
  deriving Repr, DecidableEq

/-- The settings and their kinds. -/
def settingKinds : List (String × SettingKind) :=
  [("document_version", .text), ("strict_mode", .flag), ("convert_styles", .flag),
    ("validate_output", .flag), ("debug_mode", .flag), ("input_pattern", .text),
    ("output_suffix", .text), ("json_indent", .number)]

def settingFields : List Field := settingKinds.map fun s => ⟨s.1, false⟩

/-! ## Sources -/

/-- What the names of variables begin with. -/
def marker : Text := "hypernote_".toList

/-- The setting that a variable gives. -/
def settingOf? (name : Text) : Option String :=
  let name := name.map Char.toLower
  if marker.isPrefixOf name then
    let setting := String.ofList (name.drop marker.length)
    if (settingKinds.lookup setting).isSome then some setting else none
  else none

/-- Settings in the environment; other variables do not matter. -/
def ofEnvironment (environment : List (Text × Text)) : Entries :=
  environment.foldl (fun es v =>
    match settingOf? v.1 with
    | some setting => Entries.put setting (.str (String.ofList v.2)) es
    | none => es) []

/-- Settings in a file of variables. A variable that is no setting counts as one of its full name,
unless it is empty or has the bare name of a setting. -/
def ofEnvFile (bindings : List EnvFile.Binding) : Entries :=
  let bound : Entries := bindings.foldl (fun es v =>
    let value := match v.2 with | some t => .str (String.ofList t) | none => .null
    Entries.put (String.ofList (v.1.map Char.toLower)) value es) []
  let settings := bound.filterMap fun e =>
    match e.2, settingOf? e.1.plain.toList with
    | .scalar (.str s), some setting => some (.str setting, .str s)
    | _, _ => none
  let others := bound.filter fun e =>
    e.2.holds && (settingOf? e.1.plain.toList).isNone && (settingKinds.lookup e.1.plain).isNone
  settings ++ others

/-- The settings that are given. An option counts before a variable of the environment, and that
before one of the file. -/
def gather (options : Entries) (environment : List (Text × Text)) (envFile : Option Text) :
    Entries :=
  let bindings := (envFile.map (EnvFile.load fun name => environment.lookup name)).getD []
  Entries.update (Entries.update (ofEnvFile bindings) (ofEnvironment environment)) options

/-! ## Checking -/

def settingIssues (key : Scalar) (v : Value) : List Issue :=
  match settingKinds.lookup key.plain with
  | some .text => issuesOf string v
  | some .flag => issuesOf boolean v
  | some .number => issuesOf integer v
  | none => otherIssues .forbidden key v

/-- A setting that is given and has no issues. -/
def read? {α : Type} (check : Value → Except Breach α) (given : Entries) (name : String) :
    Option α :=
  (given.get? name).bind fun v => (check v).toOption

/-- The settings that are given, with defaults for the others. -/
def load (given : Entries) : Except (List Issue) Settings :=
  let issues :=
    recordIssues settingFields (.map none given)
      (given.map fun e => (e.1, settingIssues e.1 e.2))
  let standard : Settings := {}
  if issues.isEmpty then
    .ok
      { documentVersion := (read? string given "document_version").getD standard.documentVersion
        strictMode := (read? boolean given "strict_mode").getD standard.strictMode
        convertStyles := (read? boolean given "convert_styles").getD standard.convertStyles
        validateOutput := (read? boolean given "validate_output").getD standard.validateOutput
        debugMode := (read? boolean given "debug_mode").getD standard.debugMode
        inputPattern := (read? string given "input_pattern").getD standard.inputPattern
        outputSuffix := (read? string given "output_suffix").getD standard.outputSuffix
        jsonIndent := (read? integer given "json_indent").getD standard.jsonIndent }
  else .error issues

/-- The settings as data. -/
def toValue (s : Settings) : Value :=
  .object
    [("document_version", .str s.documentVersion), ("strict_mode", .bool s.strictMode),
      ("convert_styles", .bool s.convertStyles), ("validate_output", .bool s.validateOutput),
      ("debug_mode", .bool s.debugMode), ("input_pattern", .str s.inputPattern),
      ("output_suffix", .str s.outputSuffix), ("json_indent", .int s.jsonIndent)]

end Notemark.Settings
