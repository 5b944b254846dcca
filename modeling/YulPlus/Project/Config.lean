import YulPlus.Compiler.Input
import YulPlus.FileTree.Basic
import YulPlus.Yaml.Document

/-!
# Project configuration

A project is configured by a YAML mapping with a version and four optional entries. Entries that are
not declared are faults. A version that reads as a number or a truth value is taken by its display,
so that `0.8` needs no quotes; any other value of the wrong shape is a fault of its entry.

`ProjectConfig.parse` reads a text, `ProjectConfig.load` a file, and `ProjectConfig.defaultText` is
the text of a new project.
-/

namespace YulPlus

open Text Schema

/-- The configuration of a project. -/
structure ProjectConfig where
  version : Text
  details : Option Details := none
  sources : Text := "contracts".toList
  artifacts : Text := "artifacts".toList
  solcPath : Option Text := none
deriving Repr

/-- Why a text is no configuration; each cause has the label of the text. -/
inductive ConfigFault
  | malformed (label : Text)
  | notMapping (label : Text)
  | invalid (label : Text) (faults : List Schema.Fault)
  | notFound (path : Path)
  | unreadable (error : FileError)
deriving DecidableEq, Repr

namespace ProjectConfig

/-- The name of the configuration file. -/
def fileName : Text := "yulbuild.yaml".toList

/-- The name of the schema in reports. -/
def schemaName : String := "ProjectConfig"

/-- The entry of the compiler version. -/
def versionField : FieldName := .single "version"

/-- The entry of the optimizer details. -/
def detailsField : FieldName := .either "yul-details" "yul_details"

/-- The entry of the source directory. -/
def sourcesField : FieldName := .single "sources"

/-- The entry of the artifact directory. -/
def artifactsField : FieldName := .single "artifacts"

/-- The entry of the compiler executable. -/
def solcPathField : FieldName := .either "solc-path" "solc_path"

/-- The declared entries in order. -/
def declaredFields : List FieldName :=
  [versionField, detailsField, sourcesField, artifactsField, solcPathField]

/-- The entries that no declared field takes, as faults: a key that is no text, or an unknown
name. A second spelling beside the first one counts as unknown. -/
def extraFaults (entries : List (Scalar × Value)) : List Schema.Fault :=
  let taken := declaredFields.filterMap fun f => (f.find? entries).map (·.1)
  entries.filterMap fun (key, _) =>
    match key with
    | .text name => if taken.contains name then none else some ⟨[.key name], .unknownField⟩
    | key => some ⟨[keyStep key], .badKey⟩

/-- No entry but the declared ones. -/
def checkExtra (entries : List (Scalar × Value)) : Checked Unit :=
  match extraFaults entries with
  | [] => .valid ()
  | faults => .invalid faults

/-- Read the entries of a configuration. -/
def ofEntries (entries : List (Scalar × Value)) : Checked ProjectConfig :=
  (fun config (_ : Unit) => config)
    <$> (ProjectConfig.mk <$> required versionField Schema.text entries
      <*> field detailsField none (optional (mapOf anything)) entries
      <*> field sourcesField "contracts".toList Schema.text entries
      <*> field artifactsField "artifacts".toList Schema.text entries
      <*> field solcPathField none (optional Schema.text) entries)
    <*> checkExtra entries

/-- The version entry by its display, if it is a number or a truth value. -/
def displayVersion : Value → Except IntegerFault Value
  | .scalar (.bool b) => .ok (.text (Scalar.display (.bool b)))
  | .scalar (.int n) => (Decimal.showInteger n).map .text
  | .scalar (.float x) => .ok (.text (Scalar.display (.float x)))
  | v => .ok v

/-- The entries with the version by its display. -/
def withDisplayedVersion (entries : List (Scalar × Value)) :
    Except IntegerFault (List (Scalar × Value)) :=
  entries.mapM fun (key, v) =>
    if key = .text versionField.wire then (displayVersion v).map fun v => (key, v)
    else .ok (key, v)

/-- Why a configuration is not read: a fault of the configuration, bytes that are no text, or a
scalar that YAML allows and that has no value or no display. -/
inductive ReadError
  | config (fault : ConfigFault)
  | encoding (fault : Utf8.Fault)
  | scalar (fault : Yaml.Fault)
deriving DecidableEq, Repr

/-- Read a configuration from what its text is in YAML. -/
def ofYaml (label : Text) : Except Yaml.Fault Value → Except ReadError ProjectConfig
  | .error .malformed => .error (.config (.malformed label))
  | .error fault => .error (.scalar fault)
  | .ok (.map entries) =>
    match withDisplayedVersion entries with
    | .error fault => .error (.scalar (.integer fault))
    | .ok entries =>
      match ofEntries entries with
      | .valid config => .ok config
      | .invalid faults => .error (.config (.invalid label faults))
  | .ok _ => .error (.config (.notMapping label))

/-- Read a configuration text. -/
def parse (label text : Text) : Except ReadError ProjectConfig :=
  ofYaml label (Yaml.parse text)

/-- Read the configuration file at a path, which is also its label. -/
def load (t : FileTree) (p : Path) : Except ReadError ProjectConfig :=
  match t.readText p with
  | .error (.file e) =>
    .error (.config (if e.fault = .notFound then .notFound p else .unreadable e))
  | .error (.encoding fault) => .error (.encoding fault)
  | .ok s => parse p.text s

/-- The settings of a build under this configuration. -/
def settings (config : ProjectConfig) : BuildSettings :=
  ⟨config.version, config.details⟩

/-- The configuration text of a new project. -/
def defaultText (version : Text) : Text :=
  "# yulbuild project configuration\nversion: \"".toList ++ version ++
    ("\"\nsources: contracts\nartifacts: artifacts\n# yul-details:\n" ++
      "#   stackAllocation: true\n").toList

end ProjectConfig

namespace ConfigFault

/-- The wording of a fault. -/
def message : ConfigFault → Text
  | malformed label => "Invalid YAML in ".toList ++ label ++ ": malformed text".toList
  | notMapping label => label ++ ": configuration must be a YAML mapping".toList
  | invalid label faults =>
    "Invalid configuration in ".toList ++ label ++ ": ".toList ++
      report ProjectConfig.schemaName faults
  | notFound path => "Config file not found: ".toList ++ path.text
  | unreadable error => "Cannot read config file: ".toList ++ error.message

end ConfigFault

end YulPlus
