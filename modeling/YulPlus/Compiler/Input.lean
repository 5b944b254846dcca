import YulPlus.Json.Printer
import YulPlus.Schema.Checked

/-!
# Compiler input

Every compilation hands one source to the compiler under a fixed file name, asks for all outputs and
turns the optimizer on with zero runs. The optimizer details of the settings are passed on as they
are, and the entry is left out if they are not set.
-/

namespace YulPlus

/-- A map from texts to any values, in order. -/
abbrev Details := List (Text × Value)

/-- The settings of a run: the compiler version and the details for its optimizer. -/
structure BuildSettings where
  version : Text
  details : Option Details := none
deriving Repr

namespace BuildSettings

open Schema in
/-- Read the settings. -/
def ofValue : Value → Checked BuildSettings :=
  record fun entries =>
    BuildSettings.mk <$> required (.single "version") Schema.text entries
      <*> field (.either "yulDetails" "yul_details") none (optional (mapOf anything)) entries

end BuildSettings

/-- The name that the source has for the compiler. -/
def targetFile : Text := "Target.yul".toList

/-- The input of one compilation. -/
structure CompilerInput where
  content : Text
  details : Option Details
deriving Repr

namespace CompilerInput

/-- The request for every output of every file. -/
def outputSelection : Value :=
  let everything := Value.list [Value.text ['*']]
  Value.fields [("*", Value.fields [("*", everything), ("", everything)])]

/-- The details of the optimizer. -/
def optimizerDetails (details : Option Details) : Value :=
  Value.fields <| ("yul", .bool true) ::
    match details with
    | none => []
    | some d => [("yulDetails", Value.record d)]

/-- The input as a value. -/
def toValue (input : CompilerInput) : Value :=
  Value.fields
    [ ("language", .text "Yul".toList),
      ("sources", Value.record [(targetFile, Value.fields [("content", .text input.content)])]),
      ("settings", Value.fields
        [ ("outputSelection", outputSelection),
          ("optimizer", Value.fields
            [ ("enabled", .bool true),
              ("runs", .int 0),
              ("details", optimizerDetails input.details) ]) ]) ]

/-- The input as the compiler receives it. -/
def wireText (input : CompilerInput) : Text :=
  Json.compact input.toValue

/-- The input for a source under some settings. -/
def ofSource (content : Text) (settings : BuildSettings) : CompilerInput :=
  ⟨content, settings.details⟩

end CompilerInput

end YulPlus
