import YulPlus.Schema.Checked

/-!
# Diagnostics

What the compiler has to say about a source. Only the severity `warning` makes a diagnostic a
warning; every other severity, known or not, counts as an error.
-/

namespace YulPlus

/-- A warning or an error that the compiler reports. -/
structure Diagnostic where
  severity : Text
  message : Text := []
  formattedMessage : Option Text := none
  type : Option Text := none
  component : Option Text := none
deriving DecidableEq, Repr

namespace Diagnostic

/-- Is it a warning? -/
def isWarning (d : Diagnostic) : Bool :=
  d.severity = "warning".toList

/-- What is shown of it: the formatted message unless it is absent or empty, else the short one. -/
def text (d : Diagnostic) : Text :=
  match d.formattedMessage with
  | some (c :: rest) => c :: rest
  | _ => d.message

/-- The warnings of a list, in order. -/
def warnings (ds : List Diagnostic) : List Diagnostic :=
  ds.filter isWarning

/-- The errors of a list, in order. -/
def errors (ds : List Diagnostic) : List Diagnostic :=
  ds.filter fun d => !d.isWarning

open Schema in
/-- Read a diagnostic. -/
def ofValue : Value → Checked Diagnostic :=
  record fun entries =>
    Diagnostic.mk <$> required (.single "severity") Schema.text entries
      <*> field (.single "message") [] Schema.text entries
      <*> field (.either "formattedMessage" "formatted_message") none (optional Schema.text) entries
      <*> field (.single "type") none (optional Schema.text) entries
      <*> field (.single "component") none (optional Schema.text) entries

end Diagnostic

end YulPlus
