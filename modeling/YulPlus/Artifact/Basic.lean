import YulPlus.Compiler.Input
import YulPlus.Json.Parser

/-!
# Artifacts

The record of a compiled contract and its text. Bytecode is a text of hexadecimal digits behind
`0x`; one line feed at its very end is let pass. Link references are always empty for the contracts
compiled here, and are kept as they are when a record is read.

`Artifact.serialize` writes the record with its fields in a fixed order and a line feed at the end;
debug data is left out if there is none. `Artifact.deserialize` reads any JSON text of the schema.
-/

namespace YulPlus

open Text

/-- The record of a compiled contract. -/
structure Artifact where
  format : Text := "hh-sol-artifact-1".toList
  contractName : Text
  sourceName : Text
  abi : List Text := []
  bytecode : Text := ['0', 'x']
  deployedBytecode : Text := ['0', 'x']
  linkReferences : Details := []
  deployedLinkReferences : Details := []
  functionDebugData : Option Details := none
deriving Repr

/-- Why a text is no artifact. -/
inductive ArtifactFault
  | malformed
  | tooManyDigits (count : Nat)
  | invalid (faults : List Schema.Fault)
deriving DecidableEq, Repr

namespace Artifact

/-- The name of the schema in reports. -/
def schemaName : String := "Artifact"

/-- The code of a contract that has none. -/
def emptyBytecode : Text := ['0', 'x']

/-- Only hexadecimal digits, and possibly one line feed behind the last. -/
def isHexDigits : Text → Bool
  | [] => true
  | ['\n'] => true
  | c :: rest => isHexDigit c && isHexDigits rest

/-- Is the text hexadecimal digits behind `0x`? -/
def isHexLiteral : Text → Bool
  | '0' :: 'x' :: digits => isHexDigits digits
  | _ => false

open Schema

/-- Code has to be a hexadecimal literal; the fault shows how it begins. -/
def checkCode (code : Text) : Checked Text :=
  if isHexLiteral code then .valid code
  else
    .fail (.rejected ("Value error, expected a 0x-prefixed hex string, got ".toList ++
      quoted (code.take 20)))

/-- A value that is code. -/
def codeOfValue (v : Value) : Checked Text :=
  match Schema.text v with
  | .valid code => checkCode code
  | .invalid faults => .invalid faults

/-- Read an artifact. -/
def ofValue : Value → Checked Artifact :=
  record fun entries =>
    Artifact.mk
      <$> field (.either "_format" "format") "hh-sol-artifact-1".toList Schema.text entries
      <*> required (.either "contractName" "contract_name") Schema.text entries
      <*> required (.either "sourceName" "source_name") Schema.text entries
      <*> field (.single "abi") [] (list Schema.text) entries
      <*> field (.single "bytecode") emptyBytecode codeOfValue entries
      <*> field (.either "deployedBytecode" "deployed_bytecode") emptyBytecode codeOfValue entries
      <*> field (.either "linkReferences" "link_references") [] (mapOf anything) entries
      <*> field (.either "deployedLinkReferences" "deployed_link_references") [] (mapOf anything)
        entries
      <*> field (.either "functionDebugData" "function_debug_data") none
        (optional (mapOf anything)) entries

/-- The record as a value, without debug data if there is none. -/
def toValue (a : Artifact) : Value :=
  Value.fields <|
    [ ("_format", .text a.format),
      ("contractName", .text a.contractName),
      ("sourceName", .text a.sourceName),
      ("abi", .list (a.abi.map Value.text)),
      ("bytecode", .text a.bytecode),
      ("deployedBytecode", .text a.deployedBytecode),
      ("linkReferences", Value.record a.linkReferences),
      ("deployedLinkReferences", Value.record a.deployedLinkReferences) ] ++
    match a.functionDebugData with
    | none => []
    | some data => [("functionDebugData", Value.record data)]

/-- The text of an artifact. -/
def serialize (a : Artifact) : Text :=
  Json.indented a.toValue ++ ['\n']

/-- Read the text of an artifact with a limit for the digits of an integer. -/
def deserializeWithin (limit : Option Nat) (s : Text) : Except ArtifactFault Artifact :=
  match Json.parseWithin limit s with
  | .error .malformed => .error .malformed
  | .error (.tooManyDigits count) => .error (.tooManyDigits count)
  | .ok v =>
    match ofValue v with
    | .valid a => .ok a
    | .invalid faults => .error (.invalid faults)

/-- Read the text of an artifact whose integers have at most 4300 digits. -/
def deserialize (s : Text) : Except ArtifactFault Artifact :=
  deserializeWithin (some Decimal.maxDigits) s

end Artifact

end YulPlus
