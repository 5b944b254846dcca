import YulPlus.Compiler.Diagnostic
import YulPlus.Compiler.Input
import YulPlus.Json.Parser

/-!
# Compiler output

What the compiler answers: contract objects by file and name, and diagnostics. The answer is JSON
text of a schema in which unknown fields are passed over at every level, while the keys of the
contract maps and of the debug data are data and kept.
-/

namespace YulPlus

/-- Code of a contract in hexadecimal digits, and debug data about its functions. -/
structure Bytecode where
  object : Text := []
  functionDebugData : Option Details := none
deriving Repr

/-- The code that creates a contract and, if reported, the code that it deploys. -/
structure ContractOutput where
  bytecode : Bytecode := {}
  deployedBytecode : Option Bytecode := none
deriving Repr

/-- The validated answer of the compiler. -/
structure CompilerOutput where
  contracts : List (Text × List (Text × ContractOutput)) := []
  diagnostics : List Diagnostic := []
deriving Repr

open Schema

namespace Bytecode

/-- Read a code object. -/
def ofValue : Value → Checked Bytecode :=
  record fun entries =>
    Bytecode.mk <$> field (.single "object") [] Schema.text entries
      <*> field (.either "functionDebugData" "function_debug_data") none
        (optional (mapOf anything)) entries

end Bytecode

namespace ContractOutput

/-- Read the two code objects of a contract. -/
def ofEvmValue : Value → Checked ContractOutput :=
  record fun entries =>
    ContractOutput.mk <$> field (.single "bytecode") {} Bytecode.ofValue entries
      <*> field (.either "deployedBytecode" "deployed_bytecode") none
        (optional Bytecode.ofValue) entries

/-- Read a contract object. -/
def ofValue : Value → Checked ContractOutput :=
  record fun entries => field (.single "evm") {} ofEvmValue entries

end ContractOutput

namespace CompilerOutput

/-- The name of the schema in reports. -/
def schemaName : String := "CompilerOutput"

/-- Read an answer. -/
def ofValue : Value → Checked CompilerOutput :=
  record fun entries =>
    CompilerOutput.mk
      <$> field (.single "contracts") [] (mapOf (mapOf ContractOutput.ofValue)) entries
      <*> field (.single "errors") [] (list Diagnostic.ofValue) entries

/-- The contract objects of the one source that was compiled. -/
def objects (output : CompilerOutput) : List (Text × ContractOutput) :=
  ((output.contracts.find? fun entry => entry.1 = targetFile).map (·.2)).getD []

end CompilerOutput

/-- Why a text is no compiler answer. -/
inductive AnswerFault
  | malformed
  | tooManyDigits (count : Nat)
  | invalid (faults : List Fault)
deriving DecidableEq, Repr

/-- Read the text that the compiler answered with. -/
def CompilerOutput.parse (raw : Text) : Except AnswerFault CompilerOutput :=
  match Json.parse raw with
  | .error .malformed => .error .malformed
  | .error (.tooManyDigits count) => .error (.tooManyDigits count)
  | .ok v =>
    match ofValue v with
    | .valid output => .ok output
    | .invalid faults => .error (.invalid faults)

end YulPlus
