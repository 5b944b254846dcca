import YulPlus.Artifact.Basic
import YulPlus.Compiler.Output
import YulPlus.FileTree.Path
import YulPlus.Lowering.Interface

/-!
# From compiler output to an artifact

The answer of the compiler has to hold exactly one contract object for the compiled source. Without
any, the errors it reports decide the outcome, or their absence does; with several, no choice is
made. The human-readable ABI of a source with an interface is the text of its hash literals without
their frames, functions before events; any other source has an empty one.
-/

namespace YulPlus

open Text

/-- Why an answer does not lead to an artifact. Each cause names the source. -/
inductive SynthesisError
  | reported (sourceName : Text) (errors : List Diagnostic)
  | noContract (sourceName : Text)
  | manyContracts (sourceName : Text) (names : List Text)
  | invalidArtifact (sourceName : Text) (faults : List Schema.Fault)
deriving Repr

namespace SynthesisError

/-- The wording of an error. -/
def message : SynthesisError → Text
  | reported sourceName errors =>
    "Compilation of '".toList ++ sourceName ++ "' failed:\n".toList ++
      joinWith ['\n'] (errors.map Diagnostic.text)
  | noContract sourceName =>
    "Compiler produced no contract object for '".toList ++ sourceName ++ ['\'']
  | manyContracts sourceName names =>
    "Compiler produced ".toList ++ decimal names.length ++ " contract objects for '".toList ++
      sourceName ++ "': ".toList ++ joinWith ", ".toList names
  | invalidArtifact sourceName faults =>
    "Compiler output for '".toList ++ sourceName ++ "' is not a valid artifact: ".toList ++
      Schema.report Artifact.schemaName faults

end SynthesisError

/-- What stands between a frame of `width` characters and the closing quote of a literal. -/
def abiFragment (width : Nat) (literal : Text) : Text :=
  literal.dropLast.drop width

/-- The ABI fragments of hash literals, given as they are written. -/
def abiOfLiterals (functions events : List Text) : List Text :=
  functions.map (abiFragment 4) ++ events.map (abiFragment 6)

/-- The ABI of an interface. -/
def Interface.abi (interface : Interface) : List Text :=
  abiOfLiterals (interface.functions.map (·.source)) (interface.events.map (·.source))

/-- The artifact of a contract, if its code is plain hexadecimal. -/
def artifactOf (sourceName : Text) (abi : List Text) (contract : ContractOutput) :
    Schema.Checked Artifact :=
  let deployed := (contract.deployedBytecode.map (·.object)).getD []
  let artifact := fun bytecode deployedBytecode =>
    { contractName := contractName sourceName
      sourceName := sourceName
      abi := abi
      bytecode := bytecode
      deployedBytecode := deployedBytecode
      functionDebugData := contract.deployedBytecode.bind (·.functionDebugData) : Artifact }
  artifact
    <$> (Artifact.checkCode (Artifact.emptyBytecode ++ contract.bytecode.object)).under
      (.key "bytecode".toList)
    <*> (Artifact.checkCode (Artifact.emptyBytecode ++ deployed)).under
      (.key "deployed_bytecode".toList)

/-- Build the artifact of a source from the answer of the compiler. -/
def synthesize (sourceName : Text) (output : CompilerOutput) (interface : Option Interface) :
    Except SynthesisError Artifact :=
  match output.objects with
  | [] =>
    match Diagnostic.errors output.diagnostics with
    | [] => .error (.noContract sourceName)
    | errors => .error (.reported sourceName errors)
  | [(_, contract)] =>
    match artifactOf sourceName ((interface.map Interface.abi).getD []) contract with
    | .valid artifact => .ok artifact
    | .invalid faults => .error (.invalidArtifact sourceName faults)
  | objects =>
    .error (.manyContracts sourceName ((objects.map (·.1)).mergeSort Path.textLE))

end YulPlus
