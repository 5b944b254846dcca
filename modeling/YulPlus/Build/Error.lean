import YulPlus.Artifact.Synthesis
import YulPlus.Build.Session
import YulPlus.Project.Config
import YulPlus.Project.SourceFile

/-!
# Failures of a build

Two kinds of failure with different reach. A `BuildError` belongs to one source: it is reported, and
the build goes on with the next one. An `Interruption` is a failure that no step of the build
expects; it ends the whole run. `Failure` is one or the other.
-/

namespace YulPlus

open Text

/-- Why no compiler can be had for a version. -/
inductive Unavailable
  | providerFailed (version message : Text)
  | notProvided (version : Text)
  | unusable (version : Text)
deriving DecidableEq, Repr

namespace Unavailable

/-- The wording of the cause. -/
def message : Unavailable → Text
  | providerFailed version message =>
    "Cannot obtain solc ".toList ++ version ++ ": ".toList ++ message
  | notProvided version => "solc ".toList ++ version ++ " is not available".toList
  | unusable version =>
    "solc ".toList ++ version ++ " build has neither an executable nor an entry point".toList

end Unavailable

/-- Why a run of the compiler gives no usable answer. -/
inductive RunFault
  | noExecutable (path : Path)
  | timedOut (timeout : Scalar)
  | exited (status : Int) (errors : Text)
  | malformedAnswer
  | unexpectedAnswer (faults : List Schema.Fault)
deriving DecidableEq, Repr

namespace RunFault

/-- The wording of a fault. -/
def message : RunFault → Text
  | noExecutable path => "solc executable not found: ".toList ++ path.text
  | timedOut timeout => "solc timed out after ".toList ++ timeout.display ++ ['s']
  | exited status errors =>
    "solc exited with status ".toList ++ (toString status).toList ++ ": ".toList ++ strip errors
  | malformedAnswer => "Compiler returned invalid JSON: malformed text".toList
  | unexpectedAnswer faults =>
    "Compiler returned unexpected output: ".toList ++
      Schema.report CompilerOutput.schemaName faults

end RunFault

/-- Why one source is not compiled. -/
inductive BuildError
  | outside (error : OutsideRoot)
  | unreadable (path : Path) (error : FileError)
  | undecodable (path : Path) (fault : Utf8.Fault)
  | syntaxError (error : SyntaxError)
  | unavailable (cause : Unavailable)
  | run (fault : RunFault)
  | synthesis (error : SynthesisError)
deriving Repr

namespace BuildError

/-- The wording of an error. -/
def message : BuildError → Text
  | outside error => error.message
  | unreadable path error =>
    "Cannot read source file '".toList ++ path.text ++ "': ".toList ++ error.message
  | undecodable path fault =>
    "Source file '".toList ++ path.text ++ "' is not valid UTF-8: ".toList ++ fault.message
  | syntaxError error => error.message
  | unavailable cause => cause.message
  | run fault => fault.message
  | synthesis error => error.message

end BuildError

/-- What ends a whole run. -/
inductive Interruption
  | process (fault : ProcessFault)
  | integer (fault : IntegerFault)
  | file (error : FileError)
  | encoding (fault : Utf8.Fault)
  | scalar (fault : Yaml.Fault)
deriving DecidableEq, Repr

namespace Interruption

/-- The wording of an interruption. -/
def message : Interruption → Text
  | process fault => fault.message
  | integer fault => fault.message
  | file error => error.message
  | encoding fault => fault.message
  | scalar fault => fault.message

end Interruption

/-- A failure of one source or of the whole run. -/
inductive Failure
  | skipped (error : BuildError)
  | interrupted (cause : Interruption)
deriving Repr

end YulPlus
