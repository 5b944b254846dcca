import YulPlus.Build.Run
import YulPlus.CommandLine.Invocation

/-!
# Running the program

`init` writes a default configuration into a directory that has none and makes the source directory
beside it. `compile` reads the configuration of a directory and builds the project: a compiler named
there is the only one that is asked, otherwise one is looked for.

The result is an exit status: 0 if all went well, 1 if a command failed, 2 for a usage error.
-/

namespace YulPlus

open Text Session

namespace CommandLine

/-- Print an error line; the command has failed. -/
def refuse (message : Text) : Action Interruption Nat := do
  printError ("Error: ".toList ++ message)
  return 1

/-- Go on only if the file operation succeeded. -/
def requireTree (outcome : Except FileError FileTree) : Action Interruption Unit := do
  setTree (← require (outcome.mapError .file))

/-- The path of the directory that a text names, seen from the current one. -/
def resolveDirectory (current : Path) (s : Text) : Action Interruption Path := do
  return Path.ofLocation ((← get).tree.resolve (current.joinText s))

/-- That a directory does not exist. -/
def refuseMissing (directory : Path) : Action Interruption Nat :=
  refuse ("directory '".toList ++ directory.text ++ "' does not exist.".toList)

/-- Write a default configuration into a directory. -/
def runInit (directory : Path) (version : Text) : Action Interruption Nat := do
  let file := directory.joinText ProjectConfig.fileName
  if !(← get).tree.contains directory then refuseMissing directory
  else if (← get).tree.contains file then
    refuse ("configuration already exists at '".toList ++ file.text ++ "'.".toList)
  else
    requireTree ((← get).tree.writeText file (ProjectConfig.defaultText version))
    requireTree ((← get).tree.ensureDirectory (directory.joinText "contracts".toList))
    print ("Initialized yulbuild project at '".toList ++ file.text ++ "'.".toList)
    return 0

/-- Where a configured project gets its compiler from. -/
def configuredProvider (directory : Path) (config : ProjectConfig) :
    Action Interruption Provider := do
  match config.solcPath with
  | none => return findCompiler
  | some s => return fixedCompiler (Path.ofLocation ((← get).tree.resolve (directory.joinText s)))

/-- Print the outcome of a build. -/
def printReport (report : BuildReport) : Action Interruption Nat := do
  let colored := (← read).colored
  if report.artifacts.isEmpty && report.failures.isEmpty then
    print "No .yul or .yulp files found.".toList
    return 0
  print (Color.green.paint colored
    ("Compiled ".toList ++ decimal report.artifacts.length ++ " Yul contract(s).".toList))
  if report.failures.isEmpty then return 0
  printError (Color.red.paint colored
    ("Failed to compile ".toList ++ decimal report.failures.length ++ " file(s):".toList))
  report.failures.forM fun failure =>
    printError (Color.red.paint colored ("  ".toList ++ failure.source.sourceName))
  return 1

/-- Build the project in a directory under its configuration. -/
def runConfigured (directory : Path) (config : ProjectConfig) : Action Interruption Nat := do
  let provider ← configuredProvider directory config
  let sink := directorySink (directory.joinText config.artifacts)
  printReport (← compileProject directory (directory.joinText config.sources) config.settings sink
    provider Dialect.all)

/-- Build the project in a directory. -/
def runCompile (directory : Path) : Action Interruption Nat := do
  let file := directory.joinText ProjectConfig.fileName
  if !(← get).tree.contains directory then refuseMissing directory
  else if !(← get).tree.contains file then
    refuse ("no ".toList ++ ProjectConfig.fileName ++ " found at '".toList ++ directory.text ++
      "'. Run 'yulbuild init' to create one.".toList)
  else
    match ProjectConfig.load (← get).tree file with
    | .error (.config fault) => refuse fault.message
    | .error (.encoding fault) => throw (.encoding fault)
    | .error (.scalar fault) => throw (.scalar fault)
    | .ok config => runConfigured directory config

/-- Perform a task in the current directory. -/
def Task.run (current : Path) : Task → Action Interruption Nat
  | .init directory version => do runInit (← resolveDirectory current directory) version
  | .compile directory => do runCompile (← resolveDirectory current directory)

/-- Do what is asked for. -/
def Invocation.run (current : Path) : Invocation → Action Interruption Nat
  | .help manual => do
    manual.help.forM print
    return 0
  | .misuse manual e => do
    (manual.complaint e).forM printError
    return 2
  | .perform task => task.run current

/-- Run the program on an argument list. -/
def run (current : Path) (arguments : List Text) : Action Interruption Nat :=
  (Invocation.ofArguments arguments).run current

end CommandLine

end YulPlus
