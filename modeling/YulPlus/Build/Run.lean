import YulPlus.Artifact.Store
import YulPlus.Build.Toolchain
import YulPlus.Lowering.Lowered

/-!
# Building a project

Every source of a project is compiled on every run, one after the other: the sources of the first
dialect, then those of the next. A source is read and, if it is Yul+, lowered; a backend is selected
and runs; its diagnostics are printed; and the artifact goes to the sink before the next source is
begun. A source that cannot be compiled is reported with one line and costs no other source.

* `compileSource` compiles a single source.
* `compileProject` compiles all of them and gives a `BuildReport`.
-/

namespace YulPlus

open Text Session

/-- Takes the finished artifacts. -/
abbrev Sink := Artifact → Action Interruption Unit

/-- A source that was not compiled and why. -/
structure SourceFailure where
  source : SourceFile
  error : BuildError
deriving Repr

/-- The outcome of a run: the artifacts and the failures, each in the order of the sources. -/
structure BuildReport where
  artifacts : List Artifact := []
  failures : List SourceFailure := []
deriving Repr

/-! ### Printed reports -/

/-- Print what the compiler reported: warnings in yellow, errors in red on the error output. -/
def printDiagnostics {ε : Type} (sourceName : Text) : List Diagnostic → Action ε Unit
  | [] => return ()
  | d :: rest => do
    let colored := (← read).colored
    if d.isWarning then
      print (Color.yellow.paint colored
        ("yulbuild: warning compiling ".toList ++ sourceName ++ ":\n".toList ++ d.text))
    else
      printError (Color.red.paint colored
        ("yulbuild: error compiling ".toList ++ sourceName ++ ":\n".toList ++ d.text))
    printDiagnostics sourceName rest

/-- Print the line of a source that is skipped. -/
def printFailure {ε : Type} (sourceName message : Text) : Action ε Unit := do
  printError (Color.red.paint (← read).colored
    ("yulbuild: failed to compile ".toList ++ sourceName ++ ": ".toList ++ message))

/-! ### Sinks -/

/-- A sink that keeps artifacts nowhere and only notes the names of their sources. -/
def memorySink : Sink := fun a =>
  note (.store a.sourceName)

/-- A sink that writes artifacts below a directory and notes their paths. -/
def directorySink (directory : Path) : Sink := fun a => do
  let store : ArtifactStore := { directory := directory }
  match store.record (← get).tree a with
  | (_, tree, some e) =>
    setTree tree
    throw (.file e)
  | (_, tree, none) =>
    setTree tree
    note (.store (store.path a).text)

/-! ### Compiling -/

/-- The text of a source. -/
def readSource (t : FileTree) (source : SourceFile) : Except BuildError Text :=
  match t.readText source.path with
  | .ok s => .ok s
  | .error (.file e) => .error (.unreadable source.path e)
  | .error (.encoding fault) => .error (.undecodable source.path fault)

/-- The plain Yul of a source text and its interface, which only a Yul+ source has. -/
def lowerSource (dialect : Dialect) (s : Text) : Except Failure (Text × Option Interface) :=
  match dialect with
  | .yul => .ok (s, none)
  | .yulPlus =>
    match lower s with
    | .ok lowered => .ok (lowered.code, some lowered.interface)
    | .error (.located e) => .error (.skipped (.syntaxError e))
    | .error (.integer fault) => .error (.interrupted (.integer fault))

/-- Compile a single source. -/
def compileSource (source : SourceFile) (settings : BuildSettings) (provider : Provider) :
    Action Failure Artifact := do
  let s ← require ((readSource (← get).tree source).mapError .skipped)
  let (code, interface) ← require (lowerSource source.dialect s)
  let backend ← selectBackend settings.version provider
  let output ← backend.compile (.ofSource code settings)
  printDiagnostics source.sourceName output.diagnostics
  require ((synthesize source.sourceName output interface).mapError fun e =>
    .skipped (.synthesis e))

/-- Report a source that is skipped. -/
def skipSource (report : BuildReport) (source : SourceFile) (error : BuildError) :
    Action Interruption BuildReport := do
  printFailure source.sourceName error.message
  return { report with failures := report.failures ++ [⟨source, error⟩] }

/-- Compile the source at a location and add its outcome to the report. -/
def compileLocation (root : Path) (settings : BuildSettings) (sink : Sink) (provider : Provider)
    (dialect : Dialect) (report : BuildReport) (location : Location) :
    Action Interruption BuildReport := do
  let path := Path.ofLocation location
  match SourceFile.ofPath (← get).tree root path dialect with
  | .error e => skipSource report ⟨location, path.text, dialect⟩ (.outside e)
  | .ok source =>
    print ("Compiling ".toList ++ source.sourceName ++ "...".toList)
    match ← attempt (compileSource source settings provider) with
    | .error (.skipped error) => skipSource report source error
    | .error (.interrupted cause) => throw cause
    | .ok artifact =>
      sink artifact
      return { report with artifacts := report.artifacts ++ [artifact] }

/-- Compile the sources of a dialect. -/
def compileDialect (root sources : Path) (settings : BuildSettings) (sink : Sink)
    (provider : Provider) (report : BuildReport) (dialect : Dialect) :
    Action Interruption BuildReport := do
  let locations := (← get).tree.findSources sources dialect
  locations.foldlM (compileLocation root settings sink provider dialect) report

/-- Compile all sources below a directory of the project at `root`, dialect by dialect. -/
def compileProject (root sources : Path) (settings : BuildSettings) (sink : Sink)
    (provider : Provider) (dialects : List Dialect) : Action Interruption BuildReport :=
  dialects.foldlM (compileDialect root sources settings sink provider) {}

end YulPlus
