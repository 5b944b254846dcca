import YulPlus.Build.Error

/-!
# Toolchains

A compiler is provided for a version, either as an executable, which is run as a process, or as an
entry point, which is called. An executable counts as a version only if it says so itself: the first
`Version:` in its output that three numbers with points between them follow.

* `findCompiler` looks for an executable by the version and then by the plain name.
* `selectBackend` turns what a provider returns into a `Backend`.
* `Backend.compile` hands one input to the compiler and reads its answer.
-/

namespace YulPlus

open Text Session

/-- A compiler of some version: the path of an executable, an entry point, or both. -/
structure Toolchain where
  version : Text
  path : Option Path := none
  entryPoint : Option (Text → Except ProcessFault Text) := none

/-- Finds the toolchain for a version, if there is one. -/
abbrev Provider := Text → Action ProcessFault (Option Toolchain)

/-! ### Versions -/

/-- A number in decimal digits of any script at the head of a text, and the rest. -/
def versionPart? (s : Text) : Option (Text × Text) :=
  let digits := s.takeWhile fun c => (digitValue? c).isSome
  if digits.isEmpty then none else some (digits, s.drop digits.length)

/-- Three numbers with points between them at the head of a text. -/
def versionNumber? (s : Text) : Option Text :=
  match versionPart? s with
  | some (major, '.' :: rest) =>
    match versionPart? rest with
    | some (minor, '.' :: rest) =>
      (versionPart? rest).map fun (patch, _) => major ++ '.' :: minor ++ '.' :: patch
    | _ => none
  | _ => none

/-- The version that a compiler reports in its output. -/
def reportedVersion? : Text → Option Text
  | [] => none
  | c :: rest =>
    match (dropHead? "Version:".toList (c :: rest)).bind fun s => versionNumber? (stripLeft s) with
    | some version => some version
    | none => reportedVersion? rest

/-- The version that an executable reports; none if it cannot be run or does not say. -/
def executableVersion (path : Path) : Action ProcessFault (Option Text) := do
  match ← run ⟨path, "--version".toList, none, .int 30⟩ with
  | .failed fault =>
    if fault.isSystem || fault.kind = .timeout then return none else throw fault
  | .exited status output _ => return if status = 0 then reportedVersion? output else none

/-! ### Providers -/

/-- The first of the named executables that reports the version. -/
def findAmong (version : Text) : List Text → Action ProcessFault (Option Toolchain)
  | [] => return none
  | name :: rest => do
    match ← find name with
    | none => findAmong version rest
    | some found =>
      let path := Path.ofText found
      if (← executableVersion path) = some version then
        return some { version := version, path := some path }
      else findAmong version rest

/-- Look for an executable of the version. -/
def findCompiler : Provider := fun version =>
  findAmong version ["solc-".toList ++ version, "solc".toList]

/-- Provide a given executable, if it has the version. -/
def fixedCompiler (path : Path) : Provider := fun version => do
  if (← executableVersion path) = some version then
    return some { version := version, path := some path }
  else return none

/-! ### Backends -/

/-- How the compiler is reached. -/
inductive Backend
  | native (path : Path) (timeout : Scalar)
  | inProcess (entryPoint : Text → Except ProcessFault Text)

/-- The time in seconds that a compilation may take. -/
def defaultTimeout : Scalar := .int 300

/-- Obtain a backend. An entry point is preferred to an executable. -/
def selectBackend (version : Text) (provider : Provider) : Action Failure Backend := do
  match ← attempt (provider version) with
  | .error fault =>
    if fault.isSystem || fault.isSubprocess then
      throw (.skipped (.unavailable (.providerFailed version fault.message)))
    else throw (.interrupted (.process fault))
  | .ok none => throw (.skipped (.unavailable (.notProvided version)))
  | .ok (some toolchain) =>
    match toolchain.entryPoint, toolchain.path with
    | some entryPoint, _ => return .inProcess entryPoint
    | none, some path => return .native path defaultTimeout
    | none, none => throw (.skipped (.unavailable (.unusable version)))

/-- The answer in a text, as an outcome of a run. -/
def readAnswer (raw : Text) : Except Failure CompilerOutput :=
  match CompilerOutput.parse raw with
  | .ok output => .ok output
  | .error .malformed => .error (.skipped (.run .malformedAnswer))
  | .error (.invalid faults) => .error (.skipped (.run (.unexpectedAnswer faults)))
  | .error (.tooManyDigits count) => .error (.interrupted (.integer (.tooManyDigits count)))

namespace Backend

/-- Compile one input. -/
def compile (backend : Backend) (input : CompilerInput) : Action Failure CompilerOutput := do
  match backend with
  | .native path timeout =>
    match ← run ⟨path, "--standard-json".toList, some input.wireText, timeout⟩ with
    | .failed fault =>
      match fault.kind with
      | .notFound => throw (.skipped (.run (.noExecutable path)))
      | .timeout => throw (.skipped (.run (.timedOut timeout)))
      | _ => throw (.interrupted (.process fault))
    | .exited status output errors =>
      if status = 0 then require (readAnswer output)
      else throw (.skipped (.run (.exited status errors)))
  | .inProcess entryPoint =>
    note (.call input.wireText)
    match entryPoint input.wireText with
    | .error fault => throw (.interrupted (.process fault))
    | .ok raw => require (readAnswer raw)

end Backend

end YulPlus
