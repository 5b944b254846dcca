import YulPlus.Proofs.Build.Partition

/-!
# Compilers that are run as processes

A process that compiles a source may end in many ways. Most of them cost the source only: the
executable is not there, the time is over, the exit status is not zero, the answer is no JSON or has
the wrong shape. `ProcessResult.Escapes` are the others, which end the whole build: every other
failure to run the process, and an answer with an integer of too many digits.

This is exact (`Backend.compile_native_iff`), for the step that runs the compiler and for the whole
way of a source through the build. -/

namespace YulPlus

open Text Session

/-- The process that compiles an input. -/
def Backend.process (path : Path) (timeout : Scalar) (input : CompilerInput) : Command :=
  ⟨path, "--standard-json".toList, some input.wireText, timeout⟩

/-- The ends of a process that no step of the build expects. -/
inductive ProcessResult.Escapes : ProcessResult → Interruption → Prop
  | fault {fault : ProcessFault} (hnotFound : fault.kind ≠ .notFound)
      (htimeout : fault.kind ≠ .timeout) : Escapes (.failed fault) (.process fault)
  | digits {output errors : Text} {count : Nat}
      (hparse : CompilerOutput.parse output = .error (.tooManyDigits count)) :
      Escapes (.exited 0 output errors) (.integer (.tooManyDigits count))

/-- What the end of a process is taken for. -/
def nativeOutcome (path : Path) (timeout : Scalar) : ProcessResult → Except Failure CompilerOutput
  | .failed fault =>
    match fault.kind with
    | .notFound => .error (.skipped (.run (.noExecutable path)))
    | .timeout => .error (.skipped (.run (.timedOut timeout)))
    | _ => .error (.interrupted (.process fault))
  | .exited status output errors =>
    if status = 0 then readAnswer output
    else .error (.skipped (.run (.exited status errors)))

/-- A visited file comes as far as its compiler, which is an executable and gets this input. -/
inductive Setup.Hands (b : Setup) (t : FileTree) (v : Visit) (path : Path) (timeout : Scalar) :
    CompilerInput → Prop
  | intro {source : SourceFile} {s code : Text} {interface : Option Interface} {tr : Trace}
      (hlocated : b.located t v = .ok source) (hread : readSource t source = .ok s)
      (hlower : lowerSource source.dialect s = .ok (code, interface))
      (hselect : Yields (selectBackend b.settings.version b.provider) b.host
        (.ok (.native path timeout)) tr) :
      Hands b t v path timeout (.ofSource code b.settings)

section

variable {path : Path} {timeout : Scalar} {input : CompilerInput} {host : Host}
  {result : ProcessResult} {cause : Interruption} {output : CompilerOutput} {b : Setup}
  {t : FileTree} {v : Visit}

/-! ### The step that runs the compiler -/

theorem readAnswer_eq_interrupted_iff {raw : Text} :
    readAnswer raw = .error (.interrupted cause) ↔
      ∃ count, CompilerOutput.parse raw = .error (.tooManyDigits count) ∧
        cause = .integer (.tooManyDigits count) := by
  unfold readAnswer
  cases CompilerOutput.parse raw with
  | ok _ => simp
  | error fault => cases fault <;> simp [eq_comm]

theorem nativeOutcome_eq_interrupted_iff (path : Path) (timeout : Scalar) :
    nativeOutcome path timeout result = .error (.interrupted cause) ↔ result.Escapes cause := by
  constructor
  · intro h
    match result with
    | .failed ⟨kind, _⟩ => cases kind <;> cases h <;> exact .fault (by simp) (by simp)
    | .exited status raw errors =>
      by_cases hstatus : status = 0
      · subst hstatus
        obtain ⟨count, hparse, rfl⟩ := readAnswer_eq_interrupted_iff.mp h
        exact .digits hparse
      · simp [nativeOutcome, hstatus] at h
  · intro h
    cases h with
    | @fault fault hnotFound htimeout =>
      obtain ⟨kind, _⟩ := fault
      cases kind <;> first | rfl | contradiction
    | digits hparse => exact readAnswer_eq_interrupted_iff.mpr ⟨_, hparse, rfl⟩

/-- The step starts one process and takes its end for what it is. -/
theorem yields_compile_native :
    Yields ((Backend.native path timeout).compile input) host
      (nativeOutcome path timeout (host.run (Backend.process path timeout input)))
      ⟨[.run (Backend.process path timeout input)], [], []⟩ := by
  show Yields (Session.run _ >>= _) host _ (Trace.mk [.run _] [] [] ++ {})
  refine (Yields.run _).bind ?_
  match host.run (Backend.process path timeout input) with
  | .failed ⟨kind, _⟩ => cases kind <;> exact .throw _
  | .exited status raw errors =>
    by_cases hstatus : status = 0
    · simp only [nativeOutcome, hstatus, if_true]
      exact .require _
    · simp only [nativeOutcome, hstatus, if_false]
      exact .throw _

/-! ### The way of a source through the build -/

/-- What the backend makes of the code of a source is what comes of the source, apart from the
artifact that is then built. -/
theorem exists_yields_compileRead {source : SourceFile} {s code : Text}
    {interface : Option Interface} {settings : BuildSettings} {provider : Provider}
    {backend : Backend} {outcome : Except Failure CompilerOutput} {tr tr' : Trace}
    (hlower : lowerSource source.dialect s = .ok (code, interface))
    (hselect : Yields (selectBackend settings.version provider) host (.ok backend) tr)
    (hcompile : Yields (backend.compile (.ofSource code settings)) host outcome tr') :
    ∃ tr, Yields (compileRead (.ok s) source settings provider) host
      (outcome >>= fun output ↦ (synthesize source.sourceName output interface).mapError
        fun e ↦ .skipped (.synthesis e)) tr := by
  have hcode : Yields (require (lowerSource source.dialect s)) host (.ok (code, interface)) {} :=
    hlower ▸ .require _
  cases outcome with
  | error e =>
    exact ⟨_, (Yields.require _).bind (hcode.bind (hselect.bind hcompile.bind_error))⟩
  | ok output =>
    obtain ⟨_, hprint⟩ :=
      exists_yields_printDiagnostics source.sourceName output.diagnostics host
    exact ⟨_, (Yields.require _).bind (hcode.bind (hselect.bind (hcompile.bind
      (hprint.bind (.require _)))))⟩

/-- What the compiler makes of a source decides whether the source ends the build. -/
theorem Setup.Hands.alone_eq_error_iff (h : b.Hands t v path timeout input) :
    (b.alone t v).1 = .error cause ↔
      (b.host.run (Backend.process path timeout input)).Escapes cause := by
  obtain @⟨source, s, code, interface, tr, hlocated, hread, hlower, hselect⟩ := h
  obtain ⟨tr', hyields⟩ := exists_yields_compileRead hlower hselect yields_compile_native
  rw [← hread] at hyields
  rw [Setup.alone_eq_error_iff hlocated, Setup.compiled_eq_of_yields hyields,
    ← nativeOutcome_eq_interrupted_iff path timeout]
  cases nativeOutcome path timeout _ with
  | error e =>
    show Except.error e = _ ↔ _
    simp
  | ok output =>
    -- Nothing that follows interrupts the build.
    constructor
    · intro h
      obtain ⟨_, _, h⟩ := exists_of_mapError_eq_error h
      cases h
    · intro h
      cases h

end

/-! ### An executable that may not be run -/

namespace Sample

/-- The permission that the system does not give. -/
def fault : ProcessFault where
  kind := .permission
  message := "[Errno 13] Permission denied: '/solc'".toList

end Sample

end YulPlus
