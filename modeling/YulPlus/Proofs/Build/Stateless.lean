import YulPlus.Build.Run

/-!
# Steps of a build without memory

Most steps of a build do the same in every session. They ask the world outside, print and come to an
outcome, but they look neither at the files nor at what has happened so far. `Yields` says this of a
step for one outcome and one trace, which is what the step adds to the session. Such steps may be
done one after the other (`Yields.bind`), and their traces are put together. A step that yields
something on every host is `Stateless`.

The providers of the program are stateless, and all that happens to a source when its text has been
read is stateless too if the provider is. So what comes of a source depends on its text alone
(`compileSource_eq_of_readSource_eq`), whatever else the session holds. -/

namespace YulPlus

open Text Session

/-- What a step adds to a session: what it asks for, what it prints. -/
structure Trace where
  events : List Event := []
  output : Text := []
  errors : Text := []
deriving DecidableEq, Repr

instance : Append Trace where
  append a b := ⟨a.events ++ b.events, a.output ++ b.output, a.errors ++ b.errors⟩

namespace Session

/-- The session after a trace was added to it. -/
def extend (s : Session) (tr : Trace) : Session :=
  { s with
    events := s.events ++ tr.events
    output := s.output ++ tr.output
    errors := s.errors ++ tr.errors }

/-- All that was added to a session since its beginning. -/
def trace (s : Session) : Trace :=
  ⟨s.events, s.output, s.errors⟩

variable (s : Session) (a b : Trace)

@[simp] theorem tree_extend : (s.extend a).tree = s.tree :=
  rfl

@[simp] theorem extend_empty : s.extend {} = s := by
  simp [extend]

theorem extend_append : s.extend (a ++ b) = (s.extend a).extend b := by
  show extend s ⟨_ ++ _, _ ++ _, _ ++ _⟩ = _
  simp [extend]

/-- A session that begins with some files has exactly the trace that is added. -/
@[simp] theorem trace_extend (t : FileTree) : (({ tree := t } : Session).extend a).trace = a := by
  simp [extend, trace]

end Session

/-- In every session the step comes to this outcome and adds this trace. -/
def Yields {ε α : Type} (step : Action ε α) (host : Host) (outcome : Except ε α) (tr : Trace) :
    Prop :=
  ∀ s, step host s = (outcome, s.extend tr)

/-- What the step does is the same in every session. -/
def Stateless {ε α : Type} (step : Action ε α) : Prop :=
  ∀ host, ∃ outcome tr, Yields step host outcome tr

/-- Providing a toolchain needs no memory. -/
def Provider.IsStateless (provider : Provider) : Prop :=
  ∀ version, Stateless (provider version)

section

variable {ε ε' α β : Type} {host : Host} {tr tr' : Trace} {step : Action ε α}
  {next : α → Action ε β}

/-- One step and then another: the second is not done if the first one fails. -/
theorem bind_action_eq (step : Action ε α) (next : α → Action ε β) (host : Host) (s : Session) :
    (step >>= next) host s =
      match step host s with
      | (.ok a, s') => next a host s'
      | (.error e, s') => (.error e, s') := by
  show ExceptT.bindCont (fun a ↦ next a host) (step host s).1 (step host s).2 = _
  rcases step host s with ⟨_ | a, s'⟩ <;> rfl

/-- A chain of steps succeeds only if every step does. -/
theorem exists_of_bind_eq_ok {s s' : Session} {b : β}
    (h : (step >>= next) host s = (.ok b, s')) :
    ∃ a s₁, step host s = (.ok a, s₁) ∧ next a host s₁ = (.ok b, s') := by
  rw [bind_action_eq] at h
  match hstep : step host s with
  | (.ok a, s₁) => exact ⟨a, s₁, rfl, by rwa [hstep] at h⟩
  | (.error e, s₁) =>
    rw [hstep] at h
    cases h

theorem get_action_eq (host : Host) (s : Session) : (get : Action ε Session) host s = (.ok s, s) :=
  rfl

theorem read_action_eq (host : Host) (s : Session) :
    (read : Action ε Host) host s = (.ok host, s) :=
  rfl

theorem attempt_action_eq (step : Action ε α) (host : Host) (s : Session) :
    (attempt step : Action ε' _) host s = (.ok (step host s).1, (step host s).2) :=
  rfl

/-! ### What single steps yield -/

namespace Yields

theorem pure (a : α) : Yields (Pure.pure a : Action ε α) host (.ok a) {} :=
  fun s ↦ by rw [extend_empty]; rfl

theorem throw (e : ε) : Yields (MonadExcept.throw e : Action ε α) host (.error e) {} :=
  fun s ↦ by rw [extend_empty]; rfl

theorem require (x : Except ε α) : Yields (Session.require x) host x {} := by
  cases x with
  | error e => exact Yields.throw e
  | ok a => exact Yields.pure a

theorem note (e : Event) : Yields (Session.note e : Action ε Unit) host (.ok ()) ⟨[e], [], []⟩ :=
  fun s ↦ by simp [extend]; rfl

theorem read : Yields (MonadReader.read : Action ε Host) host (.ok host) {} :=
  fun s ↦ by rw [extend_empty]; rfl

theorem print (line : Text) :
    Yields (Session.print line : Action ε Unit) host (.ok ()) ⟨[], line ++ ['\n'], []⟩ :=
  fun s ↦ by simp [extend, ← List.append_assoc]; rfl

theorem printError (line : Text) :
    Yields (Session.printError line : Action ε Unit) host (.ok ()) ⟨[], [], line ++ ['\n']⟩ :=
  fun s ↦ by simp [extend, ← List.append_assoc]; rfl

theorem find (name : Text) : Yields (Session.find name : Action ε _) host (.ok (host.find name))
    ⟨[.find name], [], []⟩ :=
  fun s ↦ by simp [extend]; rfl

theorem run (command : Command) : Yields (Session.run command : Action ε _) host
    (.ok (host.run command)) ⟨[.run command], [], []⟩ :=
  fun s ↦ by simp [extend]; rfl

/-- **One step and then another.** -/
theorem bind {a : α} {outcome : Except ε β} (h : Yields step host (.ok a) tr)
    (hnext : Yields (next a) host outcome tr') :
    Yields (step >>= next) host outcome (tr ++ tr') := by
  intro s
  rw [bind_action_eq, h, extend_append]
  exact hnext _

theorem bind_error {e : ε} (h : Yields step host (.error e) tr) :
    Yields (step >>= next) host (.error e) tr := by
  intro s
  rw [bind_action_eq, h]

theorem attempt {outcome : Except ε α} (h : Yields step host outcome tr) :
    Yields (Session.attempt step : Action ε' _) host (.ok outcome) tr := by
  intro s
  rw [attempt_action_eq, h]

/-- The same for each member of a list. -/
theorem exists_forM {α : Type} {step : α → Action ε Unit} {xs : List α}
    (h : ∀ x ∈ xs, ∃ tr, Yields (step x) host (.ok ()) tr) :
    ∃ tr, Yields (xs.forM step) host (.ok ()) tr := by
  induction xs with
  | nil => exact ⟨_, .pure ()⟩
  | cons x xs ih =>
    obtain ⟨_, hx⟩ := h x (by simp)
    obtain ⟨_, hxs⟩ := ih fun y hy ↦ h y (by simp [hy])
    exact ⟨_, hx.bind hxs⟩

end Yields

/-! ### Steps that are the same in every session -/

namespace Stateless

theorem pure (a : α) : Stateless (Pure.pure a : Action ε α) :=
  fun _ ↦ ⟨_, _, .pure a⟩

theorem throw (e : ε) : Stateless (MonadExcept.throw e : Action ε α) :=
  fun _ ↦ ⟨_, _, .throw e⟩

theorem require (x : Except ε α) : Stateless (Session.require x) :=
  fun _ ↦ ⟨_, _, .require x⟩

theorem note (e : Event) : Stateless (Session.note e : Action ε Unit) :=
  fun _ ↦ ⟨_, _, .note e⟩

theorem bind (h : Stateless step) (hnext : ∀ a, Stateless (next a)) :
    Stateless (step >>= next) := by
  intro host
  obtain ⟨outcome, tr, hstep⟩ := h host
  cases outcome with
  | error e => exact ⟨_, _, hstep.bind_error⟩
  | ok a =>
    obtain ⟨outcome, tr', hnext⟩ := hnext a host
    exact ⟨_, _, hstep.bind hnext⟩

theorem attempt (h : Stateless step) : Stateless (Session.attempt step : Action ε' _) := by
  intro host
  obtain ⟨outcome, tr, hstep⟩ := h host
  exact ⟨_, _, hstep.attempt⟩

theorem find (name : Text) : Stateless (Session.find name : Action ε _) :=
  fun _ ↦ ⟨_, _, .find name⟩

theorem run (command : Command) : Stateless (Session.run command : Action ε _) :=
  fun _ ↦ ⟨_, _, .run command⟩

end Stateless

/-! ### Providers -/

theorem stateless_executableVersion (path : Path) : Stateless (executableVersion path) := by
  refine (Stateless.run _).bind fun result ↦ ?_
  cases result with
  | failed fault =>
    by_cases hfault : (fault.isSystem || fault.kind = .timeout) = true
    · simp only [hfault, if_true]
      exact .pure _
    · simp only [hfault]
      exact .throw _
  | exited status output errors => exact .pure _

theorem stateless_findAmong (version : Text) (names : List Text) :
    Stateless (findAmong version names) := by
  induction names with
  | nil => exact .pure _
  | cons name names ih =>
    refine (Stateless.find name).bind fun found ↦ ?_
    cases found with
    | none => exact ih
    | some found =>
      refine (stateless_executableVersion _).bind fun reported ↦ ?_
      by_cases hversion : reported = some version
      · simp only [hversion, if_true]
        exact .pure _
      · simp only [hversion, if_false]
        exact ih

/-- Looking for a compiler needs no memory. -/
theorem isStateless_findCompiler : Provider.IsStateless findCompiler :=
  fun version ↦ stateless_findAmong version _

/-- Nor does a given compiler. -/
theorem isStateless_fixedCompiler (path : Path) : Provider.IsStateless (fixedCompiler path) := by
  intro version
  refine (stateless_executableVersion path).bind fun reported ↦ ?_
  by_cases hversion : reported = some version
  · simp only [hversion, if_true]
    exact .pure _
  · simp only [hversion, if_false]
    exact .pure _

/-! ### Compiling one source -/

theorem stateless_selectBackend (version : Text) {provider : Provider}
    (h : provider.IsStateless) : Stateless (selectBackend version provider) := by
  refine (h version).attempt.bind fun outcome ↦ ?_
  match outcome with
  | .error fault =>
    by_cases hfault : (fault.isSystem || fault.isSubprocess) = true
    · simp only [hfault, if_true]
      exact .throw _
    · simp only [hfault]
      exact .throw _
  | .ok none => exact .throw _
  | .ok (some ⟨_, _, some _⟩) => exact .pure _
  | .ok (some ⟨_, some _, none⟩) => exact .pure _
  | .ok (some ⟨_, none, none⟩) => exact .throw _

theorem stateless_compile (backend : Backend) (input : CompilerInput) :
    Stateless (backend.compile input) := by
  cases backend with
  | native path timeout =>
    refine (Stateless.run _).bind fun result ↦ ?_
    match result with
    | .failed ⟨kind, _⟩ => cases kind <;> exact .throw _
    | .exited status _ _ =>
      by_cases hstatus : status = 0
      · simp only [hstatus, if_true]
        exact .require _
      · simp only [hstatus, if_false]
        exact .throw _
  | inProcess entryPoint =>
    refine (Stateless.note _).bind fun _ ↦ ?_
    cases entryPoint input.wireText with
    | error fault => exact .throw _
    | ok raw => exact .require _

/-- Diagnostics are printed in any session. -/
theorem exists_yields_printDiagnostics (sourceName : Text) (ds : List Diagnostic) (host : Host) :
    ∃ tr, Yields (printDiagnostics sourceName ds : Action ε Unit) host (.ok ()) tr := by
  induction ds with
  | nil => exact ⟨_, .pure ()⟩
  | cons d ds ih =>
    obtain ⟨_, hrest⟩ := ih
    by_cases hd : d.isWarning = true
    · simp only [printDiagnostics, hd, if_true]
      exact ⟨_, .bind .read (.bind (.print _) hrest)⟩
    · simp only [printDiagnostics, hd, Bool.false_eq_true, if_false]
      exact ⟨_, .bind .read (.bind (.printError _) hrest)⟩

/-- Compile a source whose text has been read, or could not be read. -/
def compileRead (read : Except BuildError Text) (source : SourceFile) (settings : BuildSettings)
    (provider : Provider) : Action Failure Artifact := do
  let s ← require (read.mapError .skipped)
  let (code, interface) ← require (lowerSource source.dialect s)
  let backend ← selectBackend settings.version provider
  let output ← backend.compile (.ofSource code settings)
  printDiagnostics source.sourceName output.diagnostics
  require ((synthesize source.sourceName output interface).mapError fun e =>
    .skipped (.synthesis e))

/-- Only the text of the source is read from the files. -/
theorem compileSource_eq (source : SourceFile) (settings : BuildSettings) (provider : Provider)
    (host : Host) (s : Session) : compileSource source settings provider host s =
      compileRead (readSource s.tree source) source settings provider host s :=
  rfl

theorem stateless_compileRead (read : Except BuildError Text) (source : SourceFile)
    (settings : BuildSettings) {provider : Provider} (h : provider.IsStateless) :
    Stateless (compileRead read source settings provider) :=
  (Stateless.require _).bind fun _ ↦ (Stateless.require _).bind fun _ ↦
    (stateless_selectBackend _ h).bind fun backend ↦ (stateless_compile backend _).bind fun _ ↦
      Stateless.bind (fun host ↦ ⟨_, exists_yields_printDiagnostics _ _ host⟩) fun _ ↦ .require _

/-- **What comes of a source depends on its text alone.** In a session where the source reads the
same as among the files `t`, it is compiled as in a new session with these files. -/
theorem compileSource_eq_of_readSource_eq {provider : Provider} {source : SourceFile}
    {t : FileTree} {s : Session} (hprovider : provider.IsStateless)
    (hread : readSource s.tree source = readSource t source) (settings : BuildSettings)
    (host : Host) :
    compileSource source settings provider host s =
      ((compileSource source settings provider host { tree := t }).1,
        s.extend (compileSource source settings provider host { tree := t }).2.trace) := by
  obtain ⟨outcome, tr, hyields⟩ :=
    stateless_compileRead (readSource t source) source settings hprovider host
  rw [compileSource_eq, compileSource_eq, hread, hyields, hyields { tree := t }, trace_extend]

end

end YulPlus
