import YulPlus.Proofs.Build.Executable
import YulPlus.Proofs.Build.Version

/-!
# The processes that a step starts

The commands among the events of a session are the processes that were started in it, in their
order. `Starts` says which commands a step adds and how they fit its outcome. This is put together
step by step (`Starts.bind`), and steps that only print, or fail, start nothing (`Quiet`).

A provider of the program searches an executable that confirms the version: it asks one after the
other, up to the first that does (`Searched`), and this one is provided (`starts_findAmong`,
`starts_fixedCompiler`). So the process that compiles a source is started right behind a check of
the same executable, and it is started whenever the source has code and the search finds something
(`Tried`, `starts_compileRead`). -/

namespace YulPlus

open Text Session CommandLine

/-- The process that an event has started. -/
def Event.command? : Event → Option Command
  | .run command => some command
  | _ => none

/-- The processes of a trace, in their order. -/
def Trace.commands (tr : Trace) : List Command :=
  tr.events.filterMap Event.command?

/-- The processes that were started in a session, in their order. -/
def Session.commands (s : Session) : List Command :=
  s.trace.commands

/-- In every session the step starts some processes, and they fit its outcome. -/
def Starts {ε α : Type} (step : Action ε α) (host : Host)
    (fits : Except ε α → List Command → Prop) : Prop :=
  ∀ s, ∃ cs, (step host s).2.commands = s.commands ++ cs ∧ fits (step host s).1 cs

/-- The step starts no process. -/
def Quiet {ε α : Type} (step : Action ε α) (host : Host) : Prop :=
  Starts step host fun _ cs ↦ cs = []

/-- The process that asks an executable for its version. -/
def versionCheck (path : Path) : Command :=
  ⟨path, "--version".toList, none, .int 30⟩

/-- Asked for its version, the executable exits with status zero and reports this one. -/
def Confirms (host : Host) (path : Path) (version : Text) : Prop :=
  ∃ output errors, host.run (versionCheck path) = .exited 0 output errors ∧ Reports output version

/-- Asked for its version, the executable fails in a way that no provider expects. -/
def Breaks (host : Host) (path : Path) : Prop :=
  ∃ fault, host.run (versionCheck path) = .failed fault ∧
    (fault.isSystem || fault.kind = .timeout) = false

/-- A search among some executables: the checks that it starts, and the executable that it finds,
which is the first one that confirms the version. -/
inductive Searched (host : Host) (version : Text) :
    List Path → List Command → Option Path → Prop
  | exhausted : Searched host version [] [] none
  | found {path : Path} {paths : List Path} (hconfirms : Confirms host path version) :
      Searched host version (path :: paths) [versionCheck path] (some path)
  | passed {path : Path} {paths : List Path} {checks : List Command} {found : Option Path}
      (hconfirms : ¬ Confirms host path version) (hbreaks : ¬ Breaks host path)
      (hrest : Searched host version paths checks found) :
      Searched host version (path :: paths) (versionCheck path :: checks) found
  | broken {path : Path} {paths : List Path} (hbreaks : Breaks host path) :
      Searched host version (path :: paths) [versionCheck path] none

/-- The toolchain of an executable. -/
def Toolchain.ofPath (version : Text) (path : Path) : Toolchain where
  version := version
  path := some path

/-- A search for a version among some executables, and the toolchain that is provided is the one
that it finds. -/
def Provides (host : Host) (version : Text) (paths : List Path)
    (outcome : Except ProcessFault (Option Toolchain)) (checks : List Command) : Prop :=
  ∃ found, Searched host version paths checks found ∧
    ∀ toolchain, outcome = .ok (some toolchain) ↔
      ∃ path, found = some path ∧ toolchain = .ofPath version path

/-- The code of a source text: the text itself, or what a Yul+ text is lowered to. -/
inductive IsCode : Dialect → Text → Text → Prop
  | yul {s : Text} : IsCode .yul s s
  | yulPlus {s : Text} {lowered : Lowered} (hlower : lower s = .ok lowered) :
      IsCode .yulPlus s lowered.code

/-- The processes that are started for a source: none if it has no code. Otherwise an executable is
searched, and if one is found, it compiles the code. -/
inductive Tried (host : Host) (settings : BuildSettings) (paths : List Path)
    (HasCode : Text → Prop) : List Command → Prop
  | nothing (hcode : ∀ code, ¬ HasCode code) : Tried host settings paths HasCode []
  | unconfirmed {code : Text} {checks : List Command} (hcode : HasCode code)
      (hsearched : Searched host settings.version paths checks none) :
      Tried host settings paths HasCode checks
  | confirmed {code : Text} {path : Path} {checks : List Command} (hcode : HasCode code)
      (hsearched : Searched host settings.version paths checks (some path)) :
      Tried host settings paths HasCode
        (checks ++ [Backend.process path defaultTimeout (.ofSource code settings)])

section

variable {ε ε' α β : Type} {host : Host} {s : Session} {tr : Trace} {step : Action ε α}
  {next : α → Action ε β} {fits fits' : Except ε α → List Command → Prop}
  {after : Except ε β → List Command → Prop} {version : Text} {paths : List Path}

/-! ### Steps and their commands -/

@[simp] theorem Session.commands_extend : (s.extend tr).commands = s.commands ++ tr.commands :=
  List.filterMap_append

namespace Starts

theorem of_yields {outcome : Except ε α} (h : Yields step host outcome tr)
    (hfits : fits outcome tr.commands) : Starts step host fits := by
  intro s
  rw [h]
  exact ⟨tr.commands, commands_extend, hfits⟩

theorem imp (h : Starts step host fits) (himp : ∀ outcome cs, fits outcome cs → fits' outcome cs) :
    Starts step host fits' := by
  intro s
  obtain ⟨cs, hcs, hfits⟩ := h s
  exact ⟨cs, hcs, himp _ _ hfits⟩

/-- **One step and then another.** What the second one starts stands behind what the first one has
started. -/
theorem bind (h : Starts step host fits) (herror : ∀ e cs, fits (.error e) cs → after (.error e) cs)
    (hnext : ∀ a cs, fits (.ok a) cs →
      Starts (next a) host fun outcome cs' ↦ after outcome (cs ++ cs')) :
    Starts (step >>= next) host after := by
  intro s
  obtain ⟨cs, hcs, hfits⟩ := h s
  rw [bind_action_eq]
  rcases hstep : step host s with ⟨e | a, s₁⟩ <;> rw [hstep] at hcs hfits
  · exact ⟨cs, hcs, herror e cs hfits⟩
  · obtain ⟨cs', hcs', hafter⟩ := hnext a cs hfits s₁
    refine ⟨cs ++ cs', ?_, hafter⟩
    rw [hcs', hcs, List.append_assoc]

theorem attempt (h : Starts step host fits) :
    Starts (Session.attempt step : Action ε' _) host fun outcome cs ↦
      ∃ inner, outcome = .ok inner ∧ fits inner cs := by
  intro s
  obtain ⟨cs, hcs, hfits⟩ := h s
  exact ⟨cs, hcs, _, rfl, hfits⟩

/-- A step after which nothing is started. -/
theorem bind_quiet (h : Starts step host fits) (hnext : ∀ a, Quiet (next a) host)
    (hafter : ∀ outcome outcome' cs, fits outcome cs → after outcome' cs) :
    Starts (step >>= next) host after := by
  refine h.bind (fun e cs ↦ hafter _ _ cs) fun a cs hcs ↦ (hnext a).imp ?_
  rintro outcome _ rfl
  rw [List.append_nil]
  exact hafter _ _ cs hcs

end Starts

namespace Quiet

theorem of_yields {outcome : Except ε α} (h : Yields step host outcome tr)
    (htr : tr.commands = []) : Quiet step host :=
  Starts.of_yields h htr

theorem pure (a : α) : Quiet (Pure.pure a : Action ε α) host :=
  of_yields (.pure a) rfl

theorem print (line : Text) : Quiet (Session.print line : Action ε Unit) host :=
  of_yields (.print line) rfl

theorem printError (line : Text) : Quiet (Session.printError line : Action ε Unit) host :=
  of_yields (.printError line) rfl

theorem bind (h : Quiet step host) (hnext : ∀ a, Quiet (next a) host) :
    Quiet (step >>= next) host :=
  Starts.bind_quiet h hnext fun _ _ _ hcs ↦ hcs

theorem forM {α : Type} {step : α → Action ε Unit} (h : ∀ x, Quiet (step x) host) (xs : List α) :
    Quiet (xs.forM step) host := by
  induction xs with
  | nil => exact .pure ()
  | cons x xs ih => exact (h x).bind fun _ ↦ ih

theorem commands_eq (h : Quiet step host) (s : Session) :
    (step host s).2.commands = s.commands := by
  obtain ⟨_, hcs, rfl⟩ := h s
  rw [hcs, List.append_nil]

end Quiet

namespace Starts

theorem require_bind {x : Except ε α} (herror : ∀ e, x = .error e → after (.error e) [])
    (hnext : ∀ a, x = .ok a → Starts (next a) host after) :
    Starts (require x >>= next) host after := by
  cases x with
  | error e => exact .of_yields (Yields.require _).bind_error (herror e rfl)
  | ok a =>
    have hrequire : Starts (require (.ok a) : Action ε α) host fun outcome cs ↦
        outcome = .ok a ∧ cs = [] := .of_yields (.require _) ⟨rfl, rfl⟩
    refine hrequire.bind nofun ?_
    rintro _ _ ⟨⟨⟩, rfl⟩
    exact hnext a rfl

end Starts

/-! ### Providers -/

/-- The version of an executable is asked for once, and the answer decides about every version. -/
theorem starts_executableVersion (path : Path) :
    Starts (executableVersion path) host fun outcome cs ↦
      cs = [versionCheck path] ∧
        ((∃ fault, outcome = .error fault) ∧ Breaks host path ∨
          ∃ reported, outcome = .ok reported ∧ ¬ Breaks host path ∧
            ∀ version, reported = some version ↔ Confirms host path version) := by
  have hrun : Starts (Session.run (versionCheck path) : Action ProcessFault _) host
      fun outcome cs ↦ outcome = .ok (host.run (versionCheck path)) ∧ cs = [versionCheck path] :=
    .of_yields (.run _) ⟨rfl, rfl⟩
  refine hrun.bind nofun ?_
  rintro result _ ⟨hresult, rfl⟩
  have hresult : host.run (versionCheck path) = result := (Except.ok.inj hresult).symm
  cases result with
  | failed fault =>
    have hconfirms : ∀ version, ¬ Confirms host path version := by
      rintro version ⟨output, errors, hexited, -⟩
      cases hresult.symm.trans hexited
    by_cases hfault : (fault.isSystem || fault.kind = .timeout) = true
    · simp only [hfault, if_true]
      refine .of_yields (.pure _) ⟨rfl, .inr ⟨none, rfl, ?_, fun version ↦ ?_⟩⟩
      · rintro ⟨fault', hfailed, hfault'⟩
        cases hresult.symm.trans hfailed
        rw [hfault] at hfault'
        cases hfault'
      · simp [hconfirms version]
    · simp only [hfault]
      exact .of_yields (.throw _) ⟨rfl, .inl ⟨⟨fault, rfl⟩, fault, hresult, by simpa using hfault⟩⟩
  | exited status output errors =>
    refine .of_yields (.pure _) ⟨rfl, .inr ⟨_, rfl, ?_, fun version ↦ ?_⟩⟩
    · rintro ⟨fault, hfailed, -⟩
      cases hresult.symm.trans hfailed
    · simp only [Confirms, hresult, ProcessResult.exited.injEq]
      by_cases hstatus : status = 0
      · simp [hstatus, reportedVersion?_eq_some_iff]
      · simp [hstatus]

theorem Provides.of_ne {outcome : Except ProcessFault (Option Toolchain)} {checks : List Command}
    (h : Searched host version paths checks none)
    (houtcome : ∀ toolchain, outcome ≠ .ok (some toolchain)) :
    Provides host version paths outcome checks :=
  ⟨none, h, fun toolchain ↦ ⟨fun heq ↦ absurd heq (houtcome toolchain), nofun⟩⟩

/-- An executable is provided if it confirms the version, and otherwise the search goes on. -/
theorem starts_of_executableVersion {other : Action ProcessFault (Option Toolchain)}
    (path : Path) (hother : Starts other host (Provides host version paths)) :
    Starts (do
      if (← executableVersion path) = some version then
        return some { version := version, path := some path }
      else other) host (Provides host version (path :: paths)) := by
  refine (starts_executableVersion path).bind ?_ ?_
  · rintro e _ ⟨rfl, ⟨-, hbreaks⟩ | ⟨_, ⟨⟩, -⟩⟩
    exact .of_ne (.broken hbreaks) nofun
  rintro reported _ ⟨rfl, ⟨⟨_, ⟨⟩⟩, -⟩ | ⟨_, ⟨⟩, hbreaks, hreported⟩⟩
  by_cases hversion : reported = some version
  · simp only [hversion, if_true]
    refine .of_yields (.pure _) ⟨some path, .found ((hreported version).mp hversion), ?_⟩
    simp [Toolchain.ofPath, eq_comm]
  · simp only [hversion, if_false]
    have hconfirms : ¬ Confirms host path version := mt (hreported version).mpr hversion
    exact hother.imp fun _ _ ⟨found, hsearched, hprovided⟩ ↦
      ⟨found, .passed hconfirms hbreaks hsearched, hprovided⟩

/-- The executables of some names are searched in their order. -/
theorem starts_findAmong (version : Text) (names : List Text) :
    Starts (findAmong version names) host
      (Provides host version ((names.filterMap host.find).map Path.ofText)) := by
  induction names with
  | nil => exact .of_yields (.pure _) (.of_ne .exhausted nofun)
  | cons name names ih =>
    have hfind : Starts (find name : Action ProcessFault _) host fun outcome cs ↦
        outcome = .ok (host.find name) ∧ cs = [] := .of_yields (.find name) ⟨rfl, rfl⟩
    refine hfind.bind nofun ?_
    rintro _ _ ⟨⟨⟩, rfl⟩
    cases hfound : host.find name with
    | none =>
      rw [List.filterMap_cons_none hfound]
      exact ih
    | some found =>
      rw [List.filterMap_cons_some hfound]
      exact starts_of_executableVersion (Path.ofText found) ih

/-- A given compiler is the only one that is searched. -/
theorem starts_fixedCompiler (version : Text) (path : Path) :
    Starts (fixedCompiler path version) host (Provides host version [path]) :=
  starts_of_executableVersion path (.of_yields (.pure none) (.of_ne .exhausted nofun))

/-! ### Compiling one source -/

/-- The executable that is found is the backend, and without one there is none. -/
theorem starts_selectBackend {provider : Provider}
    (h : Starts (provider version) host (Provides host version paths)) :
    Starts (selectBackend version provider) host fun outcome cs ↦
      ∃ found, Searched host version paths cs found ∧
        ∀ backend, outcome = .ok backend ↔
          ∃ path, found = some path ∧ backend = .native path defaultTimeout := by
  refine h.attempt.bind nofun ?_
  rintro outcome cs ⟨_, ⟨⟩, found, hsearched, hprovided⟩
  have hcs : Searched host version paths (cs ++ Trace.commands {}) found :=
    (List.append_nil cs).symm ▸ hsearched
  cases found with
  | some path =>
    obtain rfl := (hprovided (.ofPath version path)).mpr ⟨path, rfl, rfl⟩
    refine .of_yields (.pure _) ⟨some path, hcs, fun backend ↦ ?_⟩
    simp [eq_comm]
  | none =>
    -- Whatever the search has ended with, no backend is selected and nothing more is started.
    have hthrow : ∀ e : Failure, Starts (throw e : Action Failure Backend) host fun outcome cs' ↦
        ∃ found, Searched host version paths (cs ++ cs') found ∧
          ∀ backend, outcome = .ok backend ↔
            ∃ path, found = some path ∧ backend = .native path defaultTimeout := fun e ↦
      .of_yields (.throw e) ⟨none, hcs, fun backend ↦ ⟨nofun, nofun⟩⟩
    match outcome with
    | .error fault =>
      by_cases hfault : (fault.isSystem || fault.isSubprocess) = true
      · simp only [hfault, if_true]
        exact hthrow _
      · simp only [hfault]
        exact hthrow _
    | .ok none => exact hthrow _
    | .ok (some toolchain) =>
      obtain ⟨_, ⟨⟩, -⟩ := (hprovided toolchain).mp rfl

theorem quiet_printDiagnostics (sourceName : Text) (ds : List Diagnostic) :
    Quiet (printDiagnostics sourceName ds : Action ε Unit) host := by
  induction ds with
  | nil => exact .pure ()
  | cons d ds ih =>
    refine Quiet.bind (.of_yields .read rfl) fun host ↦ ?_
    by_cases hd : d.isWarning = true
    · simp only [hd, if_true]
      exact (Quiet.print _).bind fun _ ↦ ih
    · simp only [hd]
      exact (Quiet.printError _).bind fun _ ↦ ih

theorem IsCode.exists_lowerSource {dialect : Dialect} {s code : Text} (h : IsCode dialect s code) :
    ∃ interface, lowerSource dialect s = .ok (code, interface) := by
  cases h with
  | yul => exact ⟨none, rfl⟩
  | @yulPlus _ lowered hlower =>
    refine ⟨some lowered.interface, ?_⟩
    rw [lowerSource, hlower]

theorem isCode_of_lowerSource {dialect : Dialect} {s code : Text} {interface : Option Interface}
    (h : lowerSource dialect s = .ok (code, interface)) : IsCode dialect s code := by
  unfold lowerSource at h
  split at h
  · cases h
    exact .yul
  · split at h
    · next hlower =>
      cases h
      exact .yulPlus hlower
    · cases h
    · cases h

/-- **The processes of one source.** -/
theorem starts_compileRead {provider : Provider} {settings : BuildSettings}
    (h : Starts (provider settings.version) host (Provides host settings.version paths))
    (read : Except BuildError Text) (source : SourceFile) :
    Starts (compileRead read source settings provider) host fun _ cs ↦
      Tried host settings paths (fun code ↦ ∃ s, read = .ok s ∧ IsCode source.dialect s code)
        cs := by
  refine .require_bind (fun e hread ↦ .nothing ?_) fun s hread ↦
    .require_bind (fun e hlower ↦ .nothing ?_) fun ⟨code, interface⟩ hlower ↦ ?_
  · rintro code ⟨s, rfl, -⟩
    cases hread
  · rintro code ⟨s', rfl, hcode⟩
    obtain rfl := Except.ok.inj (mapError_eq_ok_iff.mp hread)
    obtain ⟨interface, hlower'⟩ := hcode.exists_lowerSource
    cases hlower.symm.trans hlower'
  have hcode : ∃ s, read = .ok s ∧ IsCode source.dialect s code :=
    ⟨s, mapError_eq_ok_iff.mp hread, isCode_of_lowerSource hlower⟩
  refine (starts_selectBackend h).bind ?_ ?_
  · rintro e cs ⟨_ | path, hsearched, hbackend⟩
    · exact .unconfirmed hcode hsearched
    · cases (hbackend _).mpr ⟨path, rfl, rfl⟩
  · rintro backend cs ⟨found, hsearched, hbackend⟩
    obtain ⟨path, rfl, rfl⟩ := (hbackend backend).mp rfl
    have hcompile : Starts
        ((Backend.native path defaultTimeout).compile (.ofSource code settings)) host
        fun _ cs ↦ cs = [Backend.process path defaultTimeout (.ofSource code settings)] :=
      .of_yields yields_compile_native rfl
    refine hcompile.bind_quiet (fun output ↦ ?_) ?_
    · exact (quiet_printDiagnostics _ _).bind fun _ ↦ .of_yields (.require _) rfl
    · rintro _ _ _ rfl
      exact .confirmed hcode hsearched

end

end YulPlus
