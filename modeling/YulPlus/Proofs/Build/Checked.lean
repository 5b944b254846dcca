import YulPlus.Proofs.Build.Commands

/-!
# Every compilation is checked

A run of the program is a series of visits (`Setup.Tours`). Each visit finds the files of the
project as the visits before it have left them, since artifacts are written on the way. The
processes that it starts are those of the source that it finds (`Setup.exists_tried`): none if the
source has no code, otherwise those of the search for an executable and one that compiles, if the
search finds any. Nothing else in a run starts a process (`Setup.Accounts`).

Therefore no source is compiled by an executable of another version: every process that compiles
stands right behind one in which the same executable has confirmed the configured version
(`AllChecked`). -/

namespace YulPlus

open Text Session CommandLine

/-- Does the process compile a source? -/
def Command.compiles (c : Command) : Bool :=
  c.argument = "--standard-json".toList

/-- Every process that compiles is started right behind a check in which its executable confirms
the version. -/
def AllChecked (host : Host) (version : Text) (cs : List Command) : Prop :=
  ∀ front c back, cs = front ++ c :: back → c.compiles →
    ∃ before, front = before ++ [versionCheck c.path] ∧ Confirms host c.path version

/-- Something is done for each member of a list, one after the other, until it fails for one of
them. Each adds something to a log. -/
inductive InTurn {α β γ ε : Type}
    (one : β → α → Session → List γ → Except ε β → Session → Prop) :
    List α → β → Session → List γ → Except ε β → Session → Prop
  | done {b : β} {s : Session} : InTurn one [] b s [] (.ok b) s
  | next {a : α} {as : List α} {b b₁ : β} {s s₁ s' : Session} {log more : List γ}
      {outcome : Except ε β} (hone : one b a s log (.ok b₁) s₁)
      (hrest : InTurn one as b₁ s₁ more outcome s') :
      InTurn one (a :: as) b s (log ++ more) outcome s'
  | stopped {a : α} {as : List α} {b : β} {s s' : Session} {log : List γ} {e : ε}
      (hone : one b a s log (.error e) s') : InTurn one (a :: as) b s log (.error e) s'

/-- A visit of a file: the files of the project at its beginning and the processes that it
starts. -/
structure Pass where
  visit : Visit
  tree : FileTree
  commands : List Command

namespace Setup

/-- A visited file is a source with this code. -/
inductive HasCode (b : Setup) (t : FileTree) (v : Visit) : Text → Prop
  | intro {source : SourceFile} {s code : Text} (hlocated : b.located t v = .ok source)
      (hread : readSource t source = .ok s) (hcode : IsCode source.dialect s code) :
      HasCode b t v code

/-- A build visits a file. -/
def Passes (b : Setup) (sink : Sink) (dialect : Dialect) (report : BuildReport) (l : Location)
    (s : Session) (passes : List Pass) (outcome : Except Interruption BuildReport) (s' : Session) :
    Prop :=
  compileLocation b.root b.settings sink b.provider dialect report l b.host s = (outcome, s') ∧
    ∃ cs, s'.commands = s.commands ++ cs ∧ passes = [⟨(dialect, l), s.tree, cs⟩]

/-- A build visits its files, dialect by dialect. The files of a dialect are looked for when the
dialects before it are done. -/
def Tours (b : Setup) (sink : Sink) (dialects : List Dialect) (s : Session) (passes : List Pass)
    (outcome : Except Interruption BuildReport) (s' : Session) : Prop :=
  InTurn (fun report d s ↦ InTurn (b.Passes sink d) (s.tree.findSources b.sources d) report s)
    dialects {} s passes outcome s'

/-- All processes between two sessions are those of some visits, and each visit starts the processes
of its source, for which these executables are searched. -/
structure Accounts (b : Setup) (paths : List Path) (s : Session) (passes : List Pass)
    (s' : Session) : Prop where
  commands : s'.commands = s.commands ++ passes.flatMap (·.commands)
  tried : ∀ p ∈ passes, Tried b.host b.settings paths (b.HasCode p.tree p.visit) p.commands

end Setup

/-- The executables that are searched for a configured project: the given one, or those that are
found by the version and by the plain name. -/
def ProjectConfig.executables (config : ProjectConfig) (host : Host) (t : FileTree)
    (directory : Path) : List Path :=
  match config.solcPath with
  | some s => [Path.ofLocation (t.resolve (directory.joinText s))]
  | none =>
    (["solc-".toList ++ config.version, "solc".toList].filterMap host.find).map Path.ofText

section

variable {α β γ ε : Type} {host : Host} {path : Path} {version : Text} {paths : List Path}
  {settings : BuildSettings} {HasCode : Text → Prop} {checks cs cs' : List Command}
  {found : Option Path}
  {step : β → α → Action ε β} {one : β → α → Session → List γ → Except ε β → Session → Prop}
  {as : List α} {b : β} {s s₁ s' : Session} {log : List γ} {outcome : Except ε β}

/-! ### Checked processes -/

namespace Searched

/-- A search starts nothing but checks of what is searched. -/
theorem exists_of_mem (h : Searched host version paths checks found) {c : Command}
    (hc : c ∈ checks) : ∃ path ∈ paths, c = versionCheck path := by
  induction h with
  | exhausted => cases hc
  | found _ | broken _ => exact ⟨_, List.mem_cons_self, List.mem_singleton.mp hc⟩
  | passed _ _ _ ih =>
    rcases List.mem_cons.mp hc with rfl | hc
    · exact ⟨_, List.mem_cons_self, rfl⟩
    · obtain ⟨path, hpath, rfl⟩ := ih hc
      exact ⟨path, List.mem_cons_of_mem _ hpath, rfl⟩

theorem not_compiles (h : Searched host version paths checks found) {c : Command}
    (hc : c ∈ checks) : ¬ c.compiles := by
  obtain ⟨path, -, rfl⟩ := h.exists_of_mem hc
  exact nofun

/-- The last check of a search is the one that confirms the version. -/
theorem exists_before (h : Searched host version paths checks (some path)) :
    Confirms host path version ∧ ∃ before, checks = before ++ [versionCheck path] := by
  generalize hfound : some path = found at h
  induction h with
  | exhausted | broken _ => cases hfound
  | found hconfirms =>
    cases hfound
    exact ⟨hconfirms, [], rfl⟩
  | passed _ _ _ ih =>
    obtain ⟨hconfirms, before, rfl⟩ := ih hfound
    exact ⟨hconfirms, _ :: before, rfl⟩

end Searched

namespace AllChecked

theorem of_not_compiles (h : ∀ c ∈ cs, ¬ c.compiles) : AllChecked host version cs := by
  rintro front c back rfl hc
  exact absurd hc (h c (by simp))

/-- One more process that compiles, right behind its check. -/
theorem concat (h : AllChecked host version cs) {c : Command}
    (hconfirms : Confirms host c.path version)
    (hcs : ∃ before, cs = before ++ [versionCheck c.path]) :
    AllChecked host version (cs ++ [c]) := by
  intro front d back hsplit hd
  rcases List.eq_nil_or_concat back with rfl | ⟨back, last, rfl⟩
  · obtain ⟨rfl, ⟨⟩⟩ := List.append_inj' hsplit rfl
    obtain ⟨before, rfl⟩ := hcs
    exact ⟨before, rfl, hconfirms⟩
  · rw [List.concat_eq_append, ← List.cons_append, ← List.append_assoc] at hsplit
    exact h front d back (List.append_inj' hsplit rfl).1 hd

theorem append (h : AllChecked host version cs) (h' : AllChecked host version cs') :
    AllChecked host version (cs ++ cs') := by
  intro front c back hsplit hc
  obtain ⟨more, rfl, hmore⟩ | ⟨more, rfl, hmore⟩ := List.append_eq_append_iff.mp hsplit
  · obtain ⟨before, rfl, hconfirms⟩ := h' more c back hmore hc
    exact ⟨cs ++ before, by rw [List.append_assoc], hconfirms⟩
  cases more with
  | nil =>
    -- Nothing stands in front of the first process of the second list.
    obtain ⟨before, hbefore, -⟩ := h' [] c back hmore.symm hc
    simp at hbefore
  | cons d more =>
    obtain ⟨rfl, -⟩ := List.cons.inj hmore
    exact h front c more rfl hc

theorem flatMap {f : α → List Command} {xs : List α}
    (h : ∀ x ∈ xs, AllChecked host version (f x)) : AllChecked host version (xs.flatMap f) := by
  induction xs with
  | nil => exact .of_not_compiles nofun
  | cons x xs ih =>
    rw [List.flatMap_cons]
    exact (h x (by simp)).append (ih fun y hy ↦ h y (by simp [hy]))

end AllChecked

namespace Tried

theorem checked (h : Tried host settings paths HasCode cs) :
    AllChecked host settings.version cs := by
  cases h with
  | nothing _ => exact .of_not_compiles nofun
  | unconfirmed _ hsearched => exact .of_not_compiles fun c ↦ hsearched.not_compiles
  | confirmed _ hsearched =>
    obtain ⟨hconfirms, hbefore⟩ := hsearched.exists_before
    exact AllChecked.concat (.of_not_compiles fun c ↦ hsearched.not_compiles) hconfirms hbefore

theorem length_filter_compiles_le (h : Tried host settings paths HasCode cs) :
    (cs.filter Command.compiles).length ≤ 1 := by
  cases h with
  | nothing _ => exact Nat.zero_le 1
  | unconfirmed _ hsearched =>
    rw [List.filter_eq_nil_iff.mpr fun c ↦ hsearched.not_compiles]
    exact Nat.zero_le 1
  | confirmed _ hsearched =>
    rw [List.filter_append, List.filter_eq_nil_iff.mpr fun c ↦ hsearched.not_compiles,
      List.nil_append]
    exact List.length_filter_le _ _

end Tried

/-! ### Doing something for each member of a list -/

/-- A fold over a list does something for each member, and logs it. -/
theorem exists_inTurn
    (h : ∀ b a s, ∃ log, one b a s log (step b a host s).1 (step b a host s).2) (as : List α)
    (b : β) (s : Session) :
    ∃ log, InTurn one as b s log (as.foldlM step b host s).1 (as.foldlM step b host s).2 := by
  induction as generalizing b s with
  | nil => exact ⟨[], .done⟩
  | cons a as ih =>
    obtain ⟨log, hone⟩ := h b a s
    rw [List.foldlM_cons, bind_action_eq]
    rcases hstep : step b a host s with ⟨e | b₁, s₁⟩ <;> rw [hstep] at hone
    · exact ⟨log, .stopped hone⟩
    · obtain ⟨more, hrest⟩ := ih b₁ s₁
      exact ⟨log ++ more, .next hone hrest⟩

end

namespace Setup

variable {α β ε : Type} {b : Setup} {sink : Sink} {paths : List Path} {s s₁ s' : Session}
  {passes more : List Pass}

/-! ### Visits and their processes -/

namespace Accounts

theorem refl (b : Setup) (paths : List Path) (s : Session) : b.Accounts paths s [] s :=
  ⟨(List.append_nil _).symm, nofun⟩

theorem trans (h : b.Accounts paths s passes s₁) (h' : b.Accounts paths s₁ more s') :
    b.Accounts paths s (passes ++ more) s' where
  commands := by rw [h'.commands, h.commands, List.flatMap_append, List.append_assoc]
  tried p hp := (List.mem_append.mp hp).elim (h.tried p) (h'.tried p)

/-- What each member of a list accounts for, all of them account for. -/
theorem of_inTurn {one : β → α → Session → List Pass → Except ε β → Session → Prop} {as : List α}
    {x : β} {outcome : Except ε β}
    (hone : ∀ x a s passes outcome s', one x a s passes outcome s' →
      b.Accounts paths s passes s')
    (h : InTurn one as x s passes outcome s') : b.Accounts paths s passes s' := by
  induction h with
  | done => exact .refl b paths _
  | next h _ ih => exact (hone _ _ _ _ _ _ h).trans ih
  | stopped h => exact hone _ _ _ _ _ _ h

end Accounts

theorem quiet_skipSource (report : BuildReport) (source : SourceFile) (error : BuildError)
    (host : Host) : Quiet (skipSource report source error) host :=
  Quiet.bind (Quiet.bind (.of_yields .read rfl) fun _ ↦ .printError _) fun _ ↦ .pure _

section

variable (hsink : ∀ a, Quiet (sink a) b.host)
  (hprovider : Starts (b.provider b.settings.version) b.host
    (Provides b.host b.settings.version paths))

include hsink hprovider

/-- **The processes of a visit** are those of the source that it finds. -/
theorem exists_tried (report : BuildReport) (v : Visit) (s : Session) :
    ∃ cs, (compileLocation b.root b.settings sink b.provider v.1 report v.2 b.host s).2.commands =
        s.commands ++ cs ∧ Tried b.host b.settings paths (b.HasCode s.tree v) cs := by
  simp only [compileLocation, bind_action_eq, get_action_eq]
  cases hlocated : SourceFile.ofPath s.tree b.root (Path.ofLocation v.2) v.1 with
  | error e =>
    refine ⟨[], ?_, .nothing ?_⟩
    · rw [List.append_nil]
      exact (quiet_skipSource _ _ _ _).commands_eq s
    · rintro code ⟨hlocated', -, -⟩
      cases hlocated.symm.trans hlocated'
  | ok source =>
    have hprint : (print ("Compiling ".toList ++ source.sourceName ++ "...".toList) :
        Action Interruption Unit) b.host s = (.ok (), s.extend (announcement source)) :=
      Yields.print _ s
    have hcode : (fun code ↦ ∃ text, readSource s.tree source = .ok text ∧
        IsCode source.dialect text code) = b.HasCode s.tree v := by
      funext code
      refine propext ⟨?_, ?_⟩
      · rintro ⟨text, hread, hcode⟩
        exact .intro hlocated hread hcode
      · rintro ⟨hlocated', hread, hcode⟩
        cases hlocated.symm.trans hlocated'
        exact ⟨_, hread, hcode⟩
    simp only [bind_action_eq, hprint, attempt_action_eq, compileSource_eq, tree_extend]
    obtain ⟨cs, hcs, htried⟩ := starts_compileRead hprovider (readSource s.tree source) source
      (s.extend (announcement source))
    refine ⟨cs, ?_, hcode ▸ htried⟩
    rw [commands_extend, show (announcement source).commands = [] from rfl, List.append_nil] at hcs
    rw [← hcs]
    rcases compileRead _ _ _ _ _ _ with ⟨⟨e | cause⟩ | a, s₁⟩
    · exact (quiet_skipSource _ _ _ _).commands_eq s₁
    · rfl
    · exact ((hsink a).bind fun _ ↦ .pure _).commands_eq s₁

theorem Passes.accounts {dialect : Dialect} {report : BuildReport} {l : Location}
    {outcome : Except Interruption BuildReport}
    (h : b.Passes sink dialect report l s passes outcome s') :
    b.Accounts paths s passes s' := by
  obtain ⟨hvisit, cs, hcs, rfl⟩ := h
  obtain ⟨cs', hcs', htried⟩ := exists_tried hsink hprovider report (dialect, l) s
  rw [hvisit] at hcs'
  obtain rfl := List.append_cancel_left (hcs.symm.trans hcs')
  exact ⟨by simpa using hcs, by simpa using htried⟩

/-- A build is a series of visits, and they account for its processes. -/
theorem exists_tours (dialects : List Dialect) (s : Session) :
    ∃ passes, b.Tours sink dialects s passes (b.build sink dialects s).1
        (b.build sink dialects s).2 ∧
      b.Accounts paths s passes (b.build sink dialects s).2 := by
  have hpasses : ∀ d report l s, ∃ passes,
      let result := compileLocation b.root b.settings sink b.provider d report l b.host s
      b.Passes sink d report l s passes result.1 result.2 := fun d report l s ↦ by
    obtain ⟨cs, hcs, -⟩ := exists_tried hsink hprovider report (d, l) s
    exact ⟨_, rfl, cs, hcs, rfl⟩
  obtain ⟨passes, htours⟩ : ∃ passes, b.Tours sink dialects s passes (b.build sink dialects s).1
      (b.build sink dialects s).2 := by
    refine exists_inTurn (fun report d s ↦ ?_) _ _ _
    simp only [compileDialect, bind_action_eq, get_action_eq]
    exact exists_inTurn (hpasses d) _ report s
  refine ⟨passes, htours, ?_⟩
  exact .of_inTurn (fun _ _ _ _ _ _ hdialect ↦ .of_inTurn
    (fun _ _ _ _ _ _ hvisit ↦ hvisit.accounts hsink hprovider) hdialect) htours

end

end Setup

/-! ### A run of the program -/

variable {host : Host} {directory : Path} {config : ProjectConfig} {s : Session}

theorem quiet_directorySink (directory : Path) (a : Artifact) (host : Host) :
    Quiet (directorySink directory a) host := by
  intro s
  refine ⟨[], ?_, rfl⟩
  rw [directorySink_eq]
  rcases (ArtifactStore.mk directory []).record s.tree a with ⟨_, t, _ | e⟩
  · simp [Session.commands, Trace.commands, Session.trace, Event.command?]
  · simp [Session.commands, Trace.commands, Session.trace]

/-- The provider of a configured project searches its executables. -/
theorem starts_provider_ofConfig (host : Host) (t : FileTree) (directory : Path)
    (config : ProjectConfig) :
    Starts ((Setup.ofConfig host t directory config).provider config.version) host
      (Provides host config.version (config.executables host t directory)) := by
  unfold Setup.ofConfig ProjectConfig.executables
  cases config.solcPath with
  | none => exact starts_findAmong config.version _
  | some path => exact starts_fixedCompiler config.version _

theorem quiet_printReport (report : BuildReport) (host : Host) :
    Quiet (printReport report) host := by
  refine Quiet.bind (.of_yields .read rfl) fun host ↦ ?_
  by_cases hempty : (report.artifacts.isEmpty && report.failures.isEmpty) = true
  · simp only [hempty, if_true]
    exact (Quiet.print _).bind fun _ ↦ .pure _
  simp only [hempty, Bool.false_eq_true, if_false]
  refine (Quiet.print _).bind fun _ ↦ ?_
  by_cases hfailures : report.failures.isEmpty = true
  · simp only [hfailures, if_true]
    exact .pure _
  · simp only [hfailures, Bool.false_eq_true, if_false]
    exact (Quiet.printError _).bind fun _ ↦
      (Quiet.forM (fun _ ↦ .printError _) _).bind fun _ ↦ .pure _

theorem quiet_refuse (message : Text) (host : Host) : Quiet (refuse message) host :=
  (Quiet.printError _).bind fun _ ↦ .pure _

/-- Without a configuration nothing is started. -/
theorem commands_runCompile_of_not_loads (h : ∀ config, ¬ Loads s.tree directory config) :
    (runCompile directory host s).2.commands = s.commands := by
  by_cases hdirectory : s.tree.contains directory = true
  · by_cases hfile : s.tree.contains (directory.joinText ProjectConfig.fileName) = true
    · simp only [runCompile, bind_action_eq, get_action_eq, hdirectory, hfile, Bool.not_true,
        Bool.false_eq_true, if_false]
      rcases hload : ProjectConfig.load s.tree (directory.joinText ProjectConfig.fileName) with
        (fault | fault | fault) | config
      · exact (quiet_refuse _ host).commands_eq s
      · rfl
      · rfl
      · exact absurd ⟨hdirectory, hfile, hload⟩ (h config)
    · simp only [runCompile, bind_action_eq, get_action_eq, hdirectory, hfile, Bool.not_true,
        Bool.false_eq_true, if_false, Bool.not_false, if_true]
      exact (quiet_refuse _ host).commands_eq s
  · simp only [runCompile, bind_action_eq, get_action_eq, hdirectory, Bool.not_false, if_true]
    exact (quiet_refuse _ host).commands_eq s

/-- All processes of a run are those of its build. -/
theorem commands_runConfigured (directory : Path) (config : ProjectConfig) (host : Host)
    (s : Session) : (runConfigured directory config host s).2.commands =
      ((Setup.ofConfig host s.tree directory config).build
        (directorySink (directory.joinText config.artifacts)) Dialect.all s).2.commands := by
  simp only [runConfigured, bind_action_eq, configuredProvider_eq, Setup.build, Setup.ofConfig]
  rcases compileProject _ _ _ _ _ _ _ _ with ⟨cause | report, s₁⟩
  · rfl
  · exact (quiet_printReport report host).commands_eq s₁

/-- **No source is compiled by another version.** A run that loads no configuration starts nothing.
Otherwise every process that compiles is checked, and the processes are those of the visited files,
each of which is compiled once at most. -/
theorem CommandLine.Task.run_compile_checked (host : Host) (current : Path) (text : Text)
    (t : FileTree) :
    let directory := Path.ofLocation (t.resolve (current.joinText text))
    let s' := ((Task.compile text).run current host { tree := t }).2
    (s'.commands = [] ∧ ∀ config, ¬ Loads t directory config) ∨
      ∃ config, Loads t directory config ∧ AllChecked host config.version s'.commands ∧
        ∃ passes outcome s₁,
          (Setup.ofConfig host t directory config).Tours
              (directorySink (directory.joinText config.artifacts)) Dialect.all { tree := t }
              passes outcome s₁ ∧
            (Setup.ofConfig host t directory config).Accounts
              (config.executables host t directory) { tree := t } passes s' ∧
            ∀ p ∈ passes, (p.commands.filter Command.compiles).length ≤ 1 := by
  intro directory s'
  have hrun : s' = (runCompile directory host { tree := t }).2 := rfl
  by_cases h : ∃ config, Loads t directory config
  · obtain ⟨config, hloads⟩ := h
    obtain ⟨passes, htours, haccounts⟩ := Setup.exists_tours
      (b := Setup.ofConfig host t directory config)
      (fun a ↦ quiet_directorySink (directory.joinText config.artifacts) a host)
      (starts_provider_ofConfig host t directory config) Dialect.all { tree := t }
    have hcommands := commands_runConfigured directory config host { tree := t }
    rw [← hloads.runCompile_eq (s := { tree := t }), ← hrun] at hcommands
    refine .inr ⟨config, hloads, ?_, passes, _, _, htours,
      ⟨hcommands.trans haccounts.commands, haccounts.tried⟩,
      fun p hp ↦ (haccounts.tried p hp).length_filter_compiles_le⟩
    rw [hcommands.trans haccounts.commands]
    exact AllChecked.flatMap fun p hp ↦ (haccounts.tried p hp).checked
  · have hnone := not_exists.mp h
    exact .inl ⟨hrun ▸ commands_runCompile_of_not_loads (s := { tree := t }) hnone, hnone⟩

end YulPlus
