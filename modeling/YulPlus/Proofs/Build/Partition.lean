import Mathlib
import YulPlus.CommandLine.Run
import YulPlus.Proofs.Artifact.Codes
import YulPlus.Proofs.Build.Visited
import YulPlus.Proofs.Outcome

/-!
# A build partitions its files

If every source is compiled or fails by itself, and the sink takes whatever it is given, then a run
comes to its end (`Runs.eq_ok`), and each visited file has exactly one entry in the report: an
artifact or a failure that names it (`Setup.Gives`). Which of the two it is, and what it says, is
decided by the file alone.

The program exits with zero exactly if no file failed. -/

namespace YulPlus

open Text Session CommandLine

/-! ### The entry of one file -/

/-- The entry that a visited file has in the report, as it follows from locating the file and
compiling its source: an artifact of this name, or a failure of this source. -/
inductive Setup.Gives (b : Setup) (t : FileTree) (v : Visit) : SourceOutcome → Prop
  | artifact {source : SourceFile} {a : Artifact} (hlocated : b.located t v = .ok source)
      (hcompiled : (b.compiled t source).1 = .ok a) (hsource : a.sourceName = source.sourceName)
      (hcontract : a.contractName = source.contractName) : Gives b t v (.ok a)
  | failure {source : SourceFile} {e : BuildError} (hlocated : b.located t v = .ok source)
      (hcompiled : (b.compiled t source).1 = .error (.skipped e)) :
      Gives b t v (.error ⟨source, e⟩)
  | outside {e : OutsideRoot} (hlocated : b.located t v = .error e) :
      Gives b t v (.error ⟨⟨v.2, (Path.ofLocation v.2).text, v.1⟩, .outside e⟩)

section

variable {b : Setup} {sink : Sink} {dialects : List Dialect} {t : FileTree} {v : Visit}
  {vs : List Visit} {s s' : Session} {outcomes : List SourceOutcome}
  {ending : Except Interruption Unit} {invariant : FileTree → Prop} {host : Host} {a : Artifact}

theorem synthesize_names {sourceName : Text} {output : CompilerOutput}
    {interface : Option Interface} (h : synthesize sourceName output interface = .ok a) :
    a.sourceName = sourceName ∧ a.contractName = contractName sourceName := by
  obtain ⟨_, _, -, hartifact⟩ := synthesize_eq_ok_iff.mp h
  obtain ⟨-, -, rfl⟩ := artifactOf_eq_valid_iff.mp hartifact
  exact ⟨rfl, rfl⟩

/-- An artifact is named by its source. -/
theorem compileSource_names {source : SourceFile} {settings : BuildSettings}
    {provider : Provider}
    (h : compileSource source settings provider host s = (.ok a, s')) :
    a.sourceName = source.sourceName ∧ a.contractName = source.contractName := by
  obtain ⟨_, _, -, h⟩ := exists_of_bind_eq_ok h
  obtain ⟨_, _, -, h⟩ := exists_of_bind_eq_ok h
  obtain ⟨_, _, -, h⟩ := exists_of_bind_eq_ok h
  obtain ⟨_, _, -, h⟩ := exists_of_bind_eq_ok h
  obtain ⟨_, _, -, h⟩ := exists_of_bind_eq_ok h
  obtain ⟨_, _, -, h⟩ := exists_of_bind_eq_ok h
  generalize hsynthesize : Except.mapError _ (synthesize _ _ _) = outcome at h
  cases outcome with
  | error e => cases h
  | ok a' =>
    cases h
    exact synthesize_names (mapError_eq_ok_iff.mp hsynthesize)

namespace Setup

theorem gives_of_alone_eq {outcome : SourceOutcome} {tr : Trace}
    (h : b.alone t v = (.ok outcome, tr)) : b.Gives t v outcome := by
  unfold alone at h
  match hlocated : b.located t v with
  | .error e =>
    simp only [hlocated] at h
    cases h
    exact .outside hlocated
  | .ok source =>
    simp only [hlocated] at h
    match hcompiled : b.compiled t source with
    | (.error (.interrupted cause), tr) =>
      simp only [hcompiled] at h
      cases h
    | (.error (.skipped e), tr) =>
      simp only [hcompiled] at h
      cases h
      exact .failure hlocated (by rw [hcompiled])
    | (.ok a, tr) =>
      simp only [hcompiled] at h
      cases h
      have hok : (b.compiled t source).1 = .ok a := by rw [hcompiled]
      have hnames := compileSource_names (Prod.ext hok rfl)
      exact .artifact hlocated hok hnames.1 hnames.2

/-- In a run that comes to its end, each file has its entry, in the order of the visits. -/
theorem Runs.forall₂_gives (h : b.Runs sink t vs s outcomes (.ok ()) s') :
    List.Forall₂ (b.Gives t) vs outcomes := by
  generalize hok : (Except.ok () : Except Interruption Unit) = ending at h
  induction h with
  | done => exact .nil
  | skipped halone _ ih => exact .cons (gives_of_alone_eq halone) (ih hok)
  | handed halone _ _ ih => exact .cons (gives_of_alone_eq halone) (ih hok)
  | refused => cases hok
  | interrupted => cases hok

/-- A file ends a run exactly if its source interrupts the compilation. -/
theorem alone_eq_error_iff {source : SourceFile} {cause : Interruption}
    (hlocated : b.located t v = .ok source) :
    (b.alone t v).1 = .error cause ↔
      (b.compiled t source).1 = .error (.interrupted cause) := by
  simp only [alone, hlocated]
  rcases b.compiled t source with ⟨⟨e | cause'⟩ | a, tr⟩ <;> simp

theorem alone_ne_error {cause : Interruption} {tr : Trace}
    (h : ∀ source, b.located t v = .ok source →
      ∀ cause, (b.compiled t source).1 ≠ .error (.interrupted cause)) :
    b.alone t v ≠ (.error cause, tr) := by
  intro halone
  cases hlocated : b.located t v with
  | error e => simp [alone, hlocated] at halone
  | ok source =>
    exact h source hlocated cause ((alone_eq_error_iff hlocated).mp (by rw [halone]))

/-- **A run comes to its end** if no source interrupts it and the sink takes every artifact. -/
theorem Runs.eq_ok (hspares : b.Spares sink dialects t invariant)
    (hsink : ∀ v ∈ b.visited t dialects, ∀ a tr, b.alone t v = (.ok (.ok a), tr) →
      ∀ s, invariant s.tree → ∃ s', sink a b.host s = (.ok (), s'))
    (hcompiled : ∀ v ∈ b.visited t dialects, ∀ source, b.located t v = .ok source →
      ∀ cause, (b.compiled t source).1 ≠ .error (.interrupted cause))
    (hvs : ∀ v ∈ vs, v ∈ b.visited t dialects) (hs : invariant s.tree)
    (h : b.Runs sink t vs s outcomes ending s') : ending = .ok () := by
  -- The invariant goes along with the session, as the sink only takes what it finds in it.
  induction h with
  | done => rfl
  | skipped halone _ ih => exact ih (fun w hw ↦ hvs w (by simp [hw])) (by simpa using hs)
  | @handed v _ _ _ _ a tr _ _ halone hsink' _ ih =>
    refine ih (fun w hw ↦ hvs w (by simp [hw])) ?_
    exact hspares.kept v (hvs v (by simp)) a tr halone _ _ (by simpa using hs) hsink'
  | @refused v _ s _ a tr _ halone hrefused =>
    obtain ⟨_, htaken⟩ := hsink v (hvs v (by simp)) a tr halone (s.extend tr) (by simpa using hs)
    rw [htaken] at hrefused
    cases hrefused
  | @interrupted v _ _ _ _ halone =>
    exact absurd halone (alone_ne_error (hcompiled v (hvs v (by simp))))

end Setup

/-! ### The exit status -/

/-- The summary of a report is printed in any session, and the exit status is zero exactly if there
are no failures. -/
theorem exists_yields_printReport (report : BuildReport) (host : Host) :
    ∃ status tr, Yields (printReport report) host (.ok status) tr ∧
      (status = 0 ↔ report.failures = []) := by
  unfold printReport
  by_cases hempty : (report.artifacts.isEmpty && report.failures.isEmpty) = true
  · simp only [hempty, if_true]
    refine ⟨0, _, .bind .read (.bind (.print _) (.pure 0)), ?_⟩
    simp only [Bool.and_eq_true, List.isEmpty_iff] at hempty
    simp [hempty.2]
  simp only [hempty, Bool.false_eq_true, if_false]
  by_cases hfailures : report.failures.isEmpty = true
  · simp only [hfailures, if_true]
    refine ⟨0, _, .bind .read (.bind (.print _) (.pure 0)), ?_⟩
    simpa using hfailures
  · simp only [hfailures, Bool.false_eq_true, if_false]
    obtain ⟨_, hnames⟩ : ∃ tr, Yields (report.failures.forM fun failure ↦ printError
        (Color.red.paint host.colored ("  ".toList ++ failure.source.sourceName)) :
          Action Interruption Unit) host (.ok ()) tr :=
      Yields.exists_forM fun failure _ ↦ ⟨_, .printError _⟩
    refine ⟨1, _, .bind .read (.bind (.print _) (.bind (.printError _) (.bind hnames (.pure 1)))),
      ?_⟩
    simpa using hfailures

/-- What a build is given by the program in a configured project directory. -/
def Setup.ofConfig (host : Host) (t : FileTree) (directory : Path) (config : ProjectConfig) :
    Setup where
  host := host
  root := directory
  sources := directory.joinText config.sources
  settings := config.settings
  provider :=
    match config.solcPath with
    | none => findCompiler
    | some s => fixedCompiler (Path.ofLocation (t.resolve (directory.joinText s)))

theorem isStateless_ofConfig (host : Host) (t : FileTree) (directory : Path)
    (config : ProjectConfig) : (Setup.ofConfig host t directory config).provider.IsStateless := by
  unfold Setup.ofConfig
  cases config.solcPath with
  | none => exact isStateless_findCompiler
  | some path => exact isStateless_fixedCompiler _

/-- The project directory is there, and this is its configuration. -/
structure Loads (t : FileTree) (directory : Path) (config : ProjectConfig) : Prop where
  contains_directory : t.contains directory
  contains_file : t.contains (directory.joinText ProjectConfig.fileName)
  load : ProjectConfig.load t (directory.joinText ProjectConfig.fileName) = .ok config

variable {directory : Path} {config : ProjectConfig}

theorem configuredProvider_eq : configuredProvider directory config host s =
    (.ok (Setup.ofConfig host s.tree directory config).provider, s) := by
  unfold configuredProvider Setup.ofConfig
  cases config.solcPath <;> rfl

theorem Loads.runCompile_eq (h : Loads s.tree directory config) :
    runCompile directory host s = runConfigured directory config host s := by
  simp only [runCompile, bind_action_eq, get_action_eq, h.contains_directory, Bool.not_true,
    Bool.false_eq_true, if_false, h.contains_file, h.load]

/-- The build is the one that the program makes in a configured directory. -/
structure Setup.IsConfigured (b : Setup) (sink : Sink) (dialects : List Dialect) (t : FileTree)
    (directory : Path) (config : ProjectConfig) : Prop where
  setup : b = .ofConfig b.host t directory config
  sink : sink = directorySink (directory.joinText config.artifacts)
  dialects : dialects = Dialect.all

/-- The exit status of the program follows from the report. -/
theorem Setup.IsConfigured.exists_runConfigured {report : BuildReport}
    (h : b.IsConfigured sink dialects s.tree directory config)
    (hbuild : b.build sink dialects s = (.ok report, s')) :
    ∃ status s'', runConfigured directory config b.host s = (.ok status, s'') ∧
      (status = 0 ↔ report.failures = []) := by
  obtain ⟨status, tr, hyields, hstatus⟩ := exists_yields_printReport report b.host
  refine ⟨status, s'.extend tr, ?_, hstatus⟩
  rw [h.sink, h.dialects, h.setup] at hbuild
  simp only [Setup.build, Setup.ofConfig] at hbuild
  simp only [runConfigured, bind_action_eq, configuredProvider_eq, Setup.ofConfig, hbuild]
  exact hyields s'

end

/-! ### A project with two sources -/

/-- What a directory sink does is what its store does. -/
theorem directorySink_eq (directory : Path) (a : Artifact) (host : Host) (s : Session) :
    directorySink directory a host s =
      match (ArtifactStore.mk directory []).record s.tree a with
      | (_, t, some e) => (.error (.file e), { s with tree := t })
      | (_, t, none) => (.ok (), { s with
          tree := t
          events := s.events ++ [.store ((ArtifactStore.mk directory []).path a).text] }) := by
  simp only [directorySink, bind_action_eq, get_action_eq]
  rcases (ArtifactStore.mk directory []).record s.tree a with ⟨_, t, _ | e⟩ <;> rfl

namespace Sample

/-- A source in the directory of sources. -/
def source (name : String) : SourceFile where
  location := ["p".toList, "contracts".toList, name.toList]
  sourceName := "contracts/".toList ++ name.toList
  dialect := .yul

/-- The location of an artifact or of a directory around it. -/
def target (names : List String) : Location :=
  "p".toList :: "artifacts".toList :: names.map String.toList

/-- A project with two sources, an empty block and a byte that is no text, and more files. -/
def tree (more : List (Location × Entry)) : FileTree where
  entries := [(["p".toList], .directory), (["p".toList, "contracts".toList], .directory),
    ((source "a.yul").location, .file [123, 125]), ((source "b.yul").location, .file [255])] ++ more

/-- The project before it is built. -/
abbrev start : FileTree :=
  tree []

/-- The project with a directory for the artifact of the first source, and what is in it. -/
def built (content : List (Location × Entry)) : FileTree :=
  tree ([(target [], .directory), (target ["contracts"], .directory),
    (target ["contracts", "a.yul"], .directory)] ++ content)

/-- The project with an artifact of the first source. -/
def recorded (content : List UInt8) : FileTree :=
  built [(target ["contracts", "a.yul", "a.json"], .file content)]

/-- A host with one executable, which ends every compilation in the same way. -/
def host (result : ProcessResult) : Host where
  find _ := some "/solc".toList
  run c := if c.argument = "--version".toList then .exited 0 "Version: 0.8.17".toList [] else result
  colored := false

/-- The answer of a compiler that has compiled something: nested objects around the code. -/
def answer : ProcessResult :=
  let keys := ["contracts", "Target.yul", "a", "evm", "bytecode", "object"]
  let text := keys.foldr (fun key inner ↦ "\x7b\"" ++ key ++ "\":" ++ inner ++ "\x7d") "\"60\""
  .exited 0 text.toList []

def directory : Path :=
  Path.ofText "/p".toList

def config : ProjectConfig where
  version := "0.8.17".toList

def setup (result : ProcessResult) (t : FileTree) : Setup :=
  .ofConfig (host result) t directory config

def sink : Sink :=
  directorySink (directory.joinText config.artifacts)

variable {r : ProcessResult} {t : FileTree} {a : Artifact} {s : Session}

theorem isStateless_setup : (setup r t).provider.IsStateless :=
  isStateless_ofConfig _ _ _ _

theorem visited_start : (setup r t).visited start Dialect.all =
    [(.yul, (source "a.yul").location), (.yul, (source "b.yul").location)] := by
  cbv

theorem located_first :
    (setup r t).located start (.yul, (source "a.yul").location) = .ok (source "a.yul") := by
  cbv

theorem located_second :
    (setup r t).located start (.yul, (source "b.yul").location) = .ok (source "b.yul") := by
  cbv

/-- A visited file is the first source or the second one. -/
theorem eq_of_mem_visited {v : Visit} (hv : v ∈ (setup r t).visited start Dialect.all) :
    (v = (.yul, (source "a.yul").location) ∧
        (setup r t).located start v = .ok (source "a.yul")) ∨
      (v = (.yul, (source "b.yul").location) ∧
        (setup r t).located start v = .ok (source "b.yul")) := by
  rw [visited_start] at hv
  simp only [List.mem_cons, List.not_mem_nil, or_false] at hv
  obtain rfl | rfl := hv
  · exact .inl ⟨rfl, located_first⟩
  · exact .inr ⟨rfl, located_second⟩

/-- The first source is compiled, and the compiler has nothing to report. -/
theorem exists_compiled_first : ∃ a events,
    (setup answer t).compiled start (source "a.yul") = (.ok a, ⟨events, [], []⟩) := by
  have hread : readSource start (source "a.yul") = .ok "\x7b\x7d".toList := by cbv
  have hcompiled :
      let result := compileRead (.ok "\x7b\x7d".toList) (source "a.yul") config.settings
        findCompiler (host answer) { tree := start }
      result.1.isOk ∧ result.2.output = [] ∧ result.2.errors = [] := by
    decide +kernel
  rw [← hread] at hcompiled
  obtain ⟨hok, houtput, herrors⟩ := hcompiled
  obtain ⟨a, ha⟩ := exists_of_isOk hok
  exact ⟨a, _, Prod.ext ha (congrArg₂ (Trace.mk _) houtput herrors)⟩

/-- The second source cannot be read. -/
theorem exists_compiled_second :
    ∃ e, ((setup r t).compiled start (source "b.yul")).1 = .error (.skipped e) := by
  obtain ⟨e, hread⟩ : ∃ e, readSource start (source "b.yul") = .error e := ⟨_, by cbv⟩
  refine ⟨e, ?_⟩
  show (compileRead (readSource start _) _ _ _ _ _).1 = _
  rw [hread]
  rfl

theorem exists_alone_first : ∃ a events,
    (setup answer t).alone start (.yul, (source "a.yul").location) =
      (.ok (.ok a), ⟨events, "Compiling contracts/a.yul...\n".toList, []⟩) := by
  obtain ⟨a, events, ha⟩ := exists_compiled_first (t := t)
  refine ⟨a, events, ?_⟩
  simp only [Setup.alone, located_first, ha]
  rfl

theorem exists_alone_second : ∃ f tr,
    (setup r t).alone start (.yul, (source "b.yul").location) = (.ok (.error f), tr) := by
  obtain ⟨e, he⟩ := exists_compiled_second (r := r) (t := t)
  simp only [Setup.alone, located_second]
  rcases hcompiled : (setup r t).compiled start (source "b.yul") with ⟨outcome, tr⟩
  rw [hcompiled] at he
  obtain rfl : outcome = .error (.skipped e) := he
  exact ⟨_, _, rfl⟩

/-- Neither source interrupts a run. -/
theorem compiled_ne_interrupted {v : Visit} {f : SourceFile} {cause : Interruption}
    (hv : v ∈ (setup answer t).visited start Dialect.all)
    (hlocated : (setup answer t).located start v = .ok f) :
    ((setup answer t).compiled start f).1 ≠ .error (.interrupted cause) := by
  obtain ⟨rfl, h⟩ | ⟨rfl, h⟩ := eq_of_mem_visited hv
  · cases h.symm.trans hlocated
    obtain ⟨a, _, ha⟩ := exists_compiled_first (t := t)
    simp [ha]
  · cases h.symm.trans hlocated
    obtain ⟨e, he⟩ := exists_compiled_second (r := answer) (t := t)
    simp [he]

theorem exists_of_gives_first {outcome : SourceOutcome}
    (h : (setup answer t).Gives start (.yul, (source "a.yul").location) outcome) :
    ∃ a, outcome = .ok a ∧ a.sourceName = (source "a.yul").sourceName ∧
      a.contractName = (source "a.yul").contractName := by
  obtain ⟨a, _, ha⟩ := exists_compiled_first (t := t)
  cases h with
  | artifact hlocated _ hsource hcontract =>
    cases located_first.symm.trans hlocated
    exact ⟨_, rfl, hsource, hcontract⟩
  | failure hlocated hcompiled =>
    cases located_first.symm.trans hlocated
    rw [ha] at hcompiled
    cases hcompiled
  | outside hlocated => cases located_first.symm.trans hlocated

theorem exists_of_gives_second {outcome : SourceOutcome}
    (h : (setup r t).Gives start (.yul, (source "b.yul").location) outcome) :
    ∃ f, outcome = .error f := by
  obtain ⟨e, he⟩ := exists_compiled_second (r := r) (t := t)
  cases h with
  | artifact hlocated hcompiled _ _ =>
    cases located_second.symm.trans hlocated
    cases he.symm.trans hcompiled
  | failure _ _ => exact ⟨_, rfl⟩
  | outside _ => exact ⟨_, rfl⟩

/-- The trees of a run: nothing but the one artifact changes. -/
def Unchanged (t : FileTree) : Prop :=
  t = start ∨ ∃ content, t = recorded content

theorem path_eq (hsource : a.sourceName = (source "a.yul").sourceName)
    (hcontract : a.contractName = (source "a.yul").contractName) :
    (ArtifactStore.mk (directory.joinText config.artifacts) []).path a =
      Path.ofLocation (target ["contracts", "a.yul", "a.json"]) := by
  rw [ArtifactStore.path, hsource, hcontract]
  cbv

/-- The artifact of the first source goes to its place, if there is nothing in its way. -/
theorem exists_sink_eq_of_writeBytes {t' : FileTree}
    (hsource : a.sourceName = (source "a.yul").sourceName)
    (hcontract : a.contractName = (source "a.yul").contractName) (hs : s.tree = t)
    (hdirectories : t.ensureDirectories
      (Path.ofLocation (target ["contracts", "a.yul", "a.json"])).parent = (t', none))
    (hwrite : ∀ content, t'.writeBytes
      (Path.ofLocation (target ["contracts", "a.yul", "a.json"])) content =
        .ok (recorded content)) :
    ∃ s', sink a (host r) s = (.ok (), s') ∧ Unchanged s'.tree := by
  rw [sink, directorySink_eq]
  unfold ArtifactStore.record Artifact.write FileTree.writeText
  rw [path_eq hsource hcontract, hs, hdirectories]
  simp only [hwrite]
  exact ⟨_, rfl, .inr ⟨_, rfl⟩⟩

theorem exists_sink_eq (hsource : a.sourceName = (source "a.yul").sourceName)
    (hcontract : a.contractName = (source "a.yul").contractName) (hs : Unchanged s.tree) :
    ∃ s', sink a (host r) s = (.ok (), s') ∧ Unchanged s'.tree := by
  obtain h | ⟨before, h⟩ := hs
  · have hdirectories : start.ensureDirectories
        (Path.ofLocation (target ["contracts", "a.yul", "a.json"])).parent =
          (built [], none) := by cbv
    exact exists_sink_eq_of_writeBytes hsource hcontract h hdirectories fun _ ↦ by cbv
  · have hdirectories : (recorded before).ensureDirectories
        (Path.ofLocation (target ["contracts", "a.yul", "a.json"])).parent =
          (recorded before, none) := by cbv
    exact exists_sink_eq_of_writeBytes hsource hcontract h hdirectories fun _ ↦ by cbv

/-- A tree where both sources are found in their places and read the same. -/
theorem sameSources_of_readSource_eq {t' : FileTree}
    (hfound : ∀ d, t'.findSources (directory.joinText config.sources) d =
      start.findSources (directory.joinText config.sources) d)
    (hfirst : (setup r t).located t' (.yul, (source "a.yul").location) = .ok (source "a.yul") ∧
      readSource t' (source "a.yul") = readSource start (source "a.yul"))
    (hsecond : (setup r t).located t' (.yul, (source "b.yul").location) = .ok (source "b.yul") ∧
      readSource t' (source "b.yul") = readSource start (source "b.yul")) :
    (setup r t).SameSources Dialect.all start t' where
  found d _ := hfound d
  alike v hv := by
    obtain ⟨rfl, h⟩ | ⟨rfl, h⟩ := eq_of_mem_visited hv
    · refine ⟨hfirst.1.trans h.symm, fun source hsource ↦ ?_⟩
      cases h.symm.trans hsource
      exact hfirst.2
    · refine ⟨hsecond.1.trans h.symm, fun source hsource ↦ ?_⟩
      cases h.symm.trans hsource
      exact hsecond.2

theorem sameSources_recorded (content : List UInt8) :
    (setup r t).SameSources Dialect.all start (recorded content) :=
  sameSources_of_readSource_eq (fun d ↦ by cases d <;> cbv) ⟨by cbv, by cbv⟩ ⟨by cbv, by cbv⟩

/-- Only the first source has an artifact. -/
theorem names_of_alone_eq {v : Visit} {tr : Trace}
    (hv : v ∈ (setup answer t).visited start Dialect.all)
    (h : (setup answer t).alone start v = (.ok (.ok a), tr)) :
    a.sourceName = (source "a.yul").sourceName ∧
      a.contractName = (source "a.yul").contractName := by
  have hgives := Setup.gives_of_alone_eq h
  obtain ⟨rfl, -⟩ | ⟨rfl, -⟩ := eq_of_mem_visited hv
  · obtain ⟨_, hok, hnames⟩ := exists_of_gives_first hgives
    cases hok
    exact hnames
  · obtain ⟨_, herror⟩ := exists_of_gives_second hgives
    cases herror

section

variable {t' : FileTree} {v : Visit} (h : (setup answer t).SameSources Dialect.all start t')
  (hv : v ∈ (setup answer t).visited t' Dialect.all)

include h hv

theorem names_of_alone_eq_of_same {tr : Trace}
    (halone : (setup answer t).alone t' v = (.ok (.ok a), tr)) :
    a.sourceName = (source "a.yul").sourceName ∧
      a.contractName = (source "a.yul").contractName := by
  rw [h.visited_eq] at hv
  rw [(h.alike v hv).alone_eq isStateless_setup] at halone
  exact names_of_alone_eq hv halone

theorem compiled_ne_interrupted_of_same {f : SourceFile} {cause : Interruption}
    (hlocated : (setup answer t).located t' v = .ok f) :
    ((setup answer t).compiled t' f).1 ≠ .error (.interrupted cause) := by
  rw [h.visited_eq] at hv
  have halike := h.alike v hv
  rw [halike.located] at hlocated
  rw [halike.compiled_eq isStateless_setup hlocated]
  exact compiled_ne_interrupted hv hlocated

end

/-- The sink leaves the sources alone. -/
theorem spares : (setup answer t).Spares sink Dialect.all start Unchanged where
  initial := .inl rfl
  same t' ht' := by
    obtain rfl | ⟨content, rfl⟩ := ht'
    · exact .refl _ _ _
    · exact sameSources_recorded content
  kept v hv a tr h s s' hs hsink := by
    obtain ⟨hsource, hcontract⟩ := names_of_alone_eq hv h
    obtain ⟨_, htaken, hs'⟩ := exists_sink_eq (r := answer) hsource hcontract hs
    cases htaken.symm.trans hsink
    exact hs'

end Sample

/-! ### The partition -/

/-- **A build partitions its files.** -/
theorem Setup.build_partitions {b : Setup} {sink : Sink} {dialects : List Dialect}
    {s : Session} {invariant : FileTree → Prop} (hprovider : b.provider.IsStateless)
    (hspares : b.Spares sink dialects s.tree invariant)
    (hsink : ∀ v ∈ b.visited s.tree dialects, ∀ a tr,
      b.alone s.tree v = (.ok (.ok a), tr) →
        ∀ s₁, invariant s₁.tree → ∃ s', sink a b.host s₁ = (.ok (), s'))
    (hcompiled : ∀ v ∈ b.visited s.tree dialects, ∀ source,
      b.located s.tree v = .ok source →
        ∀ cause, (b.compiled s.tree source).1 ≠ .error (.interrupted cause)) :
    ∃ outcomes s',
      b.build sink dialects s = (.ok (.of outcomes), s') ∧
        b.Runs sink s.tree (b.visited s.tree dialects) s outcomes (.ok ()) s' ∧
        List.Forall₂ (b.Gives s.tree) (b.visited s.tree dialects) outcomes ∧
        (BuildReport.of outcomes).artifacts.length + (BuildReport.of outcomes).failures.length =
          (b.visited s.tree dialects).length ∧
        (∀ v t', b.ReadsAlike s.tree t' v → b.alone t' v = b.alone s.tree v) ∧
        ∀ directory config, b.IsConfigured sink dialects s.tree directory config →
          ∃ status s'', runConfigured directory config b.host s = (.ok status, s'') ∧
            (Loads s.tree directory config →
              runCompile directory b.host s = (.ok status, s'')) ∧
            (status = 0 ↔ (BuildReport.of outcomes).failures = []) := by
  obtain ⟨outcomes, ending, s', hruns, hbuild⟩ := Setup.runs_build hprovider hspares
  obtain rfl : ending = .ok () :=
    hruns.eq_ok hspares hsink hcompiled (fun _ hv ↦ hv) hspares.initial
  have hgives := hruns.forall₂_gives
  refine ⟨outcomes, s', hbuild, hruns, hgives, ?_, fun v t' h ↦ h.alone_eq hprovider, ?_⟩
  · rw [BuildReport.length_of, hgives.length_eq]
  · intro directory config hconfigured
    obtain ⟨status, s'', hrun, hstatus⟩ := hconfigured.exists_runConfigured hbuild
    exact ⟨status, s'', hrun, fun hloads ↦ by rw [hloads.runCompile_eq, hrun], hstatus⟩

/-- One of two sources is compiled, and the exit status is not zero. -/
theorem Setup.build_partitions_undecodable :
    ∃ report s' status s'',
      (Sample.setup Sample.answer Sample.start).build Sample.sink Dialect.all
          { tree := Sample.start } = (.ok report, s') ∧
        report.artifacts.length = 1 ∧ report.failures.length = 1 ∧
        runConfigured Sample.directory Sample.config (Sample.host Sample.answer)
          { tree := Sample.start } = (.ok status, s'') ∧ status ≠ 0 := by
  obtain ⟨outcomes, s', hbuild, -, hgives, -, -, hstatus⟩ :=
    Setup.build_partitions (b := Sample.setup Sample.answer Sample.start)
      (s := { tree := Sample.start }) Sample.isStateless_setup Sample.spares
      (fun v hv a tr h s hs ↦ by
        obtain ⟨hsource, hcontract⟩ := Sample.names_of_alone_eq hv h
        obtain ⟨s', hsink, -⟩ := Sample.exists_sink_eq hsource hcontract hs
        exact ⟨s', hsink⟩)
      (fun v hv source hlocated _ ↦ Sample.compiled_ne_interrupted hv hlocated)
  obtain ⟨status, s'', hrun, -, hzero⟩ := hstatus Sample.directory Sample.config ⟨rfl, rfl, rfl⟩
  rw [Sample.visited_start] at hgives
  obtain _ | ⟨hfirst, _ | ⟨hsecond, ⟨⟩⟩⟩ := hgives
  obtain ⟨a, rfl, -⟩ := Sample.exists_of_gives_first hfirst
  obtain ⟨f, rfl⟩ := Sample.exists_of_gives_second hsecond
  exact ⟨_, s', status, s'', hbuild, rfl, rfl, hrun, by simp [hzero, BuildReport.of]⟩

end YulPlus
