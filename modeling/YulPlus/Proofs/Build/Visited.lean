import Mathlib.Data.List.Forall2
import YulPlus.Proofs.Build.Stateless

/-!
# Runs over the files of a project

A build visits the sources of a project one after the other. What comes of a file by itself is
`Setup.alone`: the file is located and compiled in a session that holds the files of the project and
nothing else. `Setup.Runs` says how a run is put together from this. Every visited file adds its own
outcome and its own trace; a failure is reported with one line, an artifact is handed to the sink
before the next file is visited. A run ends early if the sink refuses an artifact, or if a file
brings about a failure that no step of the build expects.

A build is such a run (`Setup.runs_build`), if the provider is stateless and the sink spares the
sources. The second condition is an invariant of the file tree (`Setup.Spares`): a sink may write
whatever it likes as long as the build goes on finding the same files in the same places with the
same text. -/

namespace YulPlus

open Text Session

/-- A file that is visited, and the dialect that it is visited for. -/
abbrev Visit := Dialect × Location

/-- What a visited file adds to the report. -/
abbrev SourceOutcome := Except SourceFailure Artifact

/-- What a build is given, apart from the files, the dialects and the sink. -/
structure Setup where
  host : Host
  root : Path
  sources : Path
  settings : BuildSettings
  provider : Provider

/-- The report of some outcomes, in their order. -/
def BuildReport.of (outcomes : List SourceOutcome) : BuildReport where
  artifacts := outcomes.filterMap fun
    | .ok a => some a
    | .error _ => none
  failures := outcomes.filterMap fun
    | .ok _ => none
    | .error f => some f

/-- A report with more outcomes. -/
def BuildReport.append (report : BuildReport) (outcomes : List SourceOutcome) : BuildReport where
  artifacts := report.artifacts ++ (BuildReport.of outcomes).artifacts
  failures := report.failures ++ (BuildReport.of outcomes).failures

namespace Setup

/-- The build in a session. -/
def build (b : Setup) (sink : Sink) (dialects : List Dialect) (session : Session) :
    Except Interruption BuildReport × Session :=
  compileProject b.root b.sources b.settings sink b.provider dialects b.host session

/-- The files that a build visits, dialect by dialect. -/
def visited (b : Setup) (t : FileTree) (dialects : List Dialect) : List Visit :=
  dialects.flatMap fun d ↦ (t.findSources b.sources d).map (d, ·)

/-- The source that a visited file is, if it lies below the root of the project. -/
def located (b : Setup) (t : FileTree) (v : Visit) : Except OutsideRoot SourceFile :=
  SourceFile.ofPath t b.root (Path.ofLocation v.2) v.1

/-- Compile a source in a session with these files and nothing else. -/
def compiled (b : Setup) (t : FileTree) (source : SourceFile) : Except Failure Artifact × Trace :=
  let result := compileSource source b.settings b.provider b.host { tree := t }
  (result.1, result.2.trace)

/-- The line that announces a source. -/
def announcement (source : SourceFile) : Trace :=
  ⟨[], "Compiling ".toList ++ source.sourceName ++ "...".toList ++ ['\n'], []⟩

/-- The line that reports a failure. -/
def failureReport (b : Setup) (f : SourceFailure) : Trace :=
  ⟨[], [], Color.red.paint b.host.colored ("yulbuild: failed to compile ".toList ++
    f.source.sourceName ++ ": ".toList ++ f.error.message) ++ ['\n']⟩

/-- What comes of a visited file by itself. -/
def alone (b : Setup) (t : FileTree) (v : Visit) : Except Interruption SourceOutcome × Trace :=
  match b.located t v with
  | .error e => (.ok (.error ⟨⟨v.2, (Path.ofLocation v.2).text, v.1⟩, .outside e⟩), {})
  | .ok source =>
    match b.compiled t source with
    | (.ok a, tr) => (.ok (.ok a), announcement source ++ tr)
    | (.error (.skipped e), tr) => (.ok (.error ⟨source, e⟩), announcement source ++ tr)
    | (.error (.interrupted cause), tr) => (.error cause, announcement source ++ tr)

/-- A run over some files of the tree `t`: the session that it begins in, the outcomes of the files,
how it ends and the session that it ends in. -/
inductive Runs (b : Setup) (sink : Sink) (t : FileTree) :
    List Visit → Session → List SourceOutcome → Except Interruption Unit → Session → Prop
  | done {s : Session} : Runs b sink t [] s [] (.ok ()) s
  /-- A file fails, and one line says so. -/
  | skipped {v : Visit} {vs : List Visit} {s s' : Session} {f : SourceFailure} {tr : Trace}
      {outcomes : List SourceOutcome} {ending : Except Interruption Unit}
      (halone : b.alone t v = (.ok (.error f), tr))
      (hrest : Runs b sink t vs (s.extend (tr ++ b.failureReport f)) outcomes ending s') :
      Runs b sink t (v :: vs) s (.error f :: outcomes) ending s'
  /-- The sink takes the artifact of a file. -/
  | handed {v : Visit} {vs : List Visit} {s s₁ s' : Session} {a : Artifact} {tr : Trace}
      {outcomes : List SourceOutcome} {ending : Except Interruption Unit}
      (halone : b.alone t v = (.ok (.ok a), tr))
      (hsink : sink a b.host (s.extend tr) = (.ok (), s₁))
      (hrest : Runs b sink t vs s₁ outcomes ending s') :
      Runs b sink t (v :: vs) s (.ok a :: outcomes) ending s'
  /-- The sink refuses the artifact of a file. -/
  | refused {v : Visit} {vs : List Visit} {s s' : Session} {a : Artifact} {tr : Trace}
      {cause : Interruption} (halone : b.alone t v = (.ok (.ok a), tr))
      (hsink : sink a b.host (s.extend tr) = (.error cause, s')) :
      Runs b sink t (v :: vs) s [] (.error cause) s'
  /-- A file brings the run down. -/
  | interrupted {v : Visit} {vs : List Visit} {s : Session} {cause : Interruption} {tr : Trace}
      (halone : b.alone t v = (.error cause, tr)) :
      Runs b sink t (v :: vs) s [] (.error cause) (s.extend tr)

/-- A visited file is the same source with the same text in both trees. -/
structure ReadsAlike (b : Setup) (t t' : FileTree) (v : Visit) : Prop where
  located : b.located t' v = b.located t v
  read : ∀ source, b.located t v = .ok source → readSource t' source = readSource t source

/-- A build finds the same sources in both trees. -/
structure SameSources (b : Setup) (dialects : List Dialect) (t t' : FileTree) : Prop where
  found : ∀ d ∈ dialects, t'.findSources b.sources d = t.findSources b.sources d
  alike : ∀ v ∈ b.visited t dialects, b.ReadsAlike t t' v

/-- The sink keeps an invariant of the file tree under which the sources are those of `t`. -/
structure Spares (b : Setup) (sink : Sink) (dialects : List Dialect) (t : FileTree)
    (invariant : FileTree → Prop) : Prop where
  initial : invariant t
  same : ∀ t', invariant t' → b.SameSources dialects t t'
  kept : ∀ v ∈ b.visited t dialects, ∀ a tr, b.alone t v = (.ok (.ok a), tr) →
    ∀ s s', invariant s.tree → sink a b.host s = (.ok (), s') → invariant s'.tree

end Setup

section

variable {b : Setup} {sink : Sink} {dialects : List Dialect} {t t' : FileTree} {v : Visit}
  {vs ws : List Visit} {s s' s₁ : Session} {outcomes more : List SourceOutcome}
  {ending : Except Interruption Unit} {cause : Interruption} {report : BuildReport}
  {invariant : FileTree → Prop}

/-! ### Reports -/

namespace BuildReport

theorem append_nil (report : BuildReport) : report.append [] = report := by
  simp [append, of]

theorem append_append (report : BuildReport) (outcomes more : List SourceOutcome) :
    (report.append outcomes).append more = report.append (outcomes ++ more) := by
  simp [append, of]

theorem empty_append (outcomes : List SourceOutcome) :
    ({} : BuildReport).append outcomes = .of outcomes := by
  simp [append]

/-- Every outcome is in one of the two lists. -/
theorem length_of (outcomes : List SourceOutcome) :
    (of outcomes).artifacts.length + (of outcomes).failures.length = outcomes.length := by
  induction outcomes with
  | nil => rfl
  | cons outcome outcomes ih => cases outcome <;> simp [of] at ih ⊢ <;> omega

end BuildReport

/-! ### One file -/

namespace Setup

theorem SameSources.refl (b : Setup) (dialects : List Dialect) (t : FileTree) :
    b.SameSources dialects t t :=
  ⟨fun _ _ ↦ rfl, fun _ _ ↦ ⟨rfl, fun _ _ ↦ rfl⟩⟩

/-- Two trees with the sources of a third one. -/
theorem SameSources.of_common {t'' : FileTree} (h : b.SameSources dialects t t')
    (h' : b.SameSources dialects t t'') : b.SameSources dialects t' t'' where
  found d hd := (h'.found d hd).trans (h.found d hd).symm
  alike v hv := by
    have hvisited : v ∈ b.visited t dialects := by
      obtain ⟨d, hd, hmem⟩ := List.mem_flatMap.1 hv
      exact List.mem_flatMap.2 ⟨d, hd, h.found d hd ▸ hmem⟩
    have halike := h.alike v hvisited
    have halike' := h'.alike v hvisited
    refine ⟨halike'.located.trans halike.located.symm, fun source hsource ↦ ?_⟩
    rw [halike.located] at hsource
    exact (halike'.read source hsource).trans (halike.read source hsource).symm

theorem SameSources.visited_eq (h : b.SameSources dialects t t') :
    b.visited t' dialects = b.visited t dialects :=
  List.flatMap_congr fun d hd ↦ by rw [h.found d hd]

theorem compiled_eq_of_yields {source : SourceFile} {outcome : Except Failure Artifact}
    {tr : Trace} (h : Yields (compileRead (readSource t source) source b.settings b.provider)
      b.host outcome tr) : b.compiled t source = (outcome, tr) := by
  rw [compiled, compileSource_eq, h, trace_extend]

theorem ReadsAlike.compiled_eq {source : SourceFile} (h : b.ReadsAlike t t' v)
    (hprovider : b.provider.IsStateless) (hlocated : b.located t v = .ok source) :
    b.compiled t' source = b.compiled t source := by
  rw [compiled, compileSource_eq_of_readSource_eq hprovider (s := { tree := t' })
    (h.read source hlocated), trace_extend]
  rfl

/-- A sink that writes no file spares them all. -/
theorem spares_memorySink (b : Setup) (dialects : List Dialect) (t : FileTree) :
    b.Spares memorySink dialects t (· = t) where
  initial := rfl
  same t' ht' := ht' ▸ .refl b dialects t
  kept v _ a _ _ s s' hs hsink := by
    cases (Yields.note (.store a.sourceName) s).symm.trans hsink
    exact hs

/-- What comes of a file by itself depends on that file alone. -/
theorem ReadsAlike.alone_eq (h : b.ReadsAlike t t' v) (hprovider : b.provider.IsStateless) :
    b.alone t' v = b.alone t v := by
  rw [alone, alone, h.located]
  cases hlocated : b.located t v with
  | error e => rfl
  | ok source => simp only [h.compiled_eq hprovider hlocated]

/-- A failure is added to the report, and one line is printed. -/
theorem skipSource_eq (source : SourceFile) (error : BuildError) :
    skipSource report source error b.host s =
      (.ok (report.append [.error ⟨source, error⟩]),
        s.extend (b.failureReport ⟨source, error⟩)) := by
  have hprint : Yields (printFailure source.sourceName error.message : Action Interruption Unit)
      b.host (.ok ()) (b.failureReport ⟨source, error⟩) := by
    intro s
    simp only [printFailure, bind_action_eq, read_action_eq]
    exact Yields.printError _ s
  simp only [skipSource, bind_action_eq, hprint s]
  simp [BuildReport.append, BuildReport.of]
  rfl

/-- A source is compiled in a run as it is by itself. -/
theorem attempt_compileSource {source : SourceFile} (hprovider : b.provider.IsStateless)
    (hread : readSource s.tree source = readSource t source) :
    (attempt (compileSource source b.settings b.provider) : Action Interruption _) b.host s =
      (.ok (b.compiled t source).1, s.extend (b.compiled t source).2) := by
  rw [attempt_action_eq, compileSource_eq_of_readSource_eq hprovider hread]
  rfl

/-- **A file in a run** does what it does by itself, and a failure or an artifact is passed on. -/
theorem compileLocation_eq (sink : Sink) (report : BuildReport) (hprovider : b.provider.IsStateless)
    (halike : b.ReadsAlike t s.tree v) :
    compileLocation b.root b.settings sink b.provider v.1 report v.2 b.host s =
      match b.alone t v with
      | (.ok (.error f), tr) =>
        (.ok (report.append [.error f]), s.extend (tr ++ b.failureReport f))
      | (.ok (.ok a), tr) =>
        match sink a b.host (s.extend tr) with
        | (.ok (), s') => (.ok (report.append [.ok a]), s')
        | (.error cause, s') => (.error cause, s')
      | (.error cause, tr) => (.error cause, s.extend tr) := by
  have hlocated : SourceFile.ofPath s.tree b.root (Path.ofLocation v.2) v.1 = b.located t v :=
    halike.located
  simp only [compileLocation, bind_action_eq, get_action_eq, hlocated, alone]
  cases h : b.located t v with
  | error e => exact skipSource_eq _ _
  | ok source =>
    have hprint : (print ("Compiling ".toList ++ source.sourceName ++ "...".toList) :
        Action Interruption Unit) b.host s = (.ok (), s.extend (announcement source)) :=
      Yields.print _ s
    have hcompile := attempt_compileSource (s := s.extend (announcement source)) hprovider
      (halike.read source h)
    simp only [bind_action_eq, hprint, hcompile, ← extend_append]
    -- Only the last of the three outcomes of a source comes to the sink.
    rcases b.compiled t source with ⟨⟨e | cause⟩ | a, tr⟩
    · simp only [extend_append _ _ (b.failureReport _)]
      exact skipSource_eq _ _
    · rfl
    · simp only [bind_action_eq]
      rcases sink a b.host _ with ⟨_ | _, s'⟩
      · rfl
      · simp [BuildReport.append, BuildReport.of]
        rfl

end Setup

/-! ### Runs -/

namespace Setup

namespace Runs

/-- A run that comes to its end is followed by another. -/
theorem append (h : b.Runs sink t vs s outcomes (.ok ()) s₁)
    (h' : b.Runs sink t ws s₁ more ending s') :
    b.Runs sink t (vs ++ ws) s (outcomes ++ more) ending s' := by
  generalize hok : (Except.ok () : Except Interruption Unit) = e at h
  induction h with
  | done => exact h'
  | skipped halone _ ih => exact skipped halone (ih h' hok)
  | handed halone hsink _ ih => exact handed halone hsink (ih h' hok)
  | refused => cases hok
  | interrupted => cases hok

/-- A run that ends early leaves out all that follows. -/
theorem append_error (h : b.Runs sink t vs s outcomes (.error cause) s') (ws : List Visit) :
    b.Runs sink t (vs ++ ws) s outcomes (.error cause) s' := by
  generalize herror : (Except.error cause : Except Interruption Unit) = e at h
  induction h with
  | done => cases herror
  | skipped halone _ ih => exact skipped halone (ih herror)
  | handed halone hsink _ ih => exact handed halone hsink (ih herror)
  | refused halone hsink => exact refused halone hsink
  | interrupted halone => exact interrupted halone

/-- A run that ends early has come to some file. Its artifact was refused, or it brought the run
down. -/
theorem exists_of_error (h : b.Runs sink t vs s outcomes (.error cause) s') :
    ∃ front v back s₁, vs = front ++ v :: back ∧ b.Runs sink t front s outcomes (.ok ()) s₁ ∧
      ((∃ a tr, b.alone t v = (.ok (.ok a), tr) ∧
          sink a b.host (s₁.extend tr) = (.error cause, s')) ∨
        ∃ tr, b.alone t v = (.error cause, tr) ∧ s' = s₁.extend tr) := by
  generalize herror : (Except.error cause : Except Interruption Unit) = ending at h
  induction h with
  | done => cases herror
  | @skipped v _ _ _ _ _ _ _ halone _ ih =>
    obtain ⟨front, w, back, s₁, rfl, hfront, hw⟩ := ih herror
    exact ⟨v :: front, w, back, s₁, rfl, .skipped halone hfront, hw⟩
  | @handed v _ _ _ _ _ _ _ _ halone hsink _ ih =>
    obtain ⟨front, w, back, s₁, rfl, hfront, hw⟩ := ih herror
    exact ⟨v :: front, w, back, s₁, rfl, .handed halone hsink hfront, hw⟩
  | @refused v vs _ _ _ _ _ halone hsink =>
    cases herror
    exact ⟨[], v, vs, _, rfl, .done, .inl ⟨_, _, halone, hsink⟩⟩
  | @interrupted v vs _ _ _ halone =>
    cases herror
    exact ⟨[], v, vs, _, rfl, .done, .inr ⟨_, halone, rfl⟩⟩

/-- There is only one run over some files. -/
theorem unique {outcomes' : List SourceOutcome} {ending' : Except Interruption Unit}
    {s'' : Session} (h : b.Runs sink t vs s outcomes ending s')
    (h' : b.Runs sink t vs s outcomes' ending' s'') :
    outcomes = outcomes' ∧ ending = ending' ∧ s' = s'' := by
  induction h generalizing outcomes' with
  | done =>
    cases h'
    exact ⟨rfl, rfl, rfl⟩
  | skipped halone _ ih =>
    cases h' with
    | skipped halone' hrest' =>
      cases halone.symm.trans halone'
      obtain ⟨rfl, rfl, rfl⟩ := ih hrest'
      exact ⟨rfl, rfl, rfl⟩
    | handed halone' | refused halone' | interrupted halone' => cases halone.symm.trans halone'
  | handed halone hsink _ ih =>
    cases h' with
    | handed halone' hsink' hrest' =>
      cases halone.symm.trans halone'
      cases hsink.symm.trans hsink'
      obtain ⟨rfl, rfl, rfl⟩ := ih hrest'
      exact ⟨rfl, rfl, rfl⟩
    | refused halone' hsink' =>
      cases halone.symm.trans halone'
      cases hsink.symm.trans hsink'
    | skipped halone' | interrupted halone' => cases halone.symm.trans halone'
  | refused halone hsink =>
    cases h' with
    | refused halone' hsink' =>
      cases halone.symm.trans halone'
      cases hsink.symm.trans hsink'
      exact ⟨rfl, rfl, rfl⟩
    | handed halone' hsink' =>
      cases halone.symm.trans halone'
      cases hsink.symm.trans hsink'
    | skipped halone' | interrupted halone' => cases halone.symm.trans halone'
  | interrupted halone =>
    cases h' with
    | interrupted halone' =>
      cases halone.symm.trans halone'
      exact ⟨rfl, rfl, rfl⟩
    | skipped halone' | handed halone' | refused halone' => cases halone.symm.trans halone'

end Runs

/-- A step of a build that goes over some files: where the invariant holds, it is a run over them
that keeps the invariant and adds the outcomes to the report. -/
def Visits (b : Setup) (sink : Sink) (t : FileTree) (invariant : FileTree → Prop)
    (vs : List Visit) (step : BuildReport → Action Interruption BuildReport) : Prop :=
  ∀ report s, invariant s.tree → ∃ outcomes ending s', b.Runs sink t vs s outcomes ending s' ∧
    (ending = .ok () → invariant s'.tree) ∧
    step report b.host s = (ending.map fun _ ↦ report.append outcomes, s')

namespace Visits

variable {step next : BuildReport → Action Interruption BuildReport}

theorem nil : b.Visits sink t invariant [] pure :=
  fun report s hs ↦ ⟨[], .ok (), s, .done, fun _ ↦ hs, by rw [report.append_nil]; rfl⟩

theorem bind (h : b.Visits sink t invariant vs step) (h' : b.Visits sink t invariant ws next) :
    b.Visits sink t invariant (vs ++ ws) fun report ↦ step report >>= next := by
  intro report s hs
  obtain ⟨outcomes, ending, s₁, hruns, hkept, hstep⟩ := h report s hs
  cases ending with
  | error cause =>
    refine ⟨outcomes, .error cause, s₁, hruns.append_error ws, by simp, ?_⟩
    simp only [bind_action_eq, hstep]
    rfl
  | ok _ =>
    obtain ⟨more, ending, s', hmore, hkept', hnext⟩ :=
      h' (report.append outcomes) s₁ (hkept rfl)
    refine ⟨outcomes ++ more, ending, s', hruns.append hmore, hkept', ?_⟩
    simp only [bind_action_eq, hstep, ← BuildReport.append_append]
    exact hnext

/-- A step for each member of a list, one after the other. -/
theorem foldlM {α : Type} {f : α → List Visit}
    {step : BuildReport → α → Action Interruption BuildReport} {xs : List α}
    (h : ∀ x ∈ xs, b.Visits sink t invariant (f x) (step · x)) :
    b.Visits sink t invariant (xs.flatMap f) fun report ↦ xs.foldlM step report := by
  induction xs with
  | nil => exact nil
  | cons x xs ih =>
    simp only [List.foldlM_cons, List.flatMap_cons]
    exact (h x (by simp)).bind (ih fun y hy ↦ h y (by simp [hy]))

end Visits

namespace Spares

variable (h : b.Spares sink dialects t invariant) (hprovider : b.provider.IsStateless)

include h hprovider

/-- One file. -/
theorem visits_compileLocation (hv : v ∈ b.visited t dialects) :
    b.Visits sink t invariant [v]
      (compileLocation b.root b.settings sink b.provider v.1 · v.2) := by
  intro report s hs
  have hlocation := compileLocation_eq sink report hprovider ((h.same _ hs).alike v hv)
  match halone : b.alone t v with
  | (.ok (.error f), tr) =>
    rw [halone] at hlocation
    exact ⟨_, .ok (), _, .skipped halone .done, fun _ ↦ by simpa using hs, hlocation⟩
  | (.error cause, tr) =>
    rw [halone] at hlocation
    exact ⟨[], .error cause, _, .interrupted halone, by simp, hlocation⟩
  | (.ok (.ok a), tr) =>
    match hsink : sink a b.host (s.extend tr) with
    | (.error cause, s') =>
      simp only [halone, hsink] at hlocation
      exact ⟨[], .error cause, s', .refused halone hsink, by simp, hlocation⟩
    | (.ok (), s') =>
      simp only [halone, hsink] at hlocation
      exact ⟨_, .ok (), s', .handed halone hsink .done,
        fun _ ↦ h.kept v hv a tr halone _ _ (by simpa using hs) hsink, hlocation⟩

/-- The files of one dialect. They are looked for when the dialects before it are done. -/
theorem visits_compileDialect {d : Dialect} (hd : d ∈ dialects) :
    b.Visits sink t invariant ((t.findSources b.sources d).map (d, ·))
      (compileDialect b.root b.sources b.settings sink b.provider · d) := by
  have hvisits : b.Visits sink t invariant ((t.findSources b.sources d).map (d, ·)) fun report ↦
      (t.findSources b.sources d).foldlM
        (compileLocation b.root b.settings sink b.provider d) report := by
    rw [← List.flatMap_pure_eq_map]
    refine .foldlM fun l hl ↦ h.visits_compileLocation hprovider (v := (d, l)) ?_
    exact List.mem_flatMap.mpr ⟨d, hd, List.mem_map_of_mem hl⟩
  intro report s hs
  -- The sink may have written since the build began, so the files are found by the invariant.
  simp only [compileDialect, bind_action_eq, get_action_eq, (h.same _ hs).found d hd]
  exact hvisits report s hs

end Spares

end Setup

/-- **A build is a run over the files that it finds.** -/
theorem Setup.runs_build (hprovider : b.provider.IsStateless)
    (hspares : b.Spares sink dialects s.tree invariant) :
    ∃ outcomes ending s',
      b.Runs sink s.tree (b.visited s.tree dialects) s outcomes ending s' ∧
        b.build sink dialects s = (ending.map fun _ ↦ .of outcomes, s') := by
  obtain ⟨outcomes, ending, s', hruns, -, hbuild⟩ :=
    Setup.Visits.foldlM (fun _ ↦ hspares.visits_compileDialect hprovider) {} s
      hspares.initial
  exact ⟨outcomes, ending, s', hruns, by rw [← BuildReport.empty_append]; exact hbuild⟩

/-- A run over the files that are found is what the build does. -/
theorem Setup.build_eq_of_runs (hprovider : b.provider.IsStateless)
    (hspares : b.Spares sink dialects s.tree invariant)
    (h : b.Runs sink s.tree (b.visited s.tree dialects) s outcomes ending s') :
    b.build sink dialects s = (ending.map fun _ ↦ .of outcomes, s') := by
  obtain ⟨_, _, _, hruns, hbuild⟩ := Setup.runs_build hprovider hspares
  obtain ⟨rfl, rfl, rfl⟩ := h.unique hruns
  exact hbuild

end

end YulPlus
