import YulPlus.Proofs.Build.Partition

/-!
# Refused artifacts

A sink may refuse an artifact, for example because something stands in its place. The run ends there
and then: the files behind are not visited, and there is no report, neither of the artifacts that
were taken before nor of the failures. -/

namespace YulPlus

open Text Session CommandLine

/-! ### A blocked directory -/

namespace Sample

/-- A file stands where the directory of the artifacts should be. -/
abbrev blocked : FileTree :=
  tree [(target [], .file [])]

variable {r : ProcessResult} {t : FileTree} {a : Artifact} {s : Session} {v : Visit} {tr : Trace}

theorem sameSources_blocked : (setup r t).SameSources Dialect.all start blocked :=
  sameSources_of_readSource_eq (fun d ↦ by cases d <;> cbv) ⟨by cbv, by cbv⟩ ⟨by cbv, by cbv⟩

/-- Nothing can be written below a file. -/
theorem exists_sink_eq_error (hsource : a.sourceName = (source "a.yul").sourceName)
    (hcontract : a.contractName = (source "a.yul").contractName) (hs : s.tree = blocked) :
    ∃ e, sink a (host r) s = (.error (.file e), s) := by
  obtain ⟨e, hdirectories⟩ : ∃ e, blocked.ensureDirectories
      (Path.ofLocation (target ["contracts", "a.yul", "a.json"])).parent = (blocked, some e) :=
    ⟨_, by cbv⟩
  rw [sink, directorySink_eq]
  unfold ArtifactStore.record Artifact.write
  rw [path_eq hsource hcontract, hs, hdirectories, ← hs]
  exact ⟨e, rfl⟩

theorem spares_blocked : (setup answer t).Spares sink Dialect.all blocked (· = blocked) where
  initial := rfl
  same t' ht' := ht' ▸ .refl _ _ _
  kept v hv a tr h s s' hs hsink := by
    obtain ⟨hsource, hcontract⟩ := names_of_alone_eq_of_same sameSources_blocked hv h
    obtain ⟨e, hrefused⟩ := exists_sink_eq_error (r := answer) hsource hcontract hs
    cases hrefused.symm.trans hsink

theorem visited_blocked : (setup r t).visited blocked Dialect.all =
    [(.yul, (source "a.yul").location), (.yul, (source "b.yul").location)] :=
  sameSources_blocked.visited_eq.trans visited_start

/-- The first source is compiled by itself, and then its artifact is refused. -/
theorem exists_refused : ∃ a e tr,
    (setup answer t).alone blocked (.yul, (source "a.yul").location) = (.ok (.ok a), tr) ∧
      sink a (host answer) (Session.extend { tree := blocked } tr) =
        (.error (.file e), Session.extend { tree := blocked } tr) ∧
      tr.output = "Compiling contracts/a.yul...\n".toList ∧ tr.errors = [] := by
  obtain ⟨a, events, halone⟩ := exists_alone_first (t := t)
  have hv : (Dialect.yul, (source "a.yul").location) ∈
      (setup answer t).visited start Dialect.all := by simp [visited_start]
  obtain ⟨hsource, hcontract⟩ := names_of_alone_eq hv halone
  obtain ⟨e, hsink⟩ := exists_sink_eq_error (r := answer) hsource hcontract
    (s := Session.extend { tree := blocked } _) rfl
  refine ⟨a, e, ⟨events, "Compiling contracts/a.yul...\n".toList, []⟩, ?_, hsink, rfl, rfl⟩
  rwa [(sameSources_blocked.alike _ hv).alone_eq isStateless_setup]

end Sample

/-- **A build gives no report exactly if the sink refuses an artifact.** The files in front of it
have been visited, and the session is the one that the sink has left. -/
theorem Setup.build_eq_error_iff {b : Setup} {sink : Sink} {dialects : List Dialect}
    {s s' : Session} {invariant : FileTree → Prop} {cause : Interruption}
    (hprovider : b.provider.IsStateless)
    (hspares : b.Spares sink dialects s.tree invariant)
    (hcompiled : ∀ v ∈ b.visited s.tree dialects, ∀ source,
      b.located s.tree v = .ok source →
        ∀ cause, (b.compiled s.tree source).1 ≠ .error (.interrupted cause)) :
    b.build sink dialects s = (.error cause, s') ↔
      ∃ front v back outcomes s₁ a tr,
        b.visited s.tree dialects = front ++ v :: back ∧
          b.Runs sink s.tree front s outcomes (.ok ()) s₁ ∧
          b.alone s.tree v = (.ok (.ok a), tr) ∧
          sink a b.host (s₁.extend tr) = (.error cause, s') := by
  constructor
  · intro h
    obtain ⟨outcomes, ending, _, hruns, hbuild⟩ := Setup.runs_build hprovider hspares
    rw [h] at hbuild
    cases ending with
    | ok _ => cases hbuild
    | error _ =>
      cases hbuild
      obtain ⟨front, v, back, s₁, hvs, hfront, ⟨a, tr, halone, hsink⟩ | ⟨tr, halone, -⟩⟩ :=
        hruns.exists_of_error
      · exact ⟨front, v, back, outcomes, s₁, a, tr, hvs, hfront, halone, hsink⟩
      · exact absurd halone (Setup.alone_ne_error (hcompiled v (by simp [hvs])))
  · rintro ⟨front, v, back, outcomes, s₁, a, tr, hvs, hfront, halone, hsink⟩
    have hrefused : b.Runs sink s.tree (v :: back) s₁ [] (.error cause) s' :=
      .refused halone hsink
    have hruns := hfront.append hrefused
    rw [← hvs] at hruns
    exact Setup.build_eq_of_runs hprovider hspares hruns

/-- The first artifact is refused. -/
theorem Setup.build_eq_error_blocked : ∃ cause s',
    (Sample.setup Sample.answer Sample.blocked).build Sample.sink Dialect.all
      { tree := Sample.blocked } = (.error cause, s') := by
  obtain ⟨a, e, tr, halone, hsink, -, -⟩ := Sample.exists_refused (t := Sample.blocked)
  refine ⟨_, _, (Setup.build_eq_error_iff (b := Sample.setup Sample.answer Sample.blocked)
    (s := { tree := Sample.blocked }) Sample.isStateless_setup
    Sample.spares_blocked ?_).mpr
      ⟨[], _, _, [], _, a, _, Sample.visited_blocked, .done, halone, hsink⟩⟩
  intro v hv source hlocated cause
  exact Sample.compiled_ne_interrupted_of_same Sample.sameSources_blocked hv hlocated

/-- The second source is not announced, and neither source is reported. -/
theorem Setup.build_refused_silently :
    (Sample.setup Sample.answer Sample.blocked).visited Sample.blocked Dialect.all =
        [(.yul, (Sample.source "a.yul").location), (.yul, (Sample.source "b.yul").location)] ∧
      ∃ e s', (Sample.setup Sample.answer Sample.blocked).build Sample.sink Dialect.all
          { tree := Sample.blocked } = (.error (.file e), s') ∧
        s'.output = "Compiling contracts/a.yul...\n".toList ∧ s'.errors = [] := by
  obtain ⟨a, e, tr, halone, hsink, houtput, herrors⟩ :=
    Sample.exists_refused (t := Sample.blocked)
  have hruns : (Sample.setup Sample.answer Sample.blocked).Runs Sample.sink Sample.blocked
      ((Sample.setup Sample.answer Sample.blocked).visited Sample.blocked Dialect.all)
      { tree := Sample.blocked } [] (.error (.file e))
      (Session.extend { tree := Sample.blocked } tr) := by
    rw [Sample.visited_blocked]
    exact .refused halone hsink
  have hbuild := Setup.build_eq_of_runs (s := { tree := Sample.blocked })
    Sample.isStateless_setup Sample.spares_blocked hruns
  refine ⟨Sample.visited_blocked, e, _, hbuild, ?_, ?_⟩
  · simpa [Session.extend] using houtput
  · simpa [Session.extend] using herrors

end YulPlus
