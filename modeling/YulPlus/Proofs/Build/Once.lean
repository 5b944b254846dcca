import YulPlus.Proofs.Artifact.Store
import YulPlus.Proofs.Build.Partition
import YulPlus.Proofs.Project.Sources

/-!
# Files that are compiled once

An artifact is named by the way from the root of the project to the file that it comes of
(`Setup.Makes`), so artifacts of different files have different names. No file is on the way to
another one, and a store keeps the artifacts apart. If no file is visited twice, then, a build
counts the files that it compiles, and no artifact is written over another one.

A file is visited twice exactly if the sources repeat (`FileTree.Repeats`). -/

namespace YulPlus

open Text Session FileTree

namespace Setup

/-- Does an artifact come of a visited file? -/
def makesArtifact (b : Setup) (t : FileTree) (v : Visit) : Bool :=
  match (b.alone t v).1 with
  | .ok (.ok _) => true
  | _ => false

/-- The places of all visited files. -/
def visitedFiles (b : Setup) (t : FileTree) : Finset Location :=
  ((b.visited t Dialect.all).map (·.2)).toFinset

/-- The places of the files that artifacts come of. -/
def compiledFiles (b : Setup) (t : FileTree) : Finset Location :=
  (((b.visited t Dialect.all).filter (b.makesArtifact t)).map (·.2)).toFinset

/-- The names on the way from the root of the project to a visited file. -/
def relative (b : Setup) (t : FileTree) (v : Visit) : Location :=
  v.2.drop (t.resolve b.root).length

/-- An artifact comes of a file below the root of the project, and is named by the way there. -/
structure Makes (b : Setup) (t : FileTree) (v : Visit) (a : Artifact) : Prop where
  place : v.2 = t.resolve b.root ++ b.relative t v
  sourceName : a.sourceName = Path.text ⟨[], b.relative t v⟩
  contractName : a.contractName = YulPlus.contractName a.sourceName

section

variable {b : Setup} {sink : Sink} {t : FileTree} {v : Visit} {vs : List Visit}
  {s s' : Session} {outcomes : List SourceOutcome} {a : Artifact} {artifacts : List Artifact}
  {directory : Path} {l : Location}

/-! ### Where an artifact comes from -/

theorem Gives.makes (h : b.Gives t v (.ok a)) (hself : t.resolve (Path.ofLocation v.2) = v.2) :
    b.Makes t v a := by
  cases h with
  | @artifact source _ hlocated _ hsource hcontract =>
    simp only [located, SourceFile.ofPath, hself] at hlocated
    split at hlocated
    · next hbase =>
      cases hlocated
      obtain ⟨relative, hrelative⟩ := List.isPrefixOf_iff_prefix.1 hbase
      refine ⟨?_, hsource, ?_⟩
      · rw [Setup.relative, ← hrelative, List.drop_left]
      · rw [hcontract, hsource]
        rfl
    · cases hlocated

/-- The artifacts of a run are those of the files that make one, in the order of the visits. -/
theorem Runs.forall₂_makes (h : b.Runs sink t vs s outcomes (.ok ()) s')
    (hself : ∀ v ∈ vs, t.resolve (Path.ofLocation v.2) = v.2) :
    List.Forall₂ (b.Makes t) (vs.filter (b.makesArtifact t))
      (BuildReport.of outcomes).artifacts := by
  generalize hok : (Except.ok () : Except Interruption Unit) = ending at h
  induction h with
  | done => exact .nil
  | skipped halone _ ih =>
    rw [List.filter_cons_of_neg (by simp [makesArtifact, halone])]
    exact ih (fun v hv ↦ hself v (List.mem_cons_of_mem _ hv)) hok
  | handed halone _ _ ih =>
    rw [List.filter_cons_of_pos (by simp [makesArtifact, halone])]
    exact .cons ((gives_of_alone_eq halone).makes (hself _ List.mem_cons_self))
      (ih (fun v hv ↦ hself v (List.mem_cons_of_mem _ hv)) hok)
  | refused => cases hok
  | interrupted => cases hok

theorem record_of_directorySink_eq {host : Host}
    (h : directorySink directory a host s = (.ok (), s')) (written : List Path) :
    (ArtifactStore.mk directory written).record s.tree a =
      (⟨directory, written ++ [(ArtifactStore.mk directory []).path a]⟩, s'.tree, none) := by
  have hpath : (ArtifactStore.mk directory written).path a =
      (ArtifactStore.mk directory []).path a := rfl
  rw [directorySink_eq, ArtifactStore.record] at h
  rw [ArtifactStore.record, hpath]
  rcases hwrite : a.write s.tree ((ArtifactStore.mk directory []).path a) with ⟨t', _ | e⟩ <;>
    rw [hwrite] at h
  · cases h
    rfl
  · cases h

/-- A run with a directory sink records its artifacts in the store of the directory. -/
theorem Runs.exists_recordAll (h : b.Runs (directorySink directory) t vs s outcomes (.ok ()) s')
    (written : List Path) :
    ∃ store, (ArtifactStore.mk directory written).recordAll s.tree
      (BuildReport.of outcomes).artifacts = (store, s'.tree, none) := by
  generalize hok : (Except.ok () : Except Interruption Unit) = ending at h
  induction h generalizing written with
  | done => exact ⟨_, rfl⟩
  | skipped _ _ ih =>
    obtain ⟨store, hrest⟩ := ih written hok
    rw [tree_extend] at hrest
    exact ⟨store, hrest⟩
  | @handed _ _ _ _ _ a _ more _ _ hsink _ ih =>
    have hrecord := record_of_directorySink_eq hsink written
    rw [tree_extend] at hrecord
    obtain ⟨store, hrest⟩ := ih _ hok
    refine ⟨store, ?_⟩
    show (ArtifactStore.mk directory written).recordAll _ (a :: (BuildReport.of more).artifacts) = _
    rw [ArtifactStore.recordAll, hrecord]
    exact hrest
  | refused => cases hok
  | interrupted => cases hok

/-! ### Different files -/

/-- A file below the root of the project, which is a directory. -/
structure IsBelow (b : Setup) (t : FileTree) (v : Visit) : Prop where
  file : ∃ content, t.lookup v.2 = some (.file content)
  root : t.lookup (t.resolve b.root) = some .directory

theorem Makes.relative_ne_nil (h : b.Makes t v a) (hv : b.IsBelow t v) : b.relative t v ≠ [] := by
  intro hnil
  obtain ⟨content, hfile⟩ := hv.file
  rw [h.place, hnil, List.append_nil, hv.root] at hfile
  cases hfile

theorem Makes.isFileName (ht : t.IsProper) (h : b.Makes t v a) (hv : b.IsBelow t v) :
    ∀ name ∈ b.relative t v, IsFileName name := by
  intro name hname
  obtain ⟨content, hfile⟩ := hv.file
  refine ht.names _ (mem_of_lookup_file hfile) name ?_
  rw [h.place]
  exact List.mem_append_right _ hname

/-- The way to a file is read off from the name of its artifact. -/
theorem Makes.pieces_sourceName (ht : t.IsProper) (h : b.Makes t v a) (hv : b.IsBelow t v) :
    Path.pieces a.sourceName = b.relative t v := by
  have hne := h.relative_ne_nil hv
  have htext : Path.text ⟨[], b.relative t v⟩ = joinWith ['/'] (b.relative t v) := by
    simp [Path.text, hne]
  rw [h.sourceName, htext]
  exact Path.pieces_joinWith hne fun name hname ↦ (h.isFileName ht hv name hname).2.1

theorem Makes.named (ht : t.IsProper) (h : b.Makes t v a) (hv : b.IsBelow t v) : a.Named where
  sourceName name hname := by
    rw [h.pieces_sourceName ht hv] at hname
    have hfile := h.isFileName ht hv name hname
    exact ⟨hfile.1, hfile.2.2⟩
  contractName := h.contractName

/-! ### The artifacts of a run -/

/-- Files below the root of the project, no two in one place, and the artifacts that come of
them. -/
structure MakesOnce (b : Setup) (t : FileTree) (vs : List Visit) (artifacts : List Artifact) :
    Prop where
  makes : List.Forall₂ (b.Makes t) vs artifacts
  below : ∀ v ∈ vs, b.IsBelow t v
  nodup : (vs.map (·.2)).Nodup

namespace MakesOnce

variable (ht : t.IsProper) (h : b.MakesOnce t vs artifacts)

include ht h

theorem named (ha : a ∈ artifacts) : a.Named := by
  obtain ⟨v, hv, hmakes⟩ := exists_mem_of_mem_right h.makes ha
  exact hmakes.named ht (h.below v hv)

/-- **Artifacts of different files have different names.** -/
theorem nodup_sourceName : (artifacts.map Artifact.sourceName).Nodup := by
  have hplaces : vs.map (·.2) = (vs.map (b.relative t)).map (t.resolve b.root ++ ·) := by
    rw [List.map_map]
    refine List.map_congr_left fun v hv ↦ ?_
    obtain ⟨a, -, hmakes⟩ := exists_mem_of_mem_left h.makes hv
    exact hmakes.place
  have hpieces : List.Forall₂ Eq (vs.map (b.relative t))
      ((artifacts.map Artifact.sourceName).map Path.pieces) := by
    rw [List.forall₂_map_left_iff, List.forall₂_map_right_iff, List.forall₂_map_right_iff]
    exact ((List.forall₂_and_left vs artifacts).2 ⟨h.below, h.makes⟩).imp fun v a hva ↦
      (hva.2.pieces_sourceName ht hva.1).symm
  rw [List.forall₂_eq_eq_eq] at hpieces
  refine List.Nodup.of_map Path.pieces ?_
  rw [← hpieces]
  exact List.Nodup.of_map _ (hplaces ▸ h.nodup)

/-- No artifact belongs on the way to another one. -/
theorem separate : Separate artifacts := by
  intro a ha a' ha' hprefix
  obtain ⟨v, hv, hmakes⟩ := exists_mem_of_mem_right h.makes ha
  obtain ⟨w, hw, hmakes'⟩ := exists_mem_of_mem_right h.makes ha'
  rw [hmakes.pieces_sourceName ht (h.below v hv),
    hmakes'.pieces_sourceName ht (h.below w hw)] at hprefix
  obtain ⟨content, hfile⟩ := (h.below v hv).file
  obtain ⟨content', hfile'⟩ := (h.below w hw).file
  have hplace : v.2 <+: w.2 := by
    rw [hmakes.place, hmakes'.place]
    exact (List.prefix_append_right_inj _).2 hprefix
  have hsame : v.2 = w.2 := ht.eq_of_prefix hfile (mem_of_lookup_file hfile') hplace
  rw [hmakes.sourceName, hmakes'.sourceName, relative, relative, hsame]

/-- **What was recorded for one file is not lost to another one.** -/
theorem readBytes_eq {t' : FileTree} {store store' : ArtifactStore}
    (hrecord : store.recordAll t artifacts = (store', t', none))
    (ho : t.Opens store.directory.parts l) (hempty : t.below l = []) (ha : a ∈ artifacts) :
    t'.readBytes (store.path a) = .ok (Utf8.encode a.serialize) := by
  have hsep : Separate artifacts := h.separate ht
  obtain ⟨t'', hall, hholds, ho'⟩ := (ArtifactStore.holds_nil hempty).exists_recordAll ho
    (fun _ ha ↦ h.named ht ha) (by simpa using hsep)
  cases hrecord.symm.trans hall
  rw [List.nil_append] at hholds
  obtain ⟨last, hlast⟩ := ArtifactStore.exists_last ha
  have hsame : last = a := by
    have hmem : last ∈ artifacts := List.mem_reverse.1 (List.mem_of_find?_eq_some hlast)
    have hname := List.find?_some hlast
    rw [decide_eq_true_iff] at hname
    exact List.inj_on_of_nodup_map (h.nodup_sourceName ht) hmem ha hname
  have hfile := hholds.below _ (show recordOf a.sourceName ≠ [] by simp [recordOf])
  rw [ArtifactStore.contents_recordOf hlast, hsame] at hfile
  rw [readBytes_eq_ok_iff, entry?_eq_some_iff]
  exact ⟨_, hholds.walk_path ho' hsep ha (h.named ht ha), hfile⟩

end MakesOnce

/-! ### The visited files -/

theorem map_visited (b : Setup) (t : FileTree) :
    (b.visited t Dialect.all).map (·.2) = Dialect.all.flatMap (t.findSources b.sources) := by
  rw [visited, List.map_flatMap]
  exact List.flatMap_congr fun d _ ↦ by simp [Function.comp_def]

theorem exists_file_of_mem_visited (hv : v ∈ b.visited t Dialect.all) :
    ∃ content, t.lookup v.2 = some (.file content) := by
  obtain ⟨d, -, hd⟩ := List.mem_flatMap.1 hv
  obtain ⟨l, hl, rfl⟩ := List.mem_map.1 hd
  exact exists_file_of_mem_findSources hl

end

end Setup

/-! ### Two projects -/

namespace Sample

/-- The project with an empty directory for its artifacts. -/
abbrev opened : FileTree :=
  tree [(target [], .directory)]

/-- The project with one more entry among its sources, a link to the first one. -/
abbrev linked : FileTree :=
  tree [((source "c.yul").location, .link (source "a.yul").location)]

variable {r : ProcessResult} {t : FileTree} {a : Artifact} {s : Session}

theorem isProper_opened : opened.IsProper :=
  ⟨by decide, by decide, by decide, by decide⟩

theorem isProper_linked : linked.IsProper :=
  ⟨by decide, by decide, by decide, by decide⟩

theorem opens_opened : opened.Opens (directory.joinText config.artifacts).parts (target []) :=
  ⟨walkFrom_eq_ok_iff.mp (by cbv), by decide⟩

theorem sameSources_opened : (setup r t).SameSources Dialect.all start opened :=
  sameSources_of_readSource_eq (fun d ↦ by cases d <;> cbv) ⟨by cbv, by cbv⟩ ⟨by cbv, by cbv⟩

theorem exists_sink_eq_opened (hsource : a.sourceName = (source "a.yul").sourceName)
    (hcontract : a.contractName = (source "a.yul").contractName)
    (hs : s.tree = opened ∨ Unchanged s.tree) :
    ∃ s', sink a (host r) s = (.ok (), s') ∧ Unchanged s'.tree := by
  rcases hs with hs | hs
  · have hdirectories : opened.ensureDirectories
        (Path.ofLocation (target ["contracts", "a.yul", "a.json"])).parent =
          (built [], none) := by cbv
    exact exists_sink_eq_of_writeBytes hsource hcontract hs hdirectories fun _ ↦ by cbv
  · exact exists_sink_eq hsource hcontract hs

theorem spares_opened : (setup answer t).Spares sink Dialect.all opened
    fun t' ↦ t' = opened ∨ Unchanged t' where
  initial := .inl rfl
  same t' ht' := by
    rcases ht' with rfl | ht'
    · exact .refl _ _ _
    · exact sameSources_opened.of_common (spares.same t' ht')
  kept v hv a tr h s s' hs hsink := by
    obtain ⟨hsource, hcontract⟩ := names_of_alone_eq_of_same sameSources_opened hv h
    obtain ⟨_, htaken, hs'⟩ := exists_sink_eq_opened (r := answer) hsource hcontract hs
    cases htaken.symm.trans hsink
    exact .inr hs'

/-- The build of the project comes to its end. -/
theorem exists_build_opened : ∃ report s',
    (setup answer t).build sink Dialect.all { tree := opened } = (.ok report, s') := by
  obtain ⟨outcomes, ending, s', hruns, hbuild⟩ :=
    Setup.runs_build (s := { tree := opened }) isStateless_setup (spares_opened (t := t))
  obtain rfl : ending = .ok () := by
    refine hruns.eq_ok spares_opened (fun v hv a tr h s hs ↦ ?_)
      (fun v hv source hlocated _ ↦
        compiled_ne_interrupted_of_same sameSources_opened hv hlocated)
      (fun _ hv ↦ hv) (spares_opened (t := t)).initial
    obtain ⟨hsource, hcontract⟩ := names_of_alone_eq_of_same sameSources_opened hv h
    obtain ⟨s', hsink, -⟩ := exists_sink_eq_opened (r := answer) hsource hcontract hs
    exact ⟨s', hsink⟩
  exact ⟨_, s', hbuild⟩

theorem visited_opened : (setup r t).visited opened Dialect.all =
    [(.yul, (source "a.yul").location), (.yul, (source "b.yul").location)] :=
  sameSources_opened.visited_eq.trans visited_start

/-- The link is found in the place of the file that it leads to. -/
theorem visited_linked : (setup r t).visited linked Dialect.all =
    [(.yul, (source "a.yul").location), (.yul, (source "a.yul").location),
      (.yul, (source "b.yul").location)] := by
  cbv

theorem alone_linked {v : Visit} (hv : v ∈ (setup r t).visited start Dialect.all) :
    (setup r t).alone linked v = (setup r t).alone start v := by
  refine Setup.ReadsAlike.alone_eq ?_ isStateless_setup
  obtain ⟨rfl, h⟩ | ⟨rfl, h⟩ := eq_of_mem_visited hv
  · refine ⟨by cbv, fun source hsource ↦ ?_⟩
    cases h.symm.trans hsource
    cbv
  · refine ⟨by cbv, fun source hsource ↦ ?_⟩
    cases h.symm.trans hsource
    cbv

/-- The artifact of the first source is made twice. -/
theorem exists_build_linked : ∃ a f s',
    (setup answer t).build memorySink Dialect.all { tree := linked } =
      (.ok ⟨[a, a], [f]⟩, s') := by
  obtain ⟨a, _, hfirst⟩ := exists_alone_first (t := t)
  obtain ⟨f, _, hsecond⟩ := exists_alone_second (r := answer) (t := t)
  rw [← alone_linked (by simp [visited_start])] at hfirst hsecond
  have htaken : ∀ s, memorySink a (setup answer t).host s =
      (.ok (), s.extend ⟨[.store a.sourceName], [], []⟩) := Yields.note _
  have hruns : ∃ s', (setup answer t).Runs memorySink linked
      ((setup answer t).visited linked Dialect.all) { tree := linked }
      [.ok a, .ok a, .error f] (.ok ()) s' := by
    rw [visited_linked]
    exact ⟨_, .handed hfirst (htaken _) (.handed hfirst (htaken _) (.skipped hsecond .done))⟩
  obtain ⟨s', hruns⟩ := hruns
  have hbuild := Setup.build_eq_of_runs (s := { tree := linked }) isStateless_setup
    (Setup.spares_memorySink _ _ _) hruns
  exact ⟨a, f, s', hbuild⟩

end Sample

/-! ### Once or twice -/

/-- **A build compiles no file twice exactly if its sources do not repeat.** Its report then counts
the files, and none of its artifacts is written over another one. -/
theorem Setup.build_compilesOnce {b : Setup} {t : FileTree} (ht : t.IsProper) :
    (((b.visited t Dialect.all).map (·.2)).Nodup ↔ ¬ t.Repeats b.sources) ∧
    ∀ (sink : Sink) (invariant : FileTree → Prop) (s s' : Session) (report : BuildReport),
      s.tree = t → b.provider.IsStateless → b.Spares sink Dialect.all t invariant →
      b.build sink Dialect.all s = (.ok report, s') →
      (report.artifacts.length + report.failures.length = (b.visitedFiles t).card ↔
        ¬ t.Repeats b.sources) ∧
      (¬ t.Repeats b.sources → report.artifacts.length = (b.compiledFiles t).card ∧
        (t.isDirectory b.root = true → (report.artifacts.map Artifact.sourceName).Nodup ∧
          ∀ directory l, sink = directorySink directory → t.Opens directory.parts l →
            t.below l = [] → ∀ a ∈ report.artifacts,
              s'.tree.readBytes ((ArtifactStore.mk directory []).path a) =
                .ok (Utf8.encode a.serialize))) := by
  have hnodup : ((b.visited t Dialect.all).map (·.2)).Nodup ↔ ¬ t.Repeats b.sources := by
    rw [Setup.map_visited]
    exact ht.nodup_findSources_iff b.sources
  refine ⟨hnodup, ?_⟩
  rintro sink invariant s s' report rfl hprovider hspares hbuild
  obtain ⟨outcomes, ending, s'', hruns, hbuild'⟩ := Setup.runs_build hprovider hspares
  rw [hbuild'] at hbuild
  obtain rfl : ending = .ok () := by
    cases ending with
    | ok => rfl
    | error cause => cases hbuild
  cases hbuild
  have hmakes := hruns.forall₂_makes fun v hv ↦
    have ⟨_, hfile⟩ := Setup.exists_file_of_mem_visited hv
    ht.resolve_file hfile
  refine ⟨?_, fun hrepeats ↦ ?_⟩
  · rw [BuildReport.length_of, ← hruns.forall₂_gives.length_eq, ← hnodup, eq_comm,
      ← List.length_map (·.2)]
    exact Multiset.toFinset_card_eq_card_iff_nodup
  have honce : (((b.visited s.tree Dialect.all).filter (b.makesArtifact s.tree)).map
      (·.2)).Nodup := (hnodup.2 hrepeats).sublist (List.filter_sublist.map _)
  refine ⟨?_, fun hroot ↦ ?_⟩
  · rw [Setup.compiledFiles, List.toFinset_card_of_nodup honce, List.length_map,
      hmakes.length_eq]
  · have hmakesOnce : b.MakesOnce s.tree
        ((b.visited s.tree Dialect.all).filter (b.makesArtifact s.tree))
        (BuildReport.of outcomes).artifacts := by
      refine ⟨hmakes, fun v hv ↦ ⟨?_, lookup_resolve_of_isDirectory hroot⟩, honce⟩
      exact Setup.exists_file_of_mem_visited (List.mem_of_mem_filter hv)
    refine ⟨hmakesOnce.nodup_sourceName ht, ?_⟩
    rintro directory l rfl ho hempty a ha
    obtain ⟨store, hrecord⟩ := hruns.exists_recordAll []
    exact hmakesOnce.readBytes_eq ht hrecord ho hempty ha

/-- A project with an empty directory for its artifacts, and no link among its sources. -/
theorem Setup.build_compilesOnce_opened :
    Sample.opened.IsProper ∧
      ∃ report s', (Sample.setup Sample.answer Sample.opened).build Sample.sink Dialect.all
          { tree := Sample.opened } = (.ok report, s') ∧
        report.artifacts.length + report.failures.length = 2 ∧
        (report.artifacts.map Artifact.sourceName).Nodup ∧
        ∀ a ∈ report.artifacts, s'.tree.readBytes
          ((ArtifactStore.mk (Sample.directory.joinText Sample.config.artifacts) []).path a) =
            .ok (Utf8.encode a.serialize) := by
  obtain ⟨report, s', hbuild⟩ := Sample.exists_build_opened (t := Sample.opened)
  obtain ⟨hnodup, hreport⟩ :=
    Setup.build_compilesOnce (b := Sample.setup Sample.answer Sample.opened) Sample.isProper_opened
  have hrepeats := hnodup.1 (by rw [Sample.visited_opened]; decide)
  obtain ⟨hcount, hartifacts⟩ := hreport Sample.sink _ { tree := Sample.opened } s' report rfl
    Sample.isStateless_setup Sample.spares_opened hbuild
  obtain ⟨-, hnames⟩ := hartifacts hrepeats
  obtain ⟨hnodup', hread⟩ := hnames (by cbv)
  refine ⟨Sample.isProper_opened, report, s', hbuild, ?_, hnodup',
    hread _ _ rfl Sample.opens_opened (by decide)⟩
  rw [hcount.2 hrepeats, Setup.visitedFiles, Sample.visited_opened]
  decide

/-- Two files and a link to one of them: one file is compiled twice, and three are counted. -/
theorem Setup.build_compilesTwice_linked :
    Sample.linked.IsProper ∧
      ¬ (((Sample.setup Sample.answer Sample.linked).visited Sample.linked Dialect.all).map
        (·.2)).Nodup ∧
      ((Sample.setup Sample.answer Sample.linked).visitedFiles Sample.linked).card = 2 ∧
      ∃ a f s', (Sample.setup Sample.answer Sample.linked).build memorySink Dialect.all
          { tree := Sample.linked } = (.ok ⟨[a, a], [f]⟩, s') := by
  refine ⟨Sample.isProper_linked, ?_, ?_, Sample.exists_build_linked⟩
  · rw [Sample.visited_linked]
    decide
  · rw [Setup.visitedFiles, Sample.visited_linked]
    decide

end YulPlus
