import YulPlus.Proofs.Project.Loading

/-!
# Setting up a project

A project is set up in two steps: its configuration is written, and the directory of its sources is
made. The command looks for a configuration before the first step, and does not replace one; it does
not look at what has the name of the source directory before the second.

So there is one way to stop halfway (`Obstructed`): the configuration can be written, and what has
the name of the source directory is no directory. The command does all of its work or none exactly
if this is not so (`CommandLine.init_outcome`). Where it is, the configuration stays behind, and the
command is refused from then on. -/

namespace YulPlus

open Text Session

namespace CommandLine

/-- The configuration file of a project. -/
def configPath (directory : Path) : Path :=
  directory.joinText ProjectConfig.fileName

/-- The name of the directory that is made for the sources of a project. -/
def sourcesName : Text := "contracts".toList

/-- The directory that is made for the sources of a project. -/
def sourcesPath (directory : Path) : Path :=
  directory.joinText sourcesName

/-- The second tree is the first one with a new project: its configuration can be read and its
source directory is there, and what has changed are these two places, where nothing stood. -/
structure SetsUp (t t' : FileTree) (directory : Path) (version : Text) : Prop where
  config : t'.readBytes (configPath directory) =
    .ok (Utf8.encode (ProjectConfig.defaultText version))
  sources : t'.isDirectory (sourcesPath directory) = true
  other : ∀ l, t'.lookup l ≠ t.lookup l → t.lookup l = none ∧
    (t'.walk true (configPath directory) = .ok l ∨ t'.walk true (sourcesPath directory) = .ok l)

/-- Nothing stands where the configuration is going to be written, but something stands where the
source directory is going to be made, at the latest the configuration, and it is no directory. -/
structure Obstructed (t : FileTree) (directory : Path) (l : Location) : Prop where
  opened : t.isDirectory directory = true
  config : t.walk true (configPath directory) = .ok l
  free : t.lookup l = none
  taken : ∃ m, t.walk false (sourcesPath directory) = .ok m ∧ (m = l ∨ t.lookup m ≠ none)
  sources : t.isDirectory (sourcesPath directory) = false

section

variable {directory : Path} {version text : Text} {host : Host} {s : Session} {t t₁ : FileTree}
  {l d : Location} {content : List UInt8}

theorem sourcesPath_eq (directory : Path) :
    sourcesPath directory = ⟨directory.root, directory.parts ++ [sourcesName]⟩ := rfl

/-! ### The command that sets up a project -/

theorem requireTree_eq (outcome : Except FileError FileTree) (host : Host) (s : Session) :
    requireTree outcome host s =
      match outcome with
      | .error e => (.error (.file e), s)
      | .ok t => (.ok (), { s with tree := t }) := by
  cases outcome <;> rfl

/-- Without a directory, or with a configuration, nothing is done. -/
theorem runInit_refused
    (h : s.tree.contains directory = false ∨ s.tree.contains (configPath directory) = true)
    (version : Text) (host : Host) :
    ∃ line, runInit directory version host s = (.ok 1, { s with errors := s.errors ++ line }) := by
  cases hdirectory : s.tree.contains directory with
  | false =>
    simp only [runInit, bind_action_eq, get_action_eq, hdirectory, Bool.not_false, if_true]
    exact ⟨_, by rw [← List.append_assoc]; rfl⟩
  | true =>
    have hconfig := h.resolve_left (by simp [hdirectory])
    rw [configPath] at hconfig
    simp only [runInit, bind_action_eq, get_action_eq, hdirectory, hconfig, Bool.not_true,
      Bool.false_eq_true, if_false, if_true]
    exact ⟨_, by rw [← List.append_assoc]; rfl⟩

/-- Otherwise the two steps are taken one after the other. -/
theorem runInit_eq (hdirectory : s.tree.contains directory = true)
    (hconfig : s.tree.contains (configPath directory) = false) :
    runInit directory version host s =
      match s.tree.writeText (configPath directory) (ProjectConfig.defaultText version) with
      | .error e => (.error (.file e), s)
      | .ok t₁ =>
        match t₁.ensureDirectory (sourcesPath directory) with
        | .error e => (.error (.file e), { s with tree := t₁ })
        | .ok t₂ => (.ok 0, { s with
            tree := t₂
            output := s.output ++ ("Initialized yulbuild project at '".toList ++
              (configPath directory).text ++ "'.".toList) ++ ['\n'] }) := by
  have hpath : directory.joinText ProjectConfig.fileName = configPath directory := rfl
  have hsources : directory.joinText "contracts".toList = sourcesPath directory := rfl
  rw [runInit, hpath, hsources]
  simp only [bind_action_eq, get_action_eq, requireTree_eq, hdirectory, hconfig,
    Bool.not_true, Bool.false_eq_true, if_false]
  rcases s.tree.writeText (configPath directory) (ProjectConfig.defaultText version) with e | t₁
  · rfl
  · cases hmade : t₁.ensureDirectory (sourcesPath directory) with
    | error e => simp only [hmade]
    | ok t₂ => simp only [hmade]; rfl

/-- The first step puts the configuration where nothing stood. -/
theorem exists_of_writeText (hdirectory : t.contains directory = true)
    (hconfig : t.contains (configPath directory) = false)
    (h : t.writeText (configPath directory) text = .ok t₁) :
    ∃ d l, t.Opens directory.parts d ∧ t.walk true (configPath directory) = .ok l ∧
      t.lookup l = none ∧ t₁ = t.insert l (.file (Utf8.encode text)) := by
  obtain ⟨l, hleads, -, rfl, -⟩ := FileTree.exists_of_writeBytes h
  obtain ⟨d, ho⟩ := FileTree.opens_of_leads_concat hdirectory hleads
  have hwalk : t.walk true (configPath directory) = .ok l := FileTree.walk_eq_ok_iff.mpr hleads
  have hfree : t.lookup l = none := by
    by_contra hthere
    rw [FileTree.contains_iff.mpr ⟨l, hwalk, hthere⟩] at hconfig
    cases hconfig
  exact ⟨d, l, ho, hwalk, hfree, rfl⟩

/-- The second step makes the source directory, or finds it, or finds that it is obstructed. -/
theorem ensureDirectory_eq (ho : t.Opens directory.parts d) (hfree : t.lookup l = none)
    (content : List UInt8) :
    (t.insert l (.file content)).ensureDirectory (sourcesPath directory) =
      if d ++ [sourcesName] ≠ l ∧ t.lookup (d ++ [sourcesName]) = none then
        .ok ((t.insert l (.file content)).insert (d ++ [sourcesName]) .directory)
      else if t.isDirectory (sourcesPath directory) then .ok (t.insert l (.file content))
      else .error ⟨.exists_, sourcesPath directory⟩ := by
  have hkeeps := FileTree.keeps_insert_file hfree content
  have hnone : (t.insert l (.file content)).lookup (d ++ [sourcesName]) = none ↔
      d ++ [sourcesName] ≠ l ∧ t.lookup (d ++ [sourcesName]) = none := by
    rw [FileTree.lookup_insert t (FileTree.ne_nil_of_lookup_eq_none hfree)]
    split <;> simp_all
  rw [sourcesPath_eq, FileTree.ensureDirectory_concat (hkeeps.opens ho) (by decide),
    FileTree.isDirectory_insert_file hfree]
  simp only [hnone]

theorem obstructed_iff (ho : t.Opens directory.parts d)
    (hwalk : t.walk true (configPath directory) = .ok l) (hfree : t.lookup l = none) :
    Obstructed t directory l ↔
      ¬(d ++ [sourcesName] ≠ l ∧ t.lookup (d ++ [sourcesName]) = none) ∧
        t.isDirectory (sourcesPath directory) = false := by
  have hplace : t.walk false (sourcesPath directory) = .ok (d ++ [sourcesName]) := by
    rw [FileTree.walk, sourcesPath_eq, ho.walkFrom_concat (by decide)]
  constructor
  · rintro ⟨-, -, -, ⟨m, hm, htaken⟩, hsources⟩
    obtain rfl := Except.ok.inj (hplace.symm.trans hm)
    exact ⟨by tauto, hsources⟩
  · rintro ⟨htaken, hsources⟩
    exact ⟨FileTree.isDirectory_iff.mpr ⟨d, ho⟩, hwalk, hfree, ⟨_, hplace, by tauto⟩, hsources⟩

/-- The project is set up if the configuration stays and nothing else changes than its source
directory. -/
theorem SetsUp.of_insert {t₂ : FileTree} (hwalk : t.walk true (configPath directory) = .ok l)
    (hfree : t.lookup l = none) (hkeeps : FileTree.Keeps t t₂)
    (hconfig : t₂.lookup l = some (.file (Utf8.encode (ProjectConfig.defaultText version))))
    (hsources : t₂.isDirectory (sourcesPath directory) = true)
    (hother : ∀ k, k ≠ l → t₂.lookup k ≠ t.lookup k →
      t.lookup k = none ∧ t₂.walk true (sourcesPath directory) = .ok k) :
    SetsUp t t₂ directory version := by
  have hwalk₂ : t₂.walk true (configPath directory) = .ok l :=
    FileTree.walk_eq_ok_iff.mpr (hkeeps.leads (FileTree.walk_eq_ok_iff.mp hwalk))
  have hread : t₂.entry? (configPath directory) = some (.file _) :=
    FileTree.entry?_eq_some_iff.mpr ⟨l, hwalk₂, hconfig⟩
  refine ⟨FileTree.readBytes_eq_ok_iff.mpr hread, hsources, fun k hk ↦ ?_⟩
  rcases eq_or_ne k l with rfl | hne
  · exact ⟨hfree, .inl hwalk₂⟩
  · exact (hother k hne hk).imp_right .inr

/-- Both steps together set up the project. -/
theorem setsUp_insert (ho : t.Opens directory.parts d)
    (hwalk : t.walk true (configPath directory) = .ok l) (hfree : t.lookup l = none)
    (hne : d ++ [sourcesName] ≠ l) (hnone : t.lookup (d ++ [sourcesName]) = none) :
    SetsUp t ((t.insert l (.file (Utf8.encode (ProjectConfig.defaultText version)))).insert
      (d ++ [sourcesName]) .directory) directory version := by
  set t₁ := t.insert l (.file (Utf8.encode (ProjectConfig.defaultText version))) with ht₁
  have hnone₁ : t₁.lookup (d ++ [sourcesName]) = none := by
    rwa [ht₁, FileTree.lookup_insert_of_ne t hne]
  have hkeeps : FileTree.Keeps t (t₁.insert (d ++ [sourcesName]) .directory) :=
    (FileTree.keeps_insert_file hfree _).trans
      (FileTree.Vacant.keeps_insert (.inl hnone₁) (by simp) (by simp))
  have hopens : (t₁.insert (d ++ [sourcesName]) .directory).Opens (sourcesPath directory).parts
      (d ++ [sourcesName]) := by
    rw [sourcesPath_eq]
    exact (hkeeps.opens ho).concat (by decide) (FileTree.lookup_insert_self t₁ (by simp) _)
  refine .of_insert hwalk hfree hkeeps ?_ (FileTree.isDirectory_iff.mpr ⟨_, hopens⟩) ?_
  · rw [FileTree.lookup_insert_of_ne t₁ hne.symm,
      FileTree.lookup_insert_self t (FileTree.ne_nil_of_lookup_eq_none hfree)]
  · intro k hkl hk
    rcases eq_or_ne k (d ++ [sourcesName]) with rfl | hkd
    · exact ⟨hnone, FileTree.walk_eq_ok_iff.mpr hopens.leads⟩
    · rw [FileTree.lookup_insert_of_ne t₁ hkd, FileTree.lookup_insert_of_ne t hkl] at hk
      exact absurd rfl hk

/-- The first step alone sets up the project where the source directory is there. -/
theorem setsUp_insert_file (hwalk : t.walk true (configPath directory) = .ok l)
    (hfree : t.lookup l = none) (hsources : t.isDirectory (sourcesPath directory) = true) :
    SetsUp t (t.insert l (.file (Utf8.encode (ProjectConfig.defaultText version)))) directory
      version := by
  have hlookup := FileTree.lookup_insert_self t (FileTree.ne_nil_of_lookup_eq_none hfree)
  refine .of_insert hwalk hfree (FileTree.keeps_insert_file hfree _) (hlookup _) ?_
    fun k hk hchanged ↦ ?_
  · rwa [FileTree.isDirectory_insert_file hfree]
  · exact absurd (FileTree.lookup_insert_of_ne t hk _) hchanged

/-- A directory with a configuration stays one, so the command is refused there. -/
theorem runInit_again (hwalk : t.walk true (configPath directory) = .ok l)
    (hfree : t.lookup l = none) (hs : s.tree = t.insert l (.file content)) :
    ∃ line, runInit directory version host s = (.ok 1, { s with errors := s.errors ++ line }) := by
  have hkeeps := FileTree.keeps_insert_file hfree content
  refine runInit_refused (.inr (FileTree.contains_iff.mpr ⟨l, ?_, ?_⟩)) version host
  · rw [hs]
    exact FileTree.walk_eq_ok_iff.mpr (hkeeps.leads (FileTree.walk_eq_ok_iff.mp hwalk))
  · simp [hs, FileTree.lookup_insert_self t (FileTree.ne_nil_of_lookup_eq_none hfree)]

/-- Where the configuration can be written, the outcome is that of the second step. -/
theorem runInit_of_free (ho : s.tree.Opens directory.parts d)
    (hwalk : s.tree.walk true (configPath directory) = .ok l) (hfree : s.tree.lookup l = none)
    (version : Text) (host : Host) :
    runInit directory version host s =
      let t₁ := s.tree.insert l (.file (Utf8.encode (ProjectConfig.defaultText version)))
      match t₁.ensureDirectory (sourcesPath directory) with
      | .error e => (.error (.file e), { s with tree := t₁ })
      | .ok t₂ => (.ok 0, { s with
          tree := t₂
          output := s.output ++ ("Initialized yulbuild project at '".toList ++
            (configPath directory).text ++ "'.".toList) ++ ['\n'] }) := by
  have hconfig : s.tree.contains (configPath directory) = false := by
    simp [FileTree.contains, FileTree.entry?, hwalk, hfree]
  have hwrite (content : List UInt8) : s.tree.writeBytes (configPath directory) content =
      .ok (s.tree.insert l (.file content)) := by
    simp only [FileTree.writeBytes, hwalk, hfree]
  rw [runInit_eq ho.contains hconfig, FileTree.writeText, hwrite]

/-- **Where the source directory is obstructed, the command stops halfway.** -/
theorem Obstructed.runInit_eq (h : Obstructed s.tree directory l) (version : Text) (host : Host) :
    runInit directory version host s = (.error (.file ⟨.exists_, sourcesPath directory⟩),
      { s with
        tree := s.tree.insert l (.file (Utf8.encode (ProjectConfig.defaultText version))) }) := by
  obtain ⟨d, ho⟩ := FileTree.isDirectory_iff.mp h.opened
  obtain ⟨htaken, hsources⟩ := (obstructed_iff ho h.config h.free).mp h
  rw [runInit_of_free ho h.config h.free]
  simp only [ensureDirectory_eq ho h.free, if_neg htaken,
    hsources, Bool.false_eq_true, if_false]

/-- **Elsewhere it takes both steps or none.** -/
theorem runInit_of_not_obstructed (h : ∀ l, ¬Obstructed s.tree directory l)
    {outcome : Except Interruption Nat} {s' : Session}
    (hrun : runInit directory version host s = (outcome, s')) :
    outcome = .ok 0 ∧ SetsUp s.tree s'.tree directory version ∨
      outcome ≠ .ok 0 ∧ s'.tree = s.tree := by
  by_cases hrefused : s.tree.contains directory = false ∨
      s.tree.contains (configPath directory) = true
  · obtain ⟨line, heq⟩ := runInit_refused hrefused version host
    obtain ⟨rfl, rfl⟩ := Prod.mk.inj (heq.symm.trans hrun)
    exact .inr ⟨by simp, rfl⟩
  simp only [not_or, Bool.not_eq_true, Bool.not_eq_false] at hrefused
  obtain ⟨hdirectory, hconfig⟩ := hrefused
  rw [CommandLine.runInit_eq hdirectory hconfig] at hrun
  cases hwrite : s.tree.writeText (configPath directory) (ProjectConfig.defaultText version) with
  | error e =>
    rw [hwrite] at hrun
    obtain ⟨rfl, rfl⟩ := Prod.mk.inj hrun
    exact .inr ⟨nofun, rfl⟩
  | ok t₁ =>
    obtain ⟨d, l, ho, hwalk, hfree, rfl⟩ := exists_of_writeText hdirectory hconfig hwrite
    have hnot := mt (obstructed_iff ho hwalk hfree).mpr (h l)
    simp only [hwrite, ensureDirectory_eq ho hfree] at hrun
    by_cases hnew : d ++ [sourcesName] ≠ l ∧ s.tree.lookup (d ++ [sourcesName]) = none
    · rw [if_pos hnew] at hrun
      obtain ⟨rfl, rfl⟩ := Prod.mk.inj hrun
      exact .inl ⟨rfl, setsUp_insert ho hwalk hfree hnew.1 hnew.2⟩
    · have hsources : s.tree.isDirectory (sourcesPath directory) = true := by
        simpa [hnew] using hnot
      rw [if_neg hnew, hsources] at hrun
      obtain ⟨rfl, rfl⟩ := Prod.mk.inj hrun
      exact .inl ⟨rfl, setsUp_insert_file hwalk hfree hsources⟩

/-- The command works in the directory that its argument names. -/
theorem run_init_eq (current : Path) (argument version : Text) (host : Host) (s : Session) :
    (Task.init argument version).run current host s =
      runInit (Path.ofLocation (s.tree.resolve (current.joinText argument))) version host s := rfl

end

/-- **A project is set up completely or not at all, exactly if it is not obstructed.** Where it is,
the command fails on the source directory, the configuration is left behind, and the command is
refused whenever it is tried again. -/
theorem init_outcome (current : Path) (argument version : Text) (host : Host) {directory : Path}
    {s s' : Session} {outcome : Except Interruption Nat}
    (hdirectory : directory = Path.ofLocation (s.tree.resolve (current.joinText argument)))
    (hrun : (Task.init argument version).run current host s = (outcome, s')) :
    ((outcome = .ok 0 ∧ SetsUp s.tree s'.tree directory version ∨
        outcome ≠ .ok 0 ∧ s'.tree = s.tree) ↔ ∀ l, ¬Obstructed s.tree directory l) ∧
      ∀ l, Obstructed s.tree directory l →
        outcome = .error (.file ⟨.exists_, sourcesPath directory⟩) ∧
        s'.tree = s.tree.insert l (.file (Utf8.encode (ProjectConfig.defaultText version))) ∧
        ∀ version', ∃ line, (Task.init argument version').run current host s' =
          (.ok 1, { s' with errors := s'.errors ++ line }) := by
  subst hdirectory
  rw [run_init_eq] at hrun
  refine ⟨⟨fun hall l hl ↦ ?_, fun h ↦ runInit_of_not_obstructed h hrun⟩, fun l hl ↦ ?_⟩
  · obtain ⟨rfl, rfl⟩ := Prod.mk.inj ((hl.runInit_eq version host).symm.trans hrun)
    rcases hall with ⟨hok, -⟩ | ⟨-, hsame⟩
    · cases hok
    · exact FileTree.insert_ne_self hl.free _ hsame
  · obtain ⟨rfl, rfl⟩ := Prod.mk.inj ((hl.runInit_eq version host).symm.trans hrun)
    refine ⟨rfl, rfl, fun version' ↦ ?_⟩
    have hkeeps := FileTree.keeps_insert_file hl.free
      (Utf8.encode (ProjectConfig.defaultText version))
    rw [run_init_eq, FileTree.resolve, hkeeps.resolveFrom_eq, ← FileTree.resolve]
    exact runInit_again hl.config hl.free rfl

namespace Sample

open ProjectConfig.Sample (directory)

/-- An empty project directory. -/
def emptyTree : FileTree :=
  ⟨[([['p']], .directory)]⟩

theorem resolve_emptyTree :
    directory = Path.ofLocation (emptyTree.resolve (directory.joinText ['.'])) := by
  cbv

theorem walk_emptyTree :
    emptyTree.walk true (configPath directory) = .ok [['p'], ProjectConfig.fileName] ∧
      emptyTree.walk false (sourcesPath directory) = .ok [['p'], sourcesName] := by
  cbv

theorem not_obstructed_emptyTree (l : Location) : ¬Obstructed emptyTree directory l := by
  rintro ⟨-, hconfig, -, ⟨m, hm, htaken⟩, -⟩
  obtain rfl := Except.ok.inj (walk_emptyTree.1.symm.trans hconfig)
  obtain rfl := Except.ok.inj (walk_emptyTree.2.symm.trans hm)
  revert htaken
  decide

theorem run_emptyTree : ((Task.init ['.'] "0.8.17".toList).run directory ProjectConfig.Sample.host
    { tree := emptyTree }).1 = .ok 0 := by
  have ho : emptyTree.Opens directory.parts [['p']] :=
    ⟨FileTree.walk_eq_ok_iff.mp (by cbv), by decide⟩
  have hfree : emptyTree.lookup [['p'], ProjectConfig.fileName] = none := by decide
  have hnew : [['p']] ++ [sourcesName] ≠ [['p'], ProjectConfig.fileName] ∧
      emptyTree.lookup ([['p']] ++ [sourcesName]) = none := by decide
  rw [run_init_eq, ← resolve_emptyTree, runInit_of_free ho walk_emptyTree.1 hfree]
  simp only [ensureDirectory_eq ho hfree, if_pos hnew]

/-- The project directory with a file in the place of the source directory. -/
def obstructedTree : FileTree :=
  ⟨[([['p']], .directory), ([['p'], sourcesName], .file [])]⟩

theorem obstructed : Obstructed obstructedTree directory [['p'], ProjectConfig.fileName] where
  opened := by cbv
  config := by cbv
  free := by cbv
  taken := ⟨[['p'], sourcesName], by cbv, .inr (by decide)⟩
  sources := by cbv

theorem resolve_obstructedTree :
    directory = Path.ofLocation (obstructedTree.resolve (directory.joinText ['.'])) := by
  cbv

end Sample

open ProjectConfig.Sample (directory) in
/-- In an empty directory a project is set up. In a directory with nothing but a file of that name,
the command stops halfway, and is refused when it is tried again. -/
theorem init_outcome_obstructed :
    (∃ s', (Task.init ['.'] "0.8.17".toList).run directory ProjectConfig.Sample.host
          { tree := Sample.emptyTree } = (.ok 0, s') ∧
        SetsUp Sample.emptyTree s'.tree directory "0.8.17".toList) ∧
      ∃ s', (Task.init ['.'] "0.8.17".toList).run directory ProjectConfig.Sample.host
          { tree := Sample.obstructedTree } =
            (.error (.file ⟨.exists_, sourcesPath directory⟩), s') ∧
        ∃ line, (Task.init ['.'] "0.8.17".toList).run directory ProjectConfig.Sample.host s' =
          (.ok 1, { s' with errors := s'.errors ++ line }) := by
  constructor
  · obtain ⟨hall, -⟩ := init_outcome directory ['.'] "0.8.17".toList ProjectConfig.Sample.host
      (s := { tree := Sample.emptyTree }) Sample.resolve_emptyTree rfl
    have hok := Sample.run_emptyTree
    obtain ⟨-, hsetsUp⟩ := (hall.mpr Sample.not_obstructed_emptyTree).resolve_right (·.1 hok)
    exact ⟨_, Prod.ext hok rfl, hsetsUp⟩
  · obtain ⟨-, hobstructed⟩ := init_outcome directory ['.'] "0.8.17".toList
      ProjectConfig.Sample.host (s := { tree := Sample.obstructedTree })
      Sample.resolve_obstructedTree rfl
    obtain ⟨houtcome, -, hagain⟩ := hobstructed _ Sample.obstructed
    exact ⟨_, Prod.ext houtcome rfl, hagain "0.8.17".toList⟩

open ProjectConfig.Sample (directory) in
/-- The command neither ends with status 0 nor leaves the files as they were. -/
theorem init_notAllOrNothing : ∃ outcome s',
    (Task.init ['.'] "0.8.17".toList).run directory ProjectConfig.Sample.host
        { tree := Sample.obstructedTree } = (outcome, s') ∧
      outcome ≠ .ok 0 ∧ s'.tree ≠ Sample.obstructedTree := by
  have hrun := Sample.obstructed.runInit_eq (s := { tree := Sample.obstructedTree })
    "0.8.17".toList ProjectConfig.Sample.host
  rw [Sample.resolve_obstructedTree] at hrun
  refine ⟨_, _, (run_init_eq _ _ _ _ _).trans hrun, by simp, ?_⟩
  exact FileTree.insert_ne_self Sample.obstructed.free _

end CommandLine

end YulPlus
