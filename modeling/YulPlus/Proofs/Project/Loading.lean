import YulPlus.Proofs.Build.Partition

/-!
# How the loading of a configuration fails

A configuration is loaded in four steps: the bytes of the file are read, they are decoded, the text
is read as YAML, and the value is checked. Most failures are faults of the configuration, which the
program reports on a line before it ends with status 1. `ProjectConfig.Escapes` are the others:
bytes that are no text, a YAML scalar that has no value, and a version of so many digits that it is
not shown. They end the program without a report.

This is exact for every reader of YAML (`ProjectConfig.escapes_iff`), of which the program uses one.
A failure to read the bytes never escapes. -/

namespace YulPlus

open Text Session CommandLine

namespace ProjectConfig

/-- Read the configuration file at a path with a reader of YAML. -/
def loadBy (yaml : Text → Except Yaml.Fault Value) (t : FileTree) (p : Path) :
    Except ReadError ProjectConfig :=
  match t.readText p with
  | .error (.file e) =>
    .error (.config (if e.fault = .notFound then .notFound p else .unreadable e))
  | .error (.encoding fault) => .error (.encoding fault)
  | .ok s => ofYaml p.text (yaml s)

theorem load_eq_loadBy : load = loadBy Yaml.parse := rfl

/-- The failures to load a file that are no faults of its configuration. -/
inductive Escapes (yaml : Text → Except Yaml.Fault Value) (t : FileTree) (p : Path) :
    ReadError → Prop
  | encoding {bytes : List UInt8} {fault : Utf8.Fault} (hread : t.readBytes p = .ok bytes)
      (hdecode : Utf8.decode bytes = .error fault) : Escapes yaml t p (.encoding fault)
  | scalar {bytes : List UInt8} {s : Text} {fault : Yaml.Fault}
      (hread : t.readBytes p = .ok bytes) (hdecode : Utf8.decode bytes = .ok s)
      (hyaml : yaml (normalizeLines s) = .error fault) (hfault : fault ≠ .malformed) :
      Escapes yaml t p (.scalar fault)
  | version {bytes : List UInt8} {s : Text} {entries : List (Scalar × Value)} {n : Int}
      (hread : t.readBytes p = .ok bytes) (hdecode : Utf8.decode bytes = .ok s)
      (hyaml : yaml (normalizeLines s) = .ok (.map entries))
      (hentry : (.text versionField.wire, .int n) ∈ entries)
      (hdigits : Decimal.maxDigits < (decimal n.natAbs).length) :
      Escapes yaml t p (.scalar (.integer .notShown))

section

variable {yaml : Text → Except Yaml.Fault Value} {t : FileTree} {p : Path} {error : ReadError}
  {entries : List (Scalar × Value)}

/-! ### The version by its display -/

theorem displayVersion_eq_error_iff {v : Value} {fault : IntegerFault} :
    displayVersion v = .error fault ↔
      fault = .notShown ∧ ∃ n, v = .int n ∧ Decimal.maxDigits < (decimal n.natAbs).length := by
  have hshown : ∀ n, Decimal.showInteger n = .error fault ↔
      fault = .notShown ∧ Decimal.maxDigits < (decimal n.natAbs).length := by
    intro n
    unfold Decimal.showInteger
    split
    · next hdigits => simp [hdigits, eq_comm]
    · next hdigits => simp [hdigits]
  constructor
  · intro h
    unfold displayVersion at h
    split at h
    · cases h
    · next n =>
      obtain ⟨rfl, hdigits⟩ := (hshown n).mp (map_eq_error_iff.mp h)
      exact ⟨rfl, n, rfl, hdigits⟩
    · cases h
    · cases h
  · rintro ⟨rfl, n, rfl, hdigits⟩
    exact map_eq_error_iff.mpr ((hshown n).mpr ⟨rfl, hdigits⟩)

theorem withDisplayedVersion_eq_error_iff {fault : IntegerFault} :
    withDisplayedVersion entries = .error fault ↔
      fault = .notShown ∧ ∃ n, (.text versionField.wire, .int n) ∈ entries ∧
        Decimal.maxDigits < (decimal n.natAbs).length := by
  have hforward : ∀ {fault}, withDisplayedVersion entries = .error fault →
      fault = .notShown ∧ ∃ n, (.text versionField.wire, .int n) ∈ entries ∧
        Decimal.maxDigits < (decimal n.natAbs).length := by
    intro fault h
    obtain ⟨⟨key, v⟩, hmem, herror⟩ := exists_mem_of_mapM_eq_error h
    dsimp only at herror
    split at herror
    · next hkey =>
      obtain ⟨rfl, n, rfl, hdigits⟩ := displayVersion_eq_error_iff.mp (map_eq_error_iff.mp herror)
      exact ⟨rfl, n, hkey ▸ hmem, hdigits⟩
    · cases herror
  refine ⟨hforward, ?_⟩
  -- Some entry is not shown; whichever comes first, its fault is the same.
  rintro ⟨rfl, n, hmem, hdigits⟩
  cases h : withDisplayedVersion entries with
  | error fault => rw [(hforward h).1]
  | ok shown =>
    obtain ⟨b, hb⟩ := exists_eq_ok_of_mapM h hmem
    have hshown : displayVersion (.int n) = .error .notShown :=
      displayVersion_eq_error_iff.mpr ⟨rfl, n, rfl, hdigits⟩
    simp only [hshown, if_true] at hb
    cases hb

/-! ### Failures that escape -/

/-- What is no fault of the configuration once its text has been read. -/
theorem ofYaml_escapes_iff {label : Text} {read : Except Yaml.Fault Value} :
    (ofYaml label read = .error error ∧ ∀ fault, error ≠ .config fault) ↔
      (∃ fault, read = .error fault ∧ fault ≠ .malformed ∧ error = .scalar fault) ∨
      ∃ entries n, read = .ok (.map entries) ∧
        (.text versionField.wire, .int n) ∈ entries ∧
        Decimal.maxDigits < (decimal n.natAbs).length ∧ error = .scalar (.integer .notShown) := by
  constructor
  · rintro ⟨h, hconfig⟩
    unfold ofYaml at h
    split at h
    · cases h
      exact absurd rfl (hconfig _)
    · next fault hmalformed =>
      cases h
      exact .inl ⟨fault, rfl, hmalformed, rfl⟩
    · next entries =>
      split at h
      · next fault hversion =>
        cases h
        obtain ⟨rfl, n, hmem, hdigits⟩ := withDisplayedVersion_eq_error_iff.mp hversion
        exact .inr ⟨entries, n, rfl, hmem, hdigits, rfl⟩
      · split at h <;> cases h
        exact absurd rfl (hconfig _)
    · cases h
      exact absurd rfl (hconfig _)
  · rintro (⟨fault, rfl, hmalformed, rfl⟩ | ⟨entries, n, rfl, hmem, hdigits, rfl⟩)
    · refine ⟨?_, nofun⟩
      cases fault <;> first | contradiction | rfl
    · have hversion := withDisplayedVersion_eq_error_iff.mpr ⟨rfl, n, hmem, hdigits⟩
      refine ⟨?_, nofun⟩
      simp only [ofYaml, hversion]

/-- A file whose bytes are not read has a configuration with a fault. -/
theorem loadBy_of_readBytes_eq_error {e : FileError} (h : t.readBytes p = .error e) :
    loadBy yaml t p =
      .error (.config (if e.fault = .notFound then .notFound p else .unreadable e)) := by
  have hread : t.readText p = .error (.file e) := by
    rw [FileTree.readText, h]
  rw [loadBy, hread]

/-- Bytes that are read and decoded are judged as YAML. -/
theorem loadBy_of_decode {bytes : List UInt8} {s : Text} (hread : t.readBytes p = .ok bytes)
    (hdecode : Utf8.decode bytes = .ok s) :
    loadBy yaml t p = ofYaml p.text (yaml (normalizeLines s)) := by
  have hread : t.readText p = .ok (normalizeLines s) := by
    simp only [FileTree.readText, hread, hdecode]
  rw [loadBy, hread]

theorem loadBy_of_decode_eq_error {bytes : List UInt8} {fault : Utf8.Fault}
    (hread : t.readBytes p = .ok bytes) (hdecode : Utf8.decode bytes = .error fault) :
    loadBy yaml t p = .error (.encoding fault) := by
  have hread : t.readText p = .error (.encoding fault) := by
    simp only [FileTree.readText, hread, hdecode]
  rw [loadBy, hread]

/-- **The failures that escape are all that are no faults of the configuration.** -/
theorem escapes_iff : Escapes yaml t p error ↔
    loadBy yaml t p = .error error ∧ ∀ fault, error ≠ .config fault := by
  constructor
  · intro h
    cases h with
    | encoding hread hdecode => exact ⟨loadBy_of_decode_eq_error hread hdecode, nofun⟩
    | scalar hread hdecode hyaml hfault =>
      rw [loadBy_of_decode hread hdecode]
      exact ofYaml_escapes_iff.mpr (.inl ⟨_, hyaml, hfault, rfl⟩)
    | version hread hdecode hyaml hentry hdigits =>
      rw [loadBy_of_decode hread hdecode]
      exact ofYaml_escapes_iff.mpr (.inr ⟨_, _, hyaml, hentry, hdigits, rfl⟩)
  · rintro ⟨h, hconfig⟩
    cases hread : t.readBytes p with
    | error e =>
      rw [loadBy_of_readBytes_eq_error hread] at h
      cases h
      exact absurd rfl (hconfig _)
    | ok bytes =>
      cases hdecode : Utf8.decode bytes with
      | error fault =>
        rw [loadBy_of_decode_eq_error hread hdecode] at h
        cases h
        exact .encoding hread hdecode
      | ok s =>
        rw [loadBy_of_decode hread hdecode] at h
        rcases ofYaml_escapes_iff.mp ⟨h, hconfig⟩ with
          ⟨fault, hyaml, hfault, rfl⟩ | ⟨entries, n, hyaml, hentry, hdigits, rfl⟩
        · exact .scalar hread hdecode hyaml hfault
        · exact .version hread hdecode hyaml hentry hdigits

end

end ProjectConfig

section

variable {directory : Path} {host : Host} {s : Session}

/-! ### The command that compiles -/

/-- In a directory with a configuration file, the outcome is that of its loading. -/
theorem CommandLine.runCompile_eq (hdirectory : s.tree.contains directory)
    (hfile : s.tree.contains (directory.joinText ProjectConfig.fileName)) :
    runCompile directory host s =
      match ProjectConfig.load s.tree (directory.joinText ProjectConfig.fileName) with
      | .error (.config fault) => (.ok 1, { s with
          errors := s.errors ++ ("Error: ".toList ++ fault.message) ++ ['\n'] })
      | .error (.encoding fault) => (.error (.encoding fault), s)
      | .error (.scalar fault) => (.error (.scalar fault), s)
      | .ok config => runConfigured directory config host s := by
  simp only [runCompile, bind_action_eq, get_action_eq, hdirectory, hfile, Bool.not_true,
    Bool.false_eq_true, if_false]
  rcases ProjectConfig.load s.tree (directory.joinText ProjectConfig.fileName) with
    (fault | fault | fault) | config <;> rfl

end

/-- **A configuration is loaded, or it has a fault, or one of three failures escapes.** Only a file
whose bytes are read has a failure that escapes. The program reports a fault of the configuration on
a line and ends with status 1; what escapes interrupts it. -/
theorem ProjectConfig.load_outcome (t : FileTree) (p : Path) :
    (∀ yaml error, Escapes yaml t p error ↔
        loadBy yaml t p = .error error ∧ ∀ fault, error ≠ .config fault) ∧
      (∀ yaml, t.isFile p = false → ∃ e, t.readBytes p = .error e ∧ loadBy yaml t p =
        .error (.config (if e.fault = .notFound then .notFound p else .unreadable e))) ∧
      load t p = loadBy Yaml.parse t p ∧
      ∀ directory host (s : Session), s.tree = t → p = directory.joinText fileName →
        t.contains directory → t.contains p →
          (∀ fault, load t p = .error (.config fault) →
            runCompile directory host s = (.ok 1, { s with
              errors := s.errors ++ ("Error: ".toList ++ fault.message) ++ ['\n'] })) ∧
          ∀ error, Escapes Yaml.parse t p error →
            ∃ cause, runCompile directory host s = (.error cause, s) := by
  refine ⟨fun yaml error ↦ escapes_iff, fun yaml hfile ↦ ?_, rfl, ?_⟩
  · obtain ⟨e, he⟩ := FileTree.exists_readBytes_eq_error hfile
    exact ⟨e, he, loadBy_of_readBytes_eq_error he⟩
  · rintro directory host s rfl rfl hdirectory hfile
    rw [CommandLine.runCompile_eq hdirectory hfile]
    refine ⟨fun fault h ↦ by rw [h], fun error h ↦ ?_⟩
    obtain ⟨h, hconfig⟩ := escapes_iff.mp h
    rw [load_eq_loadBy, h]
    cases error with
    | config fault => exact absurd rfl (hconfig fault)
    | encoding fault => exact ⟨_, rfl⟩
    | scalar fault => exact ⟨_, rfl⟩

namespace ProjectConfig.Sample

/-- A project directory. -/
def directory : Path :=
  ⟨['/'], [['p']]⟩

/-- The project directory with a configuration file. -/
def tree (content : List UInt8) : FileTree :=
  ⟨[([['p']], .directory), ([['p'], fileName], .file content)]⟩

/-- A host without executables. -/
def host : Host where
  find _ := none
  run _ := .failed ⟨.notFound, []⟩
  colored := false

theorem readBytes_tree (content : List UInt8) :
    (tree content).readBytes (directory.joinText fileName) = .ok content := by
  cbv

theorem contains_tree (content : List UInt8) : (tree content).contains directory = true ∧
    (tree content).contains (directory.joinText fileName) = true := by
  cbv

end ProjectConfig.Sample

open ProjectConfig.Sample in
/-- An empty file is no mapping, a directory is no file, and a byte that begins no character ends
the program. -/
theorem ProjectConfig.load_outcome_empty :
    (runCompile directory host { tree := tree [] }).1 = .ok 1 ∧
      (∃ fault, loadBy Yaml.parse (tree []) directory = .error (.config fault)) ∧
      ∃ cause, runCompile directory host { tree := tree [255] } =
        (.error cause, { tree := tree [255] }) := by
  refine ⟨?_, ?_, ?_⟩
  · obtain ⟨-, -, -, hcommand⟩ := load_outcome (tree []) (directory.joinText fileName)
    obtain ⟨hreport, -⟩ := hcommand directory host { tree := tree [] } rfl rfl
      (contains_tree []).1 (contains_tree []).2
    have hyaml : Yaml.parse [] = .ok .null := by
      cbv
    have hload : load (tree []) (directory.joinText fileName) =
        .error (.config (.notMapping (directory.joinText fileName).text)) := by
      rw [load_eq_loadBy, loadBy_of_decode (readBytes_tree []) rfl]
      simp only [normalizeLines, hyaml]
      rfl
    rw [hreport _ hload]
  · obtain ⟨-, hdirectory, -, -⟩ := load_outcome (tree []) directory
    obtain ⟨e, -, he⟩ := hdirectory Yaml.parse (by cbv)
    exact ⟨_, he⟩
  · obtain ⟨-, -, -, hcommand⟩ := load_outcome (tree [255]) (directory.joinText fileName)
    obtain ⟨-, hinterrupted⟩ := hcommand directory host { tree := tree [255] } rfl rfl
      (contains_tree [255]).1 (contains_tree [255]).2
    exact hinterrupted _ (.encoding (readBytes_tree [255]) rfl)

open ProjectConfig.Sample in
/-- A byte that begins no character interrupts the program. -/
theorem ProjectConfig.load_escapes_invalid_byte :
    load (tree [255]) (directory.joinText fileName) =
        .error (.encoding ⟨255, 0, 1, .invalidStart⟩) ∧
      runCompile directory host { tree := tree [255] } =
        (.error (.encoding ⟨255, 0, 1, .invalidStart⟩), { tree := tree [255] }) := by
  have hload : load (tree [255]) (directory.joinText fileName) =
      .error (.encoding ⟨255, 0, 1, .invalidStart⟩) := by
    rw [load_eq_loadBy, loadBy_of_decode_eq_error (readBytes_tree [255])]
    rfl
  refine ⟨hload, ?_⟩
  rw [CommandLine.runCompile_eq (contains_tree [255]).1 (contains_tree [255]).2, hload]

end YulPlus
