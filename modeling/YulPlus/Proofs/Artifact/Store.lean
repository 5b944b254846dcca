import YulPlus.Proofs.Artifact.RoundTrip
import YulPlus.Proofs.FileTree.Paths

/-!
# What an artifact store holds

A store that is given artifacts one after the other (`recordAll`) holds below its directory, for
every source name, the last artifact that was recorded under it, and nothing else
(`recordAll_exact`). What stands at each place is said by a function of the recorded artifacts
(`contents`); one more artifact changes the tree as it changes the function (`Holds.record`), and
the rest is an induction on the artifacts.

A file and a directory never want the same place: in the directory of a source there is its file,
and by assumption no source name goes on from another one. -/

namespace YulPlus

open Text FileTree

namespace Artifact

/-- The source of the artifact has a proper name, and the contract is named after it. -/
structure Named (a : Artifact) : Prop where
  sourceName : Path.IsSourceName a.sourceName
  contractName : a.contractName = YulPlus.contractName a.sourceName

end Artifact

/-- No source name goes on from another one. -/
def Separate (artifacts : List Artifact) : Prop :=
  ∀ a ∈ artifacts, ∀ b ∈ artifacts,
    Path.pieces a.sourceName <+: Path.pieces b.sourceName → a.sourceName = b.sourceName

namespace ArtifactStore

/-- Record artifacts in order, up to the first one that cannot be written. -/
def recordAll (store : ArtifactStore) (t : FileTree) :
    List Artifact → ArtifactStore × FileTree × Option FileError
  | [] => (store, t, none)
  | a :: rest =>
    match store.record t a with
    | (store, t, none) => recordAll store t rest
    | (store, t, some e) => (store, t, some e)

/-- The last artifact that was recorded for a source. -/
def last? (recorded : List Artifact) (sourceName : Text) : Option Artifact :=
  recorded.reverse.find? fun a ↦ a.sourceName = sourceName

variable {store : ArtifactStore} {t t' : FileTree} {l : Location} {a b : Artifact}
  {recorded rest : List Artifact} {m : List Text}

/-- The path of an artifact leads to the file of its source below the directory of the store. -/
theorem path_eq (h : a.Named) :
    store.path a =
      ⟨store.directory.root, store.directory.parts ++ recordOf a.sourceName⟩ := by
  have hfile := (ofText_file a.sourceName).1
  rw [path, Path.joinText, Path.joinText, Path.ofText_eq h.sourceName, h.contractName, hfile]
  simp [Path.join, recordOf]

theorem ne_dots_of_mem_recordOf (h : a.Named) :
    ∀ n ∈ recordOf a.sourceName, n ≠ ['.', '.'] := by
  intro n hn
  rcases List.mem_append.mp hn with hn | hn
  · exact (h.sourceName n hn).2.2
  · obtain rfl := List.mem_singleton.mp hn
    exact (ofText_file a.sourceName).2

/-- The file of a source is not on the way to another one. -/
theorem not_isPrefix_of_recordOf (h : Separate recorded) (ha : a ∈ recorded) (hb : b ∈ recorded) :
    ¬ recordOf a.sourceName <+: Path.pieces b.sourceName := by
  intro hprefix
  have heq : a.sourceName = b.sourceName := h a ha b hb ((List.prefix_append _ _).trans hprefix)
  have hlength := hprefix.length_le
  simp only [recordOf, heq, List.length_append, List.length_singleton] at hlength
  omega

/-! ### What one artifact changes -/

/-- What stands below the directory of a store after artifacts were recorded: a file for every
source, and directories on the way there. -/
def contents (recorded : List Artifact) (m : List Text) : Option Entry :=
  match recorded.reverse.find? fun a ↦ recordOf a.sourceName = m with
  | some a => some (.file (Utf8.encode a.serialize))
  | none =>
    if recorded.any fun a ↦ m.isPrefixOf (Path.pieces a.sourceName) then some .directory else none

theorem contents_recordOf {sourceName : Text} (h : last? recorded sourceName = some a) :
    contents recorded (recordOf sourceName) = some (.file (Utf8.encode a.serialize)) := by
  have hsame : (fun a : Artifact ↦ decide (recordOf a.sourceName = recordOf sourceName)) =
      fun a ↦ decide (a.sourceName = sourceName) :=
    funext fun a ↦ decide_eq_decide.mpr recordOf_injective.eq_iff
  have hfind : recorded.reverse.find? (fun a ↦ recordOf a.sourceName = recordOf sourceName) =
      some a := hsame ▸ h
  rw [contents, hfind]

theorem exists_last (ha : a ∈ recorded) : ∃ last, last? recorded a.sourceName = some last := by
  rw [← Option.isSome_iff_exists, last?, List.find?_isSome]
  exact ⟨a, List.mem_reverse.mpr ha, decide_eq_true rfl⟩

/-- Only the places of an artifact change when it is recorded. -/
theorem contents_concat (recorded : List Artifact) (a : Artifact) (m : List Text) :
    contents (recorded ++ [a]) m =
      if recordOf a.sourceName = m then some (.file (Utf8.encode a.serialize))
      else if contents recorded m = none ∧ m <+: Path.pieces a.sourceName then some .directory
      else contents recorded m := by
  rw [contents, contents, List.reverse_append, List.reverse_singleton, List.singleton_append,
    List.find?_cons]
  by_cases ha : recordOf a.sourceName = m
  · simp [ha]
  · simp only [ha, decide_false, if_false]
    cases recorded.reverse.find? fun a ↦ recordOf a.sourceName = m with
    | some b => simp
    | none =>
      by_cases hway : (recorded.any fun a ↦ m.isPrefixOf (Path.pieces a.sourceName)) = true
      · simp [hway]
      · simp [hway]

/-- A file that stands there belongs to an artifact. -/
theorem exists_of_contents_eq_file {content : List UInt8}
    (h : contents recorded m = some (.file content)) :
    ∃ a ∈ recorded, recordOf a.sourceName = m := by
  unfold contents at h
  split at h
  · next a ha =>
    have hmem : a ∈ recorded.reverse := List.mem_of_find?_eq_some ha
    have hm := List.find?_some ha
    exact ⟨a, List.mem_reverse.mp hmem, of_decide_eq_true hm⟩
  · split at h <;> cases h

/-- A directory that stands there is on the way to an artifact. -/
theorem exists_of_contents_eq_directory (h : contents recorded m = some .directory) :
    ∃ a ∈ recorded, m <+: Path.pieces a.sourceName := by
  unfold contents at h
  split at h
  · cases h
  · split at h
    · next hany =>
      obtain ⟨a, ha, hprefix⟩ := List.any_eq_true.mp hany
      exact ⟨a, ha, List.isPrefixOf_iff_prefix.mp hprefix⟩
    · cases h

theorem contents_ne_link (recorded : List Artifact) (m : List Text) (target : Location) :
    contents recorded m ≠ some (.link target) := by
  unfold contents
  split
  · exact nofun
  · split <;> exact nofun

/-- On the way to a file there are directories. -/
theorem contents_eq_directory (h : Separate recorded) (ha : a ∈ recorded)
    (hm : m <+: Path.pieces a.sourceName) : contents recorded m = some .directory := by
  have hfind : (recorded.reverse.find? fun b ↦ recordOf b.sourceName = m) = none := by
    refine List.find?_eq_none.mpr fun b hb heq ↦ ?_
    obtain rfl := of_decide_eq_true heq
    exact not_isPrefix_of_recordOf h (List.mem_reverse.mp hb) ha hm
  have hway : (recorded.any fun b ↦ m.isPrefixOf (Path.pieces b.sourceName)) = true :=
    List.any_eq_true.mpr ⟨a, ha, List.isPrefixOf_iff_prefix.mpr hm⟩
  simp only [contents, hfind, hway, if_true]

/-- Below the location stands what the artifacts leave there, and elsewhere what was there. -/
structure Holds (t₀ t : FileTree) (l : Location) (recorded : List Artifact) : Prop where
  below : ∀ m, m ≠ [] → t.lookup (l ++ m) = contents recorded m
  outside : ∀ k, (∀ m, m ≠ [] → k ≠ l ++ m) → t.lookup k = t₀.lookup k

section

variable {t₀ : FileTree} (h : Holds t₀ t l recorded) (hsep : Separate (recorded ++ [a]))

include h hsep

/-- Nothing but directories is on the way to the file of one more artifact. -/
theorem Holds.free (hdirectory : t.lookup l = some .directory) :
    t.Free l (Path.pieces a.sourceName) := by
  intro m hm
  rcases eq_or_ne m [] with rfl | hne
  · rw [List.append_nil]
    exact .inr hdirectory
  rw [h.below m hne]
  cases hm' : contents recorded m with
  | none => exact .inl rfl
  | some e =>
    cases e with
    | directory => exact .inr rfl
    | link target => exact absurd hm' (contents_ne_link _ _ _)
    | file content =>
      -- A file on the way would be that of a source whose name this one goes on from.
      obtain ⟨b, hb, rfl⟩ := exists_of_contents_eq_file hm'
      exact absurd hm (not_isPrefix_of_recordOf hsep (List.mem_append_left _ hb) (by simp))

/-- The place of the file of one more artifact is not taken by a directory. -/
theorem Holds.vacant : t.Vacant (l ++ recordOf a.sourceName) := by
  refine vacant_iff.mpr ⟨?_, fun target ↦ ?_⟩ <;> rw [h.below _ (by simp [recordOf])]
  · intro hdirectory
    obtain ⟨b, hb, hprefix⟩ := exists_of_contents_eq_directory hdirectory
    exact not_isPrefix_of_recordOf hsep (by simp) (List.mem_append_left _ hb) hprefix
  · exact contents_ne_link _ _ _

/-- **One more artifact is recorded**, and the tree changes as it should. -/
theorem Holds.record (ho : t.Opens store.directory.parts l) (hnamed : a.Named) :
    ∃ t', store.record t a = ({ store with written := store.written ++ [store.path a] }, t', none) ∧
      Holds t₀ t' l (recorded ++ [a]) ∧ t'.Opens store.directory.parts l := by
  have hlast : a ∈ recorded ++ [a] := by simp
  have hfree : t.Free l (Path.pieces a.sourceName) := h.free hsep ho.directory
  have hfile : t.Vacant (l ++ recordOf a.sourceName) := h.vacant hsep
  obtain ⟨t', hwrite, hput⟩ := Artifact.exists_write ho hfree (ne_dots_of_mem_recordOf hnamed) hfile
    a store.directory.root
  refine ⟨t', ?_, ⟨fun m hm ↦ ?_, fun k hk ↦ ?_⟩, hput.keeps.opens ho⟩
  · have hpath : store.path a =
        ⟨store.directory.root, store.directory.parts ++ recordOf a.sourceName⟩ := path_eq hnamed
    have hrecord : a.write t (store.path a) = (t', none) := by
      rw [hpath]
      exact hwrite
    rw [ArtifactStore.record, hrecord]
  · rcases eq_or_ne m (recordOf a.sourceName) with rfl | hne
    · rw [contents_concat, if_pos rfl]
      exact hput.file
    · by_cases hprefix : m <+: Path.pieces a.sourceName
      · rw [contents_eq_directory hsep hlast hprefix, hput.made m hprefix]
      · -- Neither the file nor on the way to it: both sides stay as they were.
        rw [contents_concat, if_neg hne.symm, if_neg fun h ↦ hprefix h.2, ← h.below m hm]
        refine hput.other _ (fun heq ↦ hne (List.append_cancel_left heq)) fun m' hm' heq ↦ ?_
        exact hprefix (List.append_cancel_left heq ▸ hm')
  · rw [← h.outside k hk]
    by_cases hl : k = l
    · rw [hl, ho.directory]
      simpa using hput.made [] List.nil_prefix
    · refine hput.other k (hk _ (by simp)) fun m hm ↦ ?_
      rcases eq_or_ne m [] with rfl | hne
      · simpa using hl
      · exact hk m hne

end

/-! ### A whole run -/

theorem holds_nil (h : t.below l = []) : Holds t t l [] where
  below m hm := by
    have hnone : ∀ entry ∈ t.entries, entry.1 ≠ l ++ m := by
      rintro entry hentry heq
      refine List.not_mem_nil (h ▸ List.mem_filter.mpr ⟨hentry, ?_⟩ : entry ∈ ([] : List _))
      simp [heq, hm]
    rw [lookup_of_ne_nil (by simp [hm]), List.find?_eq_none.mpr (by simpa using hnone)]
    rfl
  outside _ _ := rfl

/-- **Artifacts are recorded one after the other**, and none of them fails. -/
theorem Holds.exists_recordAll {t₀ : FileTree} (h : Holds t₀ t l recorded)
    (ho : t.Opens store.directory.parts l) (hnamed : ∀ a ∈ rest, a.Named)
    (hsep : Separate (recorded ++ rest)) :
    ∃ t', store.recordAll t rest =
        ({ store with written := store.written ++ rest.map store.path }, t', none) ∧
      Holds t₀ t' l (recorded ++ rest) ∧ t'.Opens store.directory.parts l := by
  induction rest generalizing store t recorded with
  | nil => exact ⟨t, by simp [recordAll], by rwa [List.append_nil], ho⟩
  | cons a rest ih =>
    have hsep' : Separate ((recorded ++ [a]) ++ rest) := by simpa using hsep
    have hfirst : Separate (recorded ++ [a]) := fun b hb c hc ↦
      hsep' b (List.mem_append_left _ hb) c (List.mem_append_left _ hc)
    obtain ⟨t₁, hrecord, h₁, ho₁⟩ := h.record hfirst ho (hnamed a List.mem_cons_self)
    have ho₁' : t₁.Opens (ArtifactStore.mk store.directory
        (store.written ++ [store.path a])).directory.parts l := ho₁
    obtain ⟨t', hrest, h', ho'⟩ :=
      ih h₁ ho₁' (fun b hb ↦ hnamed b (List.mem_cons_of_mem a hb)) hsep'
    refine ⟨t', ?_, by simpa using h', ho'⟩
    rw [recordAll, hrecord]
    simp only [hrest, List.append_assoc, List.map_cons, List.singleton_append]
    rfl

/-- The path of a recorded artifact leads to the file of its source. -/
theorem Holds.walk_path {t₀ : FileTree} (h : Holds t₀ t l recorded)
    (ho : t.Opens store.directory.parts l) (hsep : Separate recorded) (ha : a ∈ recorded)
    (hnamed : a.Named) : t.walk true (store.path a) = .ok (l ++ recordOf a.sourceName) := by
  rw [path_eq hnamed, walk_eq_ok_iff]
  refine ho.leads_append (ne_dots_of_mem_recordOf hnamed) (by simp [recordOf])
    (fun m hm hne ↦ ?_) fun target ↦ ?_
  · have hway : m <+: Path.pieces a.sourceName := (List.prefix_concat_iff.mp hm).resolve_left hne
    rcases eq_or_ne m [] with rfl | hm'
    · simpa using ho.directory
    · rw [h.below m hm', contents_eq_directory hsep ha hway]
  · rw [h.below _ (by simp [recordOf])]
    exact contents_ne_link _ _ _

end ArtifactStore

end YulPlus
