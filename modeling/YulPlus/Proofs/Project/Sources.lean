import Mathlib.Data.List.Perm.Basic
import YulPlus.Project.SourceFile
import YulPlus.Proofs.FileTree.Proper

/-!
# Where the sources of a project stand

A source is an entry below the source directory that is a file or a link to one, has the extension
of a dialect and is not hidden (`sourceEntries`). An entry is a source of one dialect only
(`IsProper.nodup_sourceEntries`). Found is not the entry, though, but the file that it leads to. So
a file is found twice exactly if a link among the sources leads to another one, or to the same file
as another link (`Repeats`, `IsProper.nodup_findSources_iff`). -/

namespace YulPlus

open Text

theorem Dialect.eq_of_hasExtension {d d' : Dialect} {name : Text}
    (h : hasExtension d.extension name = true) (h' : hasExtension d'.extension name = true) :
    d = d' := by
  have hsuffix : ∀ {d : Dialect}, hasExtension d.extension name = true →
      '.' :: d.extension <:+ name := fun h ↦ List.isSuffixOf_iff_suffix.1 h
  -- Of two extensions of one name, the shorter one would end the longer one.
  cases d <;> cases d'
  · rfl
  · exact absurd (List.suffix_of_suffix_length_le (hsuffix h) (hsuffix h') (by decide)) (by decide)
  · exact absurd (List.suffix_of_suffix_length_le (hsuffix h') (hsuffix h) (by decide)) (by decide)
  · rfl

namespace FileTree

/-- The places below a directory where the sources of a dialect stand, with links not worked out. -/
def sourceEntries (t : FileTree) (directory : Path) (d : Dialect) : List Location :=
  if t.isDirectory directory then
    match t.walk true directory with
    | .error _ => []
    | .ok base =>
      ((t.below base).filter fun entry ↦ t.isSource d.extension base entry.1).map (·.1)
  else []

/-- The places of the sources of all dialects. -/
def allSourceEntries (t : FileTree) (directory : Path) : List Location :=
  Dialect.all.flatMap (t.sourceEntries directory)

/-- Some file is a source more than once, by way of links. -/
inductive Repeats (t : FileTree) (directory : Path) : Prop
  /-- A link among the sources leads to another source. -/
  | source {l target : Location} (hl : l ∈ t.allSourceEntries directory)
      (hlink : t.lookup l = some (.link target))
      (hsource : t.resolve (Path.ofLocation l) ∈ t.allSourceEntries directory) : Repeats t directory
  /-- Two links among the sources lead to the same file. -/
  | links {l m target target' : Location} (hl : l ∈ t.allSourceEntries directory)
      (hm : m ∈ t.allSourceEntries directory) (hlink : t.lookup l = some (.link target))
      (hlink' : t.lookup m = some (.link target')) (hne : l ≠ m)
      (hsame : t.resolve (Path.ofLocation l) = t.resolve (Path.ofLocation m)) : Repeats t directory

section

variable {t : FileTree} {directory : Path} {d : Dialect} {l m : Location}

theorem findSources_eq :
    t.findSources directory d =
      ((t.sourceEntries directory d).map fun l ↦ t.resolve (Path.ofLocation l)).mergeSort
        Path.partsLE := by
  unfold findSources sourceEntries
  cases t.isDirectory directory
  · simp
  · cases t.walk true directory <;> simp [Function.comp_def]

/-- What is known of a source. -/
theorem exists_of_mem_sourceEntries (h : l ∈ t.sourceEntries directory d) :
    (∃ e, (l, e) ∈ t.entries) ∧ t.isFile (Path.ofLocation l) = true ∧
      hasExtension d.extension (l.getLastD []) = true := by
  unfold sourceEntries at h
  split at h
  · split at h
    · simp at h
    · next base _ =>
      obtain ⟨⟨k, e⟩, hfound, rfl⟩ := List.mem_map.1 h
      obtain ⟨hbelow, hsource⟩ := List.mem_filter.1 hfound
      obtain ⟨hentry, hbase⟩ := List.mem_filter.1 hbelow
      simp only [isSource, Bool.and_eq_true] at hsource hbase
      refine ⟨⟨e, hentry⟩, hsource.1.2, ?_⟩
      obtain ⟨relative, rfl⟩ := List.isPrefixOf_iff_prefix.1 hbase.1
      have hne : relative ≠ [] := by simpa using hbase.2
      have hlast : (base ++ relative).getLastD [] = relative.getLastD [] := by
        simp [List.getLastD_eq_getLast?, List.getLast?_append, List.getLast?_eq_some_getLast hne]
      rw [hlast]
      simpa using hsource.1.1
  · simp at h

/-- A source is a file of that place or a link. -/
theorem IsProper.file_or_link (ht : t.IsProper) (h : l ∈ t.allSourceEntries directory) :
    (∃ target, t.lookup l = some (.link target)) ∨ t.resolve (Path.ofLocation l) = l := by
  obtain ⟨d, -, hd⟩ := List.mem_flatMap.1 h
  obtain ⟨⟨e, hentry⟩, -⟩ := exists_of_mem_sourceEntries hd
  cases e with
  | link target => exact .inl ⟨target, ht.lookup_eq hentry⟩
  | file | directory => exact .inr (ht.resolve_eq_self hentry nofun)

/-- A source leads to a file. -/
theorem exists_file_of_mem_sourceEntries (h : l ∈ t.sourceEntries directory d) :
    ∃ content, t.lookup (t.resolve (Path.ofLocation l)) = some (.file content) :=
  exists_lookup_resolve_of_isFile (exists_of_mem_sourceEntries h).2.1

/-- **What is found is a file.** -/
theorem exists_file_of_mem_findSources (h : l ∈ t.findSources directory d) :
    ∃ content, t.lookup l = some (.file content) := by
  rw [findSources_eq, List.mem_mergeSort] at h
  obtain ⟨k, hk, rfl⟩ := List.mem_map.1 h
  exact exists_file_of_mem_sourceEntries hk

/-- **No entry is a source twice.** -/
theorem IsProper.nodup_sourceEntries (ht : t.IsProper) (directory : Path) :
    (t.allSourceEntries directory).Nodup := by
  refine List.nodup_flatMap.2 ⟨fun d _ ↦ ?_, ?_⟩
  · unfold sourceEntries
    split
    · split
      · exact .nil
      · exact ht.nodup.sublist ((List.filter_sublist.trans List.filter_sublist).map _)
    · exact .nil
  · have hall : Dialect.all.Nodup := by decide
    refine hall.imp fun hne l hl hl' ↦ hne ?_
    exact Dialect.eq_of_hasExtension (exists_of_mem_sourceEntries hl).2.2
      (exists_of_mem_sourceEntries hl').2.2

/-- Two different sources that lead to the same file are a repetition. -/
theorem IsProper.repeats_of_ne (ht : t.IsProper) (hl : l ∈ t.allSourceEntries directory)
    (hm : m ∈ t.allSourceEntries directory) (hne : l ≠ m)
    (hsame : t.resolve (Path.ofLocation l) = t.resolve (Path.ofLocation m)) :
    t.Repeats directory := by
  rcases ht.file_or_link hl with ⟨target, hlink⟩ | hself
  · rcases ht.file_or_link hm with ⟨target', hlink'⟩ | hself'
    · exact .links hl hm hlink hlink' hne hsame
    · exact .source hl hlink (by rwa [hsame, hself'])
  · rcases ht.file_or_link hm with ⟨target', hlink'⟩ | hself'
    · exact .source hm hlink' (by rwa [← hsame, hself])
    · exact absurd (hself.symm.trans (hsame.trans hself')) hne

/-- **A file is found twice exactly if the sources repeat.** -/
theorem IsProper.nodup_findSources_iff (ht : t.IsProper) (directory : Path) :
    (Dialect.all.flatMap (t.findSources directory)).Nodup ↔ ¬ t.Repeats directory := by
  have hperm : (Dialect.all.flatMap (t.findSources directory)).Perm
      ((t.allSourceEntries directory).map fun l ↦ t.resolve (Path.ofLocation l)) := by
    rw [allSourceEntries, List.map_flatMap]
    refine List.Perm.flatMap_left _ fun d _ ↦ ?_
    rw [findSources_eq]
    exact List.mergeSort_perm _ _
  rw [hperm.nodup_iff, List.nodup_map_iff_inj_on (ht.nodup_sourceEntries directory)]
  constructor
  · rintro hinjective (⟨hl, hlink, hsource⟩ | ⟨hl, hm, -, -, hne, hsame⟩)
    · obtain ⟨d, -, hd⟩ := List.mem_flatMap.1 hl
      obtain ⟨content, hfile⟩ := exists_file_of_mem_sourceEntries hd
      rw [hinjective _ hsource _ hl (ht.resolve_file hfile), hlink] at hfile
      cases hfile
    · exact hne (hinjective _ hl _ hm hsame)
  · intro hrepeats l hl m hm hsame
    by_contra hne
    exact hrepeats (ht.repeats_of_ne hl hm hne hsame)

end

end FileTree

end YulPlus
