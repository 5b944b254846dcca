import Mathlib.Data.List.Nodup
import YulPlus.Proofs.FileTree.Files

/-!
# File trees as they are kept

The tree of a file system has one entry at each place, each entry stands in a directory, and the
names on the way to it are file names (`FileTree.IsProper`). In such a tree there are only
directories on the way to an entry (`IsProper.directory_of_prefix`), and so an entry that is no link
is found at its own place (`IsProper.resolve_eq_self`). What is found elsewhere stands behind a
link. -/

namespace YulPlus

open Text

/-- A name that an entry can have: it is not empty, has no slash, and is no dots alone. -/
def IsFileName (name : Text) : Prop :=
  name ≠ [] ∧ '/' ∉ name ∧ name ≠ ['.'] ∧ name ≠ ['.', '.']

instance : DecidablePred IsFileName := fun name ↦
  inferInstanceAs (Decidable (name ≠ [] ∧ '/' ∉ name ∧ name ≠ ['.'] ∧ name ≠ ['.', '.']))

namespace FileTree

/-- A tree as a file system keeps it. -/
structure IsProper (t : FileTree) : Prop where
  nodup : (t.entries.map Prod.fst).Nodup
  ne_nil : ∀ entry ∈ t.entries, entry.1 ≠ []
  names : ∀ entry ∈ t.entries, ∀ name ∈ entry.1, IsFileName name
  parent : ∀ entry ∈ t.entries, t.lookup entry.1.dropLast = some .directory

section

variable {t : FileTree} {l m here : Location} {e : Entry} {links : Nat} {names : List Text}
  {content : List UInt8}

/-! ### Entries -/

/-- What stands at a place other than the root is an entry. -/
theorem mem_of_lookup (hl : l ≠ []) (h : t.lookup l = some e) : (l, e) ∈ t.entries := by
  rw [lookup_of_ne_nil hl] at h
  obtain ⟨entry, hfind, rfl⟩ := Option.map_eq_some_iff.1 h
  have hentry : entry.1 = l := by simpa using List.find?_some hfind
  exact hentry ▸ List.mem_of_find?_eq_some hfind

theorem mem_of_lookup_file (h : t.lookup l = some (.file content)) :
    (l, .file content) ∈ t.entries := by
  refine mem_of_lookup ?_ h
  rintro rfl
  cases h

namespace IsProper

variable (ht : t.IsProper)

include ht

theorem lookup_eq (h : (l, e) ∈ t.entries) : t.lookup l = some e := by
  have hl : l ≠ [] := ht.ne_nil _ h
  rw [lookup_of_ne_nil hl]
  cases hfind : t.entries.find? fun entry ↦ entry.1 = l with
  | none => simpa using List.find?_eq_none.1 hfind _ h
  | some entry =>
    have hentry : entry.1 = l := by simpa using List.find?_some hfind
    have hsame := List.inj_on_of_nodup_map ht.nodup (List.mem_of_find?_eq_some hfind) h hentry
    rw [hsame]
    rfl

/-- **On the way to an entry there are only directories.** -/
theorem directory_of_prefix (h : (l, e) ∈ t.entries) (hm : m <+: l) (hne : m ≠ l) :
    t.lookup m = some .directory := by
  induction l using List.reverseRecOn generalizing e with
  | nil => exact absurd (List.prefix_nil.1 hm) hne
  | append_singleton k name ih =>
    have hk : t.lookup k = some .directory := by simpa using ht.parent _ h
    have hmk : m <+: k := (List.prefix_concat_iff.1 hm).resolve_left hne
    rcases eq_or_ne m k with rfl | hmne
    · exact hk
    · refine ih (mem_of_lookup ?_ hk) hmk hmne
      rintro rfl
      exact hmne (List.prefix_nil.1 hmk)

/-- A file is not on the way to another entry. -/
theorem eq_of_prefix (hl : t.lookup l = some (.file content)) (h : (m, e) ∈ t.entries)
    (hlm : l <+: m) : l = m := by
  by_contra hne
  rw [ht.directory_of_prefix h hlm hne] at hl
  cases hl

end IsProper

/-! ### Resolving -/

/-- **Resolving leads where a walk leads** that follows every link. -/
theorem Leads.resolveFrom_eq (h : Leads t true links here names l) :
    t.resolveFrom links here names = l := by
  induction h with
  | arrived => rw [resolveFrom]
  | up _ _ ih =>
    rw [resolveFrom.eq_def, ← ih]
    simp only [if_true]
  | atLink _ _ _ hnot => cases hnot
  | through _ hname hlink _ _ ih =>
    rw [resolveFrom.eq_def, ← ih]
    simp only [if_neg hname, hlink]
  | down hhere hname hlink hrest ih =>
    rw [resolveFrom.eq_def, ← ih]
    simp only [if_neg hname]
    split
    · next hlink' => exact absurd hlink' (hlink _)
    · rfl

theorem resolve_eq_of_walk {p : Path} (h : t.walk true p = .ok l) : t.resolve p = l :=
  (walk_eq_ok_iff.1 h).resolveFrom_eq

/-- **What is no link is found at its own place.** -/
theorem IsProper.walk_eq_self (ht : t.IsProper) (h : (l, e) ∈ t.entries)
    (he : ∀ target, e ≠ .link target) : t.walk true (Path.ofLocation l) = .ok l := by
  have hstraight : t.walkFrom true maxLinks [] l = .ok ([] ++ l) :=
    walkFrom_straight (fun name hname ↦ (ht.names _ h name hname).2.2.2)
      (fun m hm hne ↦ ht.directory_of_prefix h hm hne)
      (fun target hlink ↦ he target (Option.some.inj ((ht.lookup_eq h).symm.trans hlink)))
  rw [walk, Path.ofLocation, hstraight]
  rfl

theorem IsProper.resolve_eq_self (ht : t.IsProper) (h : (l, e) ∈ t.entries)
    (he : ∀ target, e ≠ .link target) : t.resolve (Path.ofLocation l) = l :=
  resolve_eq_of_walk (ht.walk_eq_self h he)

/-- The place of a file resolves to itself. -/
theorem IsProper.resolve_file (ht : t.IsProper) (h : t.lookup l = some (.file content)) :
    t.resolve (Path.ofLocation l) = l :=
  ht.resolve_eq_self (mem_of_lookup_file h) nofun

/-! ### What stands behind a path -/

theorem lookup_resolve {p : Path} (h : t.entry? p = some e) : t.lookup (t.resolve p) = some e := by
  obtain ⟨l, hwalk, hlookup⟩ := entry?_eq_some_iff.mp h
  rwa [resolve_eq_of_walk hwalk]

theorem lookup_resolve_of_isDirectory {p : Path} (h : t.isDirectory p = true) :
    t.lookup (t.resolve p) = some .directory :=
  lookup_resolve (of_decide_eq_true h)

theorem exists_lookup_resolve_of_isFile {p : Path} (h : t.isFile p = true) :
    ∃ content, t.lookup (t.resolve p) = some (.file content) := by
  obtain ⟨content, hentry⟩ := isFile_iff.mp h
  exact ⟨content, lookup_resolve hentry⟩

end

end FileTree

end YulPlus
