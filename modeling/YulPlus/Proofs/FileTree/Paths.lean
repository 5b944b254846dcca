import Mathlib.Data.List.Basic
import YulPlus.FileTree.Path

/-!
# Names of sources as paths

The name of a source is a text whose pieces between slashes are proper names: not empty and no dots
alone (`IsSourceName`). As a path it is relative, and its parts are the pieces (`ofText_eq`); so
different names are different paths, since a text is its pieces with slashes in between
(`joinWith_pieces`). -/

namespace YulPlus

open Text

namespace Path

variable {s piece first : Text} {more : List Text} {c : Char}

/-- Every piece between slashes is a proper name. -/
def IsSourceName (s : Text) : Prop :=
  ∀ piece ∈ pieces s, piece ≠ [] ∧ piece ≠ ['.'] ∧ piece ≠ ['.', '.']

instance (s : Text) : Decidable (IsSourceName s) :=
  inferInstanceAs (Decidable (∀ piece ∈ pieces s, _))

/-! ### Pieces between slashes -/

theorem pieces_slash (s : Text) : pieces ('/' :: s) = [] :: pieces s := rfl

theorem pieces_cons (hc : c ≠ '/') (h : pieces s = first :: more) :
    pieces (c :: s) = (c :: first) :: more := by
  rw [pieces, if_neg hc, h]

theorem pieces_ne_nil (s : Text) : pieces s ≠ [] := by
  induction s with
  | nil => exact nofun
  | cons c s ih =>
    obtain ⟨first, more, heq⟩ := List.exists_cons_of_ne_nil ih
    rcases eq_or_ne c '/' with rfl | hc
    · exact nofun
    · rw [pieces_cons hc heq]
      exact nofun

/-- A text is its pieces with slashes in between. -/
theorem joinWith_pieces (s : Text) : joinWith ['/'] (pieces s) = s := by
  induction s with
  | nil => rfl
  | cons c s ih =>
    obtain ⟨first, more, heq⟩ := List.exists_cons_of_ne_nil (pieces_ne_nil s)
    rw [heq] at ih
    rcases eq_or_ne c '/' with rfl | hc
    · rw [pieces_slash, heq, joinWith_cons_cons, ih]
      rfl
    · rw [pieces_cons hc heq, ← ih]
      cases more <;> rfl

theorem pieces_injective : Function.Injective pieces := by
  intro s s' h
  rw [← joinWith_pieces s, h, joinWith_pieces s']

theorem slash_not_mem_of_mem_pieces (h : piece ∈ pieces s) : '/' ∉ piece := by
  induction s generalizing piece with
  | nil =>
    obtain rfl := List.mem_singleton.mp h
    exact nofun
  | cons c s ih =>
    rcases eq_or_ne c '/' with rfl | hc
    · rw [pieces_slash] at h
      rcases List.mem_cons.mp h with rfl | h
      · exact nofun
      · exact ih h
    · obtain ⟨first, more, heq⟩ := List.exists_cons_of_ne_nil (pieces_ne_nil s)
      rw [heq] at ih
      rw [pieces_cons hc heq] at h
      rcases List.mem_cons.mp h with rfl | h
      · have hfirst : '/' ∉ first := ih List.mem_cons_self
        simpa [hfirst] using hc.symm
      · exact ih (List.mem_cons_of_mem first h)

/-- A text without a slash is one piece. -/
theorem pieces_of_slash_not_mem (h : '/' ∉ s) : pieces s = [s] := by
  induction s with
  | nil => rfl
  | cons c s ih =>
    rw [List.mem_cons, not_or] at h
    exact pieces_cons (Ne.symm h.1) (ih h.2)

theorem pieces_append_slash (h : '/' ∉ s) (rest : Text) :
    pieces (s ++ '/' :: rest) = s :: pieces rest := by
  induction s with
  | nil => exact pieces_slash rest
  | cons c s ih =>
    rw [List.mem_cons, not_or] at h
    exact pieces_cons (Ne.symm h.1) (ih h.2)

/-- Names with slashes in between are read back as the pieces. -/
theorem pieces_joinWith {parts : List Text} (hne : parts ≠ []) (h : ∀ part ∈ parts, '/' ∉ part) :
    pieces (joinWith ['/'] parts) = parts := by
  induction parts with
  | nil => exact absurd rfl hne
  | cons part rest ih =>
    have hpart : '/' ∉ part := h part List.mem_cons_self
    cases rest with
    | nil => exact pieces_of_slash_not_mem hpart
    | cons next rest =>
      rw [joinWith_cons_cons, List.append_assoc, List.singleton_append, pieces_append_slash hpart,
        ih (by simp) fun q hq ↦ h q (List.mem_cons_of_mem _ hq)]

/-! ### Names of sources -/

/-- The path of a source is relative, and its parts are the pieces of the name. -/
theorem ofText_eq (h : IsSourceName s) : ofText s = ⟨[], pieces s⟩ := by
  have hnames : names s = pieces s :=
    List.filter_eq_self.mpr fun piece hpiece ↦ by
      obtain ⟨hne, hdot, -⟩ := h piece hpiece
      simp [hne, hdot]
  have hroot : rootOf s = [] := by
    cases s with
    | nil => rfl
    | cons c s =>
      have hc : c ≠ '/' := by
        rintro rfl
        exact (h [] List.mem_cons_self).1 rfl
      simp [rootOf, hc]
  rw [ofText, hnames, hroot]

end Path

/-- The file of a source: in a directory for the source, a file named by its contract. -/
def recordOf (sourceName : Text) : List Text :=
  Path.pieces sourceName ++ [contractName sourceName ++ ".json".toList]

theorem recordOf_injective : Function.Injective recordOf := by
  intro s s' h
  have hpieces : Path.pieces s = Path.pieces s' := by
    simpa [recordOf] using congrArg List.dropLast h
  exact Path.pieces_injective hpieces

theorem slash_not_mem_contractName (s : Text) : '/' ∉ contractName s := by
  intro h
  have hname : '/' ∈ (Path.names s).getLastD [] := List.takeWhile_subset _ h
  rcases List.eq_nil_or_concat (Path.names s) with hnil | ⟨front, last, heq⟩
  · simp [hnil] at hname
  · have hlast : last ∈ Path.names s := by simp [heq]
    have hpiece : last ∈ Path.pieces s := (List.mem_filter.mp hlast).1
    exact Path.slash_not_mem_of_mem_pieces hpiece (by simpa [heq] using hname)

/-- The name of the file is one proper name, since it ends in its extension. -/
theorem ofText_file (s : Text) :
    Path.ofText (contractName s ++ ".json".toList) = ⟨[], [contractName s ++ ".json".toList]⟩ ∧
      contractName s ++ ".json".toList ≠ ['.', '.'] := by
  have hextension : ".json".toList = ['.', 'j', 's', 'o', 'n'] := rfl
  have hshort : ∀ name : Text, name.length < 5 → contractName s ++ ".json".toList ≠ name := by
    rintro name hname rfl
    simp only [hextension, List.length_append, List.length_cons, List.length_nil] at hname
    omega
  have hslash : '/' ∉ contractName s ++ ".json".toList := by
    simp [hextension, slash_not_mem_contractName]
  have hpieces : Path.pieces (contractName s ++ ".json".toList) =
      [contractName s ++ ".json".toList] := Path.pieces_of_slash_not_mem hslash
  have hproper : Path.IsSourceName (contractName s ++ ".json".toList) := by
    rw [Path.IsSourceName, hpieces]
    intro piece hpiece
    obtain rfl := List.mem_singleton.mp hpiece
    exact ⟨hshort _ (by decide), hshort _ (by decide), hshort _ (by decide)⟩
  exact ⟨by rw [Path.ofText_eq hproper, hpieces], hshort _ (by decide)⟩

end YulPlus
