import Mathlib.Data.List.Induction
import YulPlus.Proofs.FileTree.Walk

/-!
# Making directories

Below a directory where nothing but directories stands, directories can be made along any names
(`exists_ensureDirectoriesFrom`): afterwards there is a directory at every step of the way, and
nothing else has changed (`MadeAlong`). Where the directory is missing in which the innermost one
is to be made, the outer ones are made first, so the induction is on the names from the last. -/

namespace YulPlus

namespace FileTree

variable {t t' t'' : FileTree} {l k : Location} {parts names : List Text} {name root : Text}

/-- The names lead to the directory at the location. -/
structure Opens (t : FileTree) (parts : List Text) (l : Location) : Prop where
  leads : Leads t true maxLinks [] parts l
  directory : t.lookup l = some .directory

theorem Keeps.opens (h : Keeps t t') (ho : t.Opens parts l) : t'.Opens parts l :=
  ⟨h.leads ho.leads, h.directory ho.directory⟩

theorem isDirectory_iff {p : Path} : t.isDirectory p = true ↔ ∃ l, t.Opens p.parts l := by
  rw [isDirectory, decide_eq_true_iff, entry?_eq_some_iff]
  constructor
  · rintro ⟨l, hwalk, hdirectory⟩
    exact ⟨l, walk_eq_ok_iff.mp hwalk, hdirectory⟩
  · rintro ⟨l, hleads, hdirectory⟩
    exact ⟨l, walk_eq_ok_iff.mpr hleads, hdirectory⟩

/-- The second tree is the first one with directories along the names. -/
structure MadeAlong (t t' : FileTree) (l : Location) (names : List Text) : Prop where
  made : ∀ m, m <+: names → t'.lookup (l ++ m) = some .directory
  other : ∀ k, (∀ m, m <+: names → k ≠ l ++ m) → t'.lookup k = t.lookup k

theorem MadeAlong.keeps (h : MadeAlong t t' l names) (hfree : t.Free l names) : Keeps t t' where
  directory {k} hk := by
    by_cases hway : ∃ m, m <+: names ∧ k = l ++ m
    · obtain ⟨m, hm, rfl⟩ := hway
      exact h.made m hm
    · rwa [h.other k fun m hm hk ↦ hway ⟨m, hm, hk⟩]
  link {k target} := by
    by_cases hway : ∃ m, m <+: names ∧ k = l ++ m
    · obtain ⟨m, hm, rfl⟩ := hway
      rw [h.made m hm]
      exact ⟨nofun, fun hlink ↦ absurd hlink (hfree.not_link hm target)⟩
    · rw [h.other k fun m hm hk ↦ hway ⟨m, hm, hk⟩]

/-- One more directory is made behind the others. -/
theorem MadeAlong.concat (h : MadeAlong t t' l names)
    (hlast : t''.lookup (l ++ (names ++ [name])) = some .directory)
    (hother : ∀ k, k ≠ l ++ (names ++ [name]) → t''.lookup k = t'.lookup k) :
    MadeAlong t t'' l (names ++ [name]) where
  made m hm := by
    rcases eq_or_ne (l ++ m) (l ++ (names ++ [name])) with heq | hne
    · rw [heq, hlast]
    · have hmnames : m <+: names :=
        (List.prefix_concat_iff.mp hm).resolve_left fun h ↦ hne (congrArg _ h)
      rw [hother _ hne, h.made m hmnames]
  other k hk := by
    rw [hother k (hk _ List.prefix_rfl),
      h.other k fun m hm ↦ hk m (hm.trans (List.prefix_append _ _))]

/-! ### One directory -/

/-- A directory that is there need not be made. -/
theorem ensureDirectory_of_opens (root : Text) (ho : t.Opens parts l) :
    t.ensureDirectory ⟨root, parts⟩ = .ok t := by
  have hthere : (t.lookup l).isSome := by rw [ho.directory]; rfl
  obtain ⟨m, hwalk, hm⟩ := ho.leads.exists_walkFrom_eq_ok rfl hthere
  have hmake : t.makeDirectory ⟨root, parts⟩ = .error ⟨.exists_, ⟨root, parts⟩⟩ := by
    simp [makeDirectory, walk, hwalk, hm]
  have hdirectory : t.isDirectory ⟨root, parts⟩ = true := isDirectory_iff.mpr ⟨l, ho⟩
  simp [ensureDirectory, hmake, hdirectory]

/-- A directory is made in one that is there. -/
theorem exists_ensureDirectory (root : Text) (ho : t.Opens parts l)
    (hfree : t.Free l (names ++ [name])) (hnames : ∀ n ∈ names ++ [name], n ≠ ['.', '.'])
    (hdirectories : ∀ m, m <+: names → t.lookup (l ++ m) = some .directory) :
    ∃ t', t.ensureDirectory ⟨root, parts ++ (names ++ [name])⟩ = .ok t' ∧
      t'.lookup (l ++ (names ++ [name])) = some .directory ∧
      ∀ k, k ≠ l ++ (names ++ [name]) → t'.lookup k = t.lookup k := by
  obtain ⟨left, happend⟩ := ho.leads.exists_walkFrom_append rfl
  have hwalk : ∀ follow, t.walkFrom follow maxLinks [] (parts ++ (names ++ [name])) =
      .ok (l ++ (names ++ [name])) := by
    intro follow
    rw [happend follow _ (.inl (by simp))]
    refine walkFrom_straight hnames (fun m hm hne ↦ ?_) (hfree.not_link List.prefix_rfl)
    exact hdirectories m ((List.prefix_concat_iff.mp hm).resolve_left hne)
  rcases hfree _ List.prefix_rfl with hnone | hthere
  · refine ⟨t.insert (l ++ (names ++ [name])) .directory, ?_, ?_, ?_⟩
    · simp [ensureDirectory, makeDirectory, walk, hwalk, hnone]
    · exact lookup_insert_self t (by simp) _
    · exact fun k hk ↦ lookup_insert_of_ne t hk _
  · refine ⟨t, ?_, hthere, fun _ _ ↦ rfl⟩
    exact ensureDirectory_of_opens root ⟨walkFrom_eq_ok_iff.mp (hwalk true), hthere⟩

/-- The place of a name in a directory. -/
theorem Opens.walkFrom_concat (ho : t.Opens parts d) (hname : name ≠ ['.', '.']) :
    t.walkFrom false maxLinks [] (parts ++ [name]) = .ok (d ++ [name]) := by
  obtain ⟨left, happend⟩ := ho.leads.exists_walkFrom_append rfl
  rw [happend false [name] (.inl (by simp))]
  have hhere := passable_of_directory ho.directory
  by_cases hlink : ∃ target, t.lookup (d ++ [name]) = some (.link target)
  · obtain ⟨target, hlink⟩ := hlink
    exact walkFrom_atLink hhere hname hlink
  · rw [walkFrom_down hhere hname fun target ht ↦ hlink ⟨target, ht⟩, walkFrom]

/-- **Making a directory in a directory**: it is made where nothing stands, and left where a
directory is. -/
theorem ensureDirectory_concat (ho : t.Opens parts d) (hname : name ≠ ['.', '.']) :
    t.ensureDirectory ⟨root, parts ++ [name]⟩ =
      if t.lookup (d ++ [name]) = none then .ok (t.insert (d ++ [name]) .directory)
      else if t.isDirectory ⟨root, parts ++ [name]⟩ then .ok t
      else .error ⟨.exists_, ⟨root, parts ++ [name]⟩⟩ := by
  have hmake : t.makeDirectory ⟨root, parts ++ [name]⟩ =
      if t.lookup (d ++ [name]) = none then .ok (t.insert (d ++ [name]) .directory)
      else .error ⟨.exists_, ⟨root, parts ++ [name]⟩⟩ := by
    simp only [makeDirectory, walk, ho.walkFrom_concat hname]
    cases t.lookup (d ++ [name]) <;> simp
  rw [ensureDirectory, hmake]
  by_cases hnone : t.lookup (d ++ [name]) = none <;> simp [hnone]

/-- Without the directory around it, a directory cannot be made. -/
theorem ensureDirectory_of_missing (ho : t.Opens parts l) (hfree : t.Free l (names ++ [name]))
    (hnames : ∀ n ∈ names ++ [name], n ≠ ['.', '.'])
    (hmissing : ∃ m, m <+: names ∧ t.lookup (l ++ m) = none) :
    t.ensureDirectory ⟨root, parts ++ (names ++ [name])⟩ =
      .error ⟨.notFound, ⟨root, parts ++ (names ++ [name])⟩⟩ := by
  obtain ⟨left, happend⟩ := ho.leads.exists_walkFrom_append rfl
  obtain ⟨m, hm, hnone⟩ := hmissing
  have hne : m ≠ names ++ [name] := by
    rintro rfl
    have hlength := hm.length_le
    simp only [List.length_append, List.length_singleton] at hlength
    omega
  have hwalk : t.walkFrom false maxLinks [] (parts ++ (names ++ [name])) = .error .notFound := by
    rw [happend false _ (.inl (by simp))]
    exact walkFrom_missing hfree hnames (hm.trans (List.prefix_append _ _)) hne hnone
  simp [ensureDirectory, makeDirectory, walk, hwalk]

/-! ### Directories along names -/

/-- **Directories can be made along names** below a directory where nothing stands in the way. -/
theorem exists_ensureDirectoriesFrom (root : Text) (ho : t.Opens parts l)
    (hfree : t.Free l names) (hnames : ∀ n ∈ names, n ≠ ['.', '.']) :
    ∃ t', ensureDirectoriesFrom root t (parts ++ names).reverse = (t', none) ∧
      MadeAlong t t' l names := by
  induction names using List.reverseRecOn with
  | nil =>
    refine ⟨t, ?_, fun m hm ↦ ?_, fun _ _ ↦ rfl⟩
    · have hthere := ensureDirectory_of_opens root ho
      rw [List.append_nil]
      rcases List.eq_nil_or_concat parts with rfl | ⟨outer, innermost, rfl⟩
      · simp [ensureDirectoriesFrom, hthere]
      · simp [ensureDirectoriesFrom] at hthere ⊢
        simp [hthere]
    · obtain rfl := List.prefix_nil.mp hm
      simpa using ho.directory
  | append_singleton names name ih =>
    have hfree' : t.Free l names := fun m hm ↦ hfree m (hm.trans (List.prefix_append _ _))
    have hreverse : (parts ++ (names ++ [name])).reverse = name :: (parts ++ names).reverse := by
      simp
    have hpath : (name :: (parts ++ names).reverse).reverse = parts ++ (names ++ [name]) := by simp
    rw [hreverse, ensureDirectoriesFrom, hpath]
    by_cases hdirectories : ∀ m, m <+: names → t.lookup (l ++ m) = some .directory
    · obtain ⟨t', hmade, hlast, hother⟩ :=
        exists_ensureDirectory root ho hfree hnames hdirectories
      have hthere : MadeAlong t t l names := ⟨hdirectories, fun _ _ ↦ rfl⟩
      exact ⟨t', by simp [hmade], hthere.concat hlast hother⟩
    · -- The directory around the last one is made first, by the induction hypothesis.
      have hmissing : ∃ m, m <+: names ∧ t.lookup (l ++ m) = none := by
        by_contra hall
        refine hdirectories fun m hm ↦ (hfree' m hm).resolve_left fun hnone ↦ hall ⟨m, hm, hnone⟩
      obtain ⟨t₁, houter, hmade₁⟩ := ih hfree' fun n hn ↦ hnames n (List.mem_append_left _ hn)
      have hfree₁ : t₁.Free l (names ++ [name]) := fun m hm ↦ by
        by_cases hway : ∃ m', m' <+: names ∧ l ++ m = l ++ m'
        · obtain ⟨m', hm', heq⟩ := hway
          exact .inr (heq ▸ hmade₁.made m' hm')
        · rw [hmade₁.other _ fun m' hm' heq ↦ hway ⟨m', hm', heq⟩]
          exact hfree m hm
      obtain ⟨t', hmade, hlast, hother⟩ := exists_ensureDirectory root
        ((hmade₁.keeps hfree').opens ho) hfree₁ hnames hmade₁.made
      refine ⟨t', ?_, hmade₁.concat hlast hother⟩
      rw [ensureDirectory_of_missing ho hfree hnames hmissing]
      simp only [if_true]
      rw [houter]
      simp only [hmade]

end FileTree

end YulPlus
