import YulPlus.Proofs.FileTree.Directories
import YulPlus.Proofs.Text.Encoded

/-!
# Writing and reading files

What was written to a path is read from it (`readBytes_of_writeBytes`): a walk that follows every
link does not end at one, so putting a file where it ends keeps all walks. A file can be written
below a directory where nothing stands in the way (`writeBytes_of_opens`). -/

namespace YulPlus

namespace FileTree

variable {t t' : FileTree} {p : Path} {l : Location} {content : List UInt8} {s : Text}
  {parts names : List Text} {name root : Text}

theorem Opens.contains (ho : t.Opens p.parts d) : t.contains p = true :=
  contains_iff.mpr ⟨d, walk_eq_ok_iff.mpr ho.leads, by simp [ho.directory]⟩

/-- A path that leads on to a name leads to a directory. -/
theorem opens_of_leads_concat (hd : t.contains p = true)
    (hl : Leads t true maxLinks [] (p.parts ++ [name]) l) : ∃ d, t.Opens p.parts d := by
  obtain ⟨d, hwalk, hthere⟩ := contains_iff.mp hd
  have hleads : Leads t true maxLinks [] p.parts d := walk_eq_ok_iff.mp hwalk
  refine ⟨d, hleads, ?_⟩
  obtain ⟨left, happend⟩ := hleads.exists_walkFrom_append rfl
  rw [← walkFrom_eq_ok_iff, happend true [name] (.inr rfl), walkFrom] at hl
  cases hlookup : t.lookup d with
  | none => exact absurd hlookup hthere
  | some e =>
    cases e with
    | file content => simp [hlookup] at hl
    | directory => rfl
    | link target =>
      exact absurd hlookup (hleads.not_link rfl (fun m hm ↦ by simp [List.prefix_nil.mp hm]) target)

/-- A new file makes nothing a directory, and leaves every directory. -/
theorem isDirectory_insert_file (hnone : t.lookup l = none) :
    (t.insert l (.file content)).isDirectory p = t.isDirectory p := by
  rw [Bool.eq_iff_iff, isDirectory_iff, isDirectory_iff]
  constructor
  · rintro ⟨k, hleads, hdirectory⟩
    refine ⟨k, hleads.of_insert_file hnone, ?_⟩
    have hne : k ≠ l := by
      rintro rfl
      rw [lookup_insert_self t (ne_nil_of_lookup_eq_none hnone)] at hdirectory
      cases hdirectory
    rwa [lookup_insert_of_ne t hne] at hdirectory
  · rintro ⟨k, ho⟩
    exact ⟨k, (keeps_insert_file hnone content).opens ho⟩

/-- Writing puts a file where the path leads to, in the place of nothing or of a file. -/
theorem exists_of_writeBytes (h : t.writeBytes p content = .ok t') :
    ∃ l, Leads t true maxLinks [] p.parts l ∧ l ≠ [] ∧ t' = t.insert l (.file content) ∧
      Keeps t t' := by
  unfold writeBytes at h
  split at h
  · cases h
  · next l hwalk =>
    have hleads : Leads t true maxLinks [] p.parts l := walk_eq_ok_iff.mp hwalk
    split at h
    · cases h
    · next hdirectory =>
      obtain rfl := Except.ok.inj h
      have hne : l ≠ [] := by
        rintro rfl
        exact hdirectory (lookup_nil t)
      have hlink : ∀ target, t.lookup l ≠ some (.link target) :=
        hleads.not_link rfl fun m hm ↦ by simp [List.prefix_nil.mp hm]
      have hvacant : t.Vacant l := vacant_iff.mpr ⟨hdirectory, hlink⟩
      exact ⟨l, hleads, hne, rfl, hvacant.keeps_insert hne nofun⟩

/-- **What was written is read.** -/
theorem readBytes_of_writeBytes (h : t.writeBytes p content = .ok t') :
    t'.readBytes p = .ok content := by
  obtain ⟨l, hleads, hne, rfl, hkeeps⟩ := exists_of_writeBytes h
  rw [readBytes_eq_ok_iff, entry?_eq_some_iff]
  exact ⟨l, walk_eq_ok_iff.mpr (hkeeps.leads hleads), lookup_insert_self t hne _⟩

/-- A text without carriage returns is read as it was written. -/
theorem readText_of_writeText (h : t.writeText p s = .ok t') (hs : '\r' ∉ s) :
    t'.readText p = .ok s := by
  rw [readText, readBytes_of_writeBytes h]
  simp only [Utf8.decode_encode, Text.normalizeLines_eq_self hs]

/-- A path below a directory, through directories, leads where its names say. -/
theorem Opens.leads_append (ho : t.Opens parts l) (hnames : ∀ n ∈ names, n ≠ ['.', '.'])
    (hne : names ≠ [])
    (hthrough : ∀ m, m <+: names → m ≠ names → t.lookup (l ++ m) = some .directory)
    (hlink : ∀ target, t.lookup (l ++ names) ≠ some (.link target)) :
    Leads t true maxLinks [] (parts ++ names) (l ++ names) := by
  obtain ⟨left, happend⟩ := ho.leads.exists_walkFrom_append rfl
  rw [← walkFrom_eq_ok_iff, happend true names (.inl hne)]
  exact walkFrom_straight hnames hthrough hlink

/-- A name in a directory is a directory if one stands there. -/
theorem Opens.concat (ho : t.Opens parts d) (hname : name ≠ ['.', '.'])
    (hdirectory : t.lookup (d ++ [name]) = some .directory) :
    t.Opens (parts ++ [name]) (d ++ [name]) where
  leads := by
    refine ho.leads_append (by simpa using hname) (by simp) (fun m hm hne ↦ ?_)
      (by simp [hdirectory])
    obtain rfl := List.prefix_nil.mp ((List.prefix_concat_iff.mp hm).resolve_left hne)
    simpa using ho.directory
  directory := hdirectory

/-- **A file can be written** in a directory, unless a directory or a link has its name. -/
theorem writeBytes_of_opens (ho : t.Opens parts l) (hnames : ∀ n ∈ names ++ [name], n ≠ ['.', '.'])
    (hdirectories : ∀ m, m <+: names → t.lookup (l ++ m) = some .directory)
    (hlast : t.Vacant (l ++ (names ++ [name]))) :
    t.writeBytes ⟨root, parts ++ (names ++ [name])⟩ content =
      .ok (t.insert (l ++ (names ++ [name])) (.file content)) := by
  have hleads : Leads t true maxLinks [] (parts ++ (names ++ [name])) (l ++ (names ++ [name])) := by
    refine ho.leads_append hnames (by simp) (fun m hm hne ↦ ?_) hlast.ne_link
    exact hdirectories m ((List.prefix_concat_iff.mp hm).resolve_left hne)
  rw [writeBytes, walk_eq_ok_iff.mpr hleads]
  rcases hlast with hnone | ⟨old, hold⟩ <;> simp [*]

/-! ### A file and the directories on the way to it -/

/-- The second tree is the first one with a file below a location and the directories around it. -/
structure PutBelow (t t' : FileTree) (l : Location) (names : List Text) (name : Text)
    (content : List UInt8) : Prop where
  keeps : Keeps t t'
  file : t'.lookup (l ++ (names ++ [name])) = some (.file content)
  made : ∀ m, m <+: names → t'.lookup (l ++ m) = some .directory
  other : ∀ k, k ≠ l ++ (names ++ [name]) → (∀ m, m <+: names → k ≠ l ++ m) →
    t'.lookup k = t.lookup k

/-- The location of the file is not on the way to it. -/
theorem append_concat_ne {m : List Text} (hm : m <+: names) : l ++ (names ++ [name]) ≠ l ++ m := by
  intro heq
  have hlength := (List.append_cancel_left heq ▸ hm).length_le
  simp only [List.length_append, List.length_singleton] at hlength
  omega

theorem MadeAlong.putBelow (h : MadeAlong t t' l names) (hfree : t.Free l names)
    (hlast : t.Vacant (l ++ (names ++ [name]))) :
    PutBelow t (t'.insert (l ++ (names ++ [name])) (.file content)) l names name content := by
  have hkept : t'.lookup (l ++ (names ++ [name])) = t.lookup (l ++ (names ++ [name])) :=
    h.other _ fun m hm ↦ append_concat_ne hm
  have hvacant : t'.Vacant (l ++ (names ++ [name])) := by rwa [Vacant, hkept]
  have hput : Keeps t' (t'.insert (l ++ (names ++ [name])) (.file content)) :=
    hvacant.keeps_insert (by simp) nofun
  refine ⟨(h.keeps hfree).trans hput, lookup_insert_self t' (by simp) _, fun m hm ↦ ?_,
    fun k hk hway ↦ ?_⟩
  · rw [lookup_insert_of_ne t' (append_concat_ne hm).symm, h.made m hm]
  · rw [lookup_insert_of_ne t' hk, h.other k hway]

end FileTree

end YulPlus
