import Mathlib.Data.List.Infix
import YulPlus.FileTree.Basic

/-!
# Walking through a file tree

A walk depends on the directories and the links of a tree only, so a tree that keeps them has the
same walks (`Keeps.leads`), and putting a file where no link is keeps them. A walk can be cut in
two where it goes through a directory (`exists_walkFrom_append`); below a place where nothing but
directories stands, a walk either goes straight on (`walkFrom_straight`) or finds something missing
(`walkFrom_missing`). What a path stands for is what a walk that follows every link leads to
(`entry?_eq_some_iff`). -/

namespace YulPlus

namespace FileTree

variable {t t' t'' : FileTree} {l m here : Location} {e : Entry} {follow : Bool} {links : Nat}
  {names rest : List Text}

/-! ### Looking up what was put into a tree -/

@[simp] theorem lookup_nil (t : FileTree) : t.lookup [] = some .directory := rfl

theorem lookup_of_ne_nil (hl : l ≠ []) :
    t.lookup l = (t.entries.find? fun entry ↦ entry.1 = l).map (·.2) := by
  simp [lookup, hl]

section

variable {entries : List (Location × Entry)}

/-- Among entries with new contents for one location, this one has the contents. -/
theorem find?_replaced_self (h : ∃ entry ∈ entries, entry.1 = l) :
    ((entries.map fun entry ↦ if entry.1 = l then (l, e) else entry).find? fun entry ↦
      entry.1 = l) = some (l, e) := by
  induction entries with
  | nil => simp at h
  | cons first entries ih =>
    by_cases hfirst : first.1 = l
    · simp [hfirst]
    · have hrest : ∃ entry ∈ entries, entry.1 = l := by simpa [hfirst] using h
      rw [List.map_cons, if_neg hfirst, List.find?_cons_of_neg (by simpa using hfirst)]
      exact ih hrest

/-- And every other location has what it had. -/
theorem find?_replaced_of_ne (h : m ≠ l) :
    ((entries.map fun entry ↦ if entry.1 = l then (l, e) else entry).find? fun entry ↦
      entry.1 = m) = entries.find? fun entry ↦ entry.1 = m := by
  induction entries with
  | nil => rfl
  | cons first entries ih =>
    by_cases hfirst : first.1 = l
    · have hother : first.1 ≠ m := fun hm ↦ h (hm.symm.trans hfirst)
      simp [hfirst, h.symm, ih]
    · simp [hfirst, List.find?_cons, ih]

end

theorem lookup_insert_self (t : FileTree) (hl : l ≠ []) (e : Entry) :
    (t.insert l e).lookup l = some e := by
  rw [lookup_of_ne_nil hl, insert]
  split
  · next hany =>
    obtain ⟨entry, hmem, hentry⟩ := List.any_eq_true.mp hany
    rw [find?_replaced_self ⟨entry, hmem, of_decide_eq_true hentry⟩]
    rfl
  · next hany =>
    have hnew : t.entries.find? (fun entry ↦ entry.1 = l) = none :=
      List.find?_eq_none.mpr fun entry hmem h ↦ hany (List.any_eq_true.mpr ⟨entry, hmem, h⟩)
    simp [List.find?_append, hnew]

theorem lookup_insert_of_ne (t : FileTree) (hm : m ≠ l) (e : Entry) :
    (t.insert l e).lookup m = t.lookup m := by
  rcases eq_or_ne m [] with rfl | hne
  · rfl
  rw [lookup_of_ne_nil hne, lookup_of_ne_nil hne, insert]
  split
  · rw [find?_replaced_of_ne hm]
  · simp [List.find?_append, hm.symm]

theorem lookup_insert (t : FileTree) (hl : l ≠ []) (e : Entry) (m : Location) :
    (t.insert l e).lookup m = if m = l then some e else t.lookup m := by
  split
  · next hm => rw [hm, lookup_insert_self t hl]
  · next hm => exact lookup_insert_of_ne t hm e

/-- A location where nothing stands is not the root. -/
theorem ne_nil_of_lookup_eq_none (h : t.lookup l = none) : l ≠ [] := by
  rintro rfl
  cases h

theorem insert_ne_self (hnone : t.lookup l = none) (e : Entry) :
    t.insert l e ≠ t := by
  intro h
  have hlookup := lookup_insert_self t (ne_nil_of_lookup_eq_none hnone) e
  rw [h, hnone] at hlookup
  cases hlookup

/-! ### Where a walk leads -/

/-- A walk may go on from here: something stands here and it is no file. -/
def Passable (t : FileTree) (l : Location) : Prop :=
  ∃ e, t.lookup l = some e ∧ ∀ content, e ≠ .file content

theorem passable_of_directory (h : t.lookup l = some .directory) : t.Passable l :=
  ⟨.directory, h, nofun⟩

/-- A walk from a location along names leads to a location. -/
inductive Leads (t : FileTree) (follow : Bool) : Nat → Location → List Text → Location → Prop
  | arrived {links : Nat} {here : Location} : Leads t follow links here [] here
  | up {links : Nat} {here l : Location} {rest : List Text} (hhere : t.Passable here)
    (h : Leads t follow links here.dropLast rest l) :
    Leads t follow links here (['.', '.'] :: rest) l
  | atLink {links : Nat} {here target : Location} {name : Text} (hhere : t.Passable here)
    (hname : name ≠ ['.', '.']) (hlink : t.lookup (here ++ [name]) = some (.link target))
    (hfollow : follow = false) : Leads t follow links here [name] (here ++ [name])
  | through {links : Nat} {here l target : Location} {name : Text} {rest : List Text}
    (hhere : t.Passable here) (hname : name ≠ ['.', '.'])
    (hlink : t.lookup (here ++ [name]) = some (.link target))
    (hfollow : rest ≠ [] ∨ follow = true) (h : Leads t follow links [] (target ++ rest) l) :
    Leads t follow (links + 1) here (name :: rest) l
  | down {links : Nat} {here l : Location} {name : Text} {rest : List Text}
    (hhere : t.Passable here) (hname : name ≠ ['.', '.'])
    (hlink : ∀ target, t.lookup (here ++ [name]) ≠ some (.link target))
    (h : Leads t follow links (here ++ [name]) rest l) : Leads t follow links here (name :: rest) l

section

variable {name : Text} {target : Location} (hhere : t.Passable here)

include hhere

theorem walkFrom_up :
    t.walkFrom follow links here (['.', '.'] :: rest) =
      t.walkFrom follow links here.dropLast rest := by
  obtain ⟨e, he, hfile⟩ := hhere
  rw [walkFrom, he]
  cases e with
  | file content => exact absurd rfl (hfile content)
  | directory | link => simp

variable (hname : name ≠ ['.', '.'])

include hname

theorem walkFrom_atLink (hlink : t.lookup (here ++ [name]) = some (.link target)) :
    t.walkFrom false links here [name] = .ok (here ++ [name]) := by
  obtain ⟨e, he, hfile⟩ := hhere
  rw [walkFrom, he]
  cases e with
  | file content => exact absurd rfl (hfile content)
  | directory | link => simp [hname, hlink]

theorem walkFrom_through (hlink : t.lookup (here ++ [name]) = some (.link target))
    (hfollow : rest ≠ [] ∨ follow = true) :
    t.walkFrom follow (links + 1) here (name :: rest) =
      t.walkFrom follow links [] (target ++ rest) := by
  obtain ⟨e, he, hfile⟩ := hhere
  have hgoes : (rest.isEmpty && !follow) = false := by
    rcases hfollow with hrest | hfollow
    · simp [hrest]
    · simp [hfollow]
  rw [walkFrom, he]
  cases e with
  | file content => exact absurd rfl (hfile content)
  | directory | link => simp [hname, hlink, hgoes]

theorem walkFrom_down (hlink : ∀ target, t.lookup (here ++ [name]) ≠ some (.link target)) :
    t.walkFrom follow links here (name :: rest) =
      t.walkFrom follow links (here ++ [name]) rest := by
  obtain ⟨e, he, hfile⟩ := hhere
  rw [walkFrom, he]
  cases e with
  | file content => exact absurd rfl (hfile content)
  | directory | link =>
    simp only [hname, if_false]

end

/-- **The relation is what a walk computes.** -/
theorem walkFrom_eq_ok_iff :
    t.walkFrom follow links here names = .ok l ↔ Leads t follow links here names l := by
  refine ⟨fun h ↦ ?_, fun h ↦ ?_⟩
  · fun_induction FileTree.walkFrom t follow links here names with
    | case1 =>
      obtain rfl := Except.ok.inj h
      exact .arrived
    | case2 | case3 | case6 => cases h
    | case4 links here rest e hfile hhere ih =>
      exact .up ⟨e, hhere, fun content hc ↦ hfile content hc⟩ (ih h)
    | case5 links here name rest e hfile hhere hname target hlink hlast =>
      obtain rfl := Except.ok.inj h
      simp only [Bool.and_eq_true, List.isEmpty_iff, Bool.not_eq_true'] at hlast
      obtain ⟨rfl, hfollow⟩ := hlast
      exact .atLink ⟨e, hhere, fun content hc ↦ hfile content hc⟩ hname hlink hfollow
    | case7 here name rest e hfile hhere hname target hlink hlast links ih =>
      have hfollow : rest ≠ [] ∨ follow = true := by
        simpa [imp_iff_not_or] using hlast
      exact .through ⟨e, hhere, fun content hc ↦ hfile content hc⟩ hname hlink hfollow (ih h)
    | case8 links here name rest e hfile hhere hname hlink ih =>
      exact .down ⟨e, hhere, fun content hc ↦ hfile content hc⟩ hname
        (fun target htarget ↦ hlink target htarget) (ih h)
  · induction h with
    | arrived => simp [walkFrom]
    | up hhere _ ih => rw [walkFrom_up hhere, ih]
    | atLink hhere hname hlink hfollow => rw [hfollow, walkFrom_atLink hhere hname hlink]
    | through hhere hname hlink hfollow _ ih =>
      rw [walkFrom_through hhere hname hlink hfollow, ih]
    | down hhere hname hlink _ ih => rw [walkFrom_down hhere hname hlink, ih]

/-! ### Trees with the same walks -/

/-- The directories of a tree stay, and its links are the same. -/
structure Keeps (t t' : FileTree) : Prop where
  directory : ∀ {l}, t.lookup l = some .directory → t'.lookup l = some .directory
  link : ∀ {l target}, t'.lookup l = some (.link target) ↔ t.lookup l = some (.link target)

theorem Keeps.refl (t : FileTree) : Keeps t t :=
  ⟨id, Iff.rfl⟩

theorem Keeps.trans (h : Keeps t t') (h' : Keeps t' t'') : Keeps t t'' :=
  ⟨fun hl ↦ h'.directory (h.directory hl), h'.link.trans h.link⟩

/-- Nothing stands here, or a file that may be replaced. -/
def Vacant (t : FileTree) (l : Location) : Prop :=
  t.lookup l = none ∨ ∃ content, t.lookup l = some (.file content)

theorem Vacant.ne_directory (h : t.Vacant l) : t.lookup l ≠ some .directory := by
  rcases h with h | ⟨content, h⟩ <;> simp [h]

theorem Vacant.ne_link (h : t.Vacant l) (target : Location) : t.lookup l ≠ some (.link target) := by
  rcases h with h | ⟨content, h⟩ <;> simp [h]

/-- What is neither a directory nor a link leaves the place to a file. -/
theorem vacant_iff : t.Vacant l ↔
    t.lookup l ≠ some .directory ∧ ∀ target, t.lookup l ≠ some (.link target) := by
  refine ⟨fun h ↦ ⟨h.ne_directory, h.ne_link⟩, fun ⟨hdirectory, hlink⟩ ↦ ?_⟩
  cases hl : t.lookup l with
  | none => exact .inl hl
  | some e =>
    cases e with
    | file content => exact .inr ⟨content, hl⟩
    | directory => exact absurd hl hdirectory
    | link target => exact absurd hl (hlink target)

/-- A file or a directory may be put where the place is vacant. -/
theorem Vacant.keeps_insert (h : t.Vacant l) (hl : l ≠ []) (he : ∀ target, e ≠ .link target) :
    Keeps t (t.insert l e) where
  directory {m} hm := by
    have hne : m ≠ l := by
      rintro rfl
      exact h.ne_directory hm
    rwa [lookup_insert_of_ne t hne]
  link {m target} := by
    rw [lookup_insert t hl]
    split
    · next hm =>
      subst hm
      exact ⟨fun hm ↦ absurd (Option.some.inj hm) (he target),
        fun hm ↦ absurd hm (h.ne_link target)⟩
    · rfl

theorem Keeps.passable (h : Keeps t t') (hl : t.Passable l) : t'.Passable l := by
  obtain ⟨e, he, hfile⟩ := hl
  cases e with
  | file content => exact absurd rfl (hfile content)
  | directory => exact passable_of_directory (h.directory he)
  | link target => exact ⟨.link target, h.link.mpr he, nofun⟩

/-- **A walk leads to the same place in a tree that keeps directories and links.** -/
theorem Keeps.leads (h : Keeps t t') (hl : Leads t follow links here names l) :
    Leads t' follow links here names l := by
  induction hl with
  | arrived => exact .arrived
  | up hhere _ ih => exact .up (h.passable hhere) ih
  | atLink hhere hname hlink hfollow =>
    exact .atLink (h.passable hhere) hname (h.link.mpr hlink) hfollow
  | through hhere hname hlink hfollow _ ih =>
    exact .through (h.passable hhere) hname (h.link.mpr hlink) hfollow ih
  | down hhere hname hlink _ ih =>
    exact .down (h.passable hhere) hname (fun target ht ↦ hlink target (h.link.mp ht)) ih

theorem keeps_insert_file (hnone : t.lookup l = none) (content : List UInt8) :
    Keeps t (t.insert l (.file content)) :=
  Vacant.keeps_insert (.inl hnone) (ne_nil_of_lookup_eq_none hnone) (by simp)

/-- A walk past a new file was possible without it. -/
theorem Leads.of_insert_file (hnone : t.lookup l = none)
    (h : Leads (t.insert l (.file content)) follow links here names m) :
    Leads t follow links here names m := by
  have hpassable : ∀ {k}, (t.insert l (.file content)).Passable k → t.Passable k := by
    rintro k ⟨e, he, hfile⟩
    rcases eq_or_ne k l with rfl | hne
    · rw [lookup_insert_self t (ne_nil_of_lookup_eq_none hnone)] at he
      exact absurd (Option.some.inj he).symm (hfile content)
    · exact ⟨e, by rwa [lookup_insert_of_ne t hne] at he, hfile⟩
  have hlink : ∀ {k target}, (t.insert l (.file content)).lookup k = some (.link target) ↔
      t.lookup k = some (.link target) := (keeps_insert_file hnone content).link
  induction h with
  | arrived => exact .arrived
  | up hhere _ ih => exact .up (hpassable hhere) ih
  | atLink hhere hname hat hfollow => exact .atLink (hpassable hhere) hname (hlink.mp hat) hfollow
  | through hhere hname hat hfollow _ ih =>
    exact .through (hpassable hhere) hname (hlink.mp hat) hfollow ih
  | down hhere hname hnot _ ih =>
    exact .down (hpassable hhere) hname (fun target ht ↦ hnot target (hlink.mpr ht)) ih

/-- Links are worked out the same in a tree that keeps them. -/
theorem Keeps.resolveFrom_eq (h : Keeps t t') :
    t'.resolveFrom links here names = t.resolveFrom links here names := by
  fun_induction FileTree.resolveFrom t links here names with
  | case1 => rw [resolveFrom]
  | case2 links here rest ih =>
    rw [resolveFrom.eq_def]
    simpa using ih
  | case3 here name rest hname target links hlink ih =>
    rw [resolveFrom.eq_def]
    simpa only [if_neg hname, h.link.mpr hlink] using ih
  | case4 here name rest hname links hother ih =>
    rw [resolveFrom.eq_def]
    simp only [if_neg hname]
    split
    · next hlink => exact absurd rfl (hother _ _ (h.link.mp hlink))
    · exact ih

/-- A walk that follows every link does not end at one. -/
theorem Leads.not_link (h : Leads t follow links here names l) (hfollow : follow = true)
    (hhere : ∀ m, m <+: here → ∀ target, t.lookup m ≠ some (.link target)) (target : Location) :
    t.lookup l ≠ some (.link target) := by
  induction h with
  | arrived => exact hhere _ List.prefix_rfl target
  | up _ _ ih => exact ih fun m hm ↦ hhere m (hm.trans (List.dropLast_prefix _))
  | atLink _ _ _ hnot => exact absurd (hnot.symm.trans hfollow) Bool.false_ne_true
  | through _ _ _ _ _ ih =>
    refine ih fun m hm ↦ ?_
    obtain rfl := List.prefix_nil.mp hm
    exact nofun
  | down _ _ hlink _ ih =>
    refine ih fun m hm ↦ ?_
    rcases List.prefix_concat_iff.mp hm with rfl | hm
    · exact hlink
    · exact hhere m hm

/-! ### Walks that are put together -/

/-- **A walk goes on from where its first part leads to**, with the links that are left. -/
theorem Leads.exists_walkFrom_append (h : Leads t follow links here names l)
    (hfollow : follow = true) :
    ∃ left, ∀ follow rest, rest ≠ [] ∨ follow = true →
      t.walkFrom follow links here (names ++ rest) = t.walkFrom follow left l rest := by
  induction h with
  | arrived => exact ⟨_, fun _ _ _ ↦ rfl⟩
  | up hhere _ ih =>
    obtain ⟨left, hleft⟩ := ih
    exact ⟨left, fun follow rest hrest ↦ (walkFrom_up hhere).trans (hleft follow rest hrest)⟩
  | atLink _ _ _ hnot => exact absurd (hnot.symm.trans hfollow) Bool.false_ne_true
  | @through links here l target name names hhere hname hlink _ _ ih =>
    obtain ⟨left, hleft⟩ := ih
    refine ⟨left, fun follow rest hrest ↦ ?_⟩
    have hgoes : names ++ rest ≠ [] ∨ follow = true :=
      hrest.imp_left (List.append_ne_nil_of_right_ne_nil names)
    rw [List.cons_append, walkFrom_through hhere hname hlink hgoes, ← List.append_assoc]
    exact hleft follow rest hrest
  | down hhere hname hlink _ ih =>
    obtain ⟨left, hleft⟩ := ih
    exact ⟨left, fun follow rest hrest ↦
      (walkFrom_down hhere hname hlink).trans (hleft follow rest hrest)⟩

/-- What stands at the end of a walk that follows every link also stands where the walk ends that
does not follow the last one. -/
theorem Leads.exists_walkFrom_eq_ok (h : Leads t follow links here names l)
    (hfollow : follow = true) (hl : (t.lookup l).isSome) :
    ∃ m, t.walkFrom false links here names = .ok m ∧ (t.lookup m).isSome := by
  induction h with
  | arrived => exact ⟨_, by rw [walkFrom], hl⟩
  | up hhere _ ih =>
    rw [walkFrom_up hhere]
    exact ih hl
  | atLink _ _ _ hnot => exact absurd (hnot.symm.trans hfollow) Bool.false_ne_true
  | @through links here l target name rest hhere hname hlink _ _ ih =>
    rcases eq_or_ne rest [] with rfl | hrest
    · exact ⟨_, walkFrom_atLink hhere hname hlink, by rw [hlink]; rfl⟩
    · rw [walkFrom_through hhere hname hlink (.inl hrest)]
      exact ih hl
  | down hhere hname hlink _ ih =>
    rw [walkFrom_down hhere hname hlink]
    exact ih hl

/-! ### Walks without links -/

/-- A walk goes straight on through directories. -/
theorem walkFrom_straight (hnames : ∀ name ∈ names, name ≠ ['.', '.'])
    (hthrough : ∀ m, m <+: names → m ≠ names → t.lookup (l ++ m) = some .directory)
    (hlink : ∀ target, t.lookup (l ++ names) ≠ some (.link target)) :
    t.walkFrom follow links l names = .ok (l ++ names) := by
  induction names generalizing l with
  | nil => rw [walkFrom, List.append_nil]
  | cons name names ih =>
    have hname : name ≠ ['.', '.'] := hnames name List.mem_cons_self
    have hhere : t.lookup l = some .directory := by
      simpa using hthrough [] List.nil_prefix (by simp)
    have hnext : ∀ target, t.lookup (l ++ [name]) ≠ some (.link target) := by
      intro target
      rcases eq_or_ne names [] with rfl | hne
      · exact hlink target
      · have hdirectory := hthrough [name] (by simp) (by simpa using hne.symm)
        simp [hdirectory]
    rw [walkFrom_down (passable_of_directory hhere) hname hnext,
      ih (fun n hn ↦ hnames n (List.mem_cons_of_mem name hn)) (fun m hm hne ↦ ?_)
        (by simpa using hlink),
      List.append_assoc]
    · rfl
    · simpa using hthrough (name :: m) (by simpa using hm) (by simpa using hne)

/-- From here along the names there is nothing but directories, if there is anything. -/
def Free (t : FileTree) (l : Location) (names : List Text) : Prop :=
  ∀ m, m <+: names → t.lookup (l ++ m) = none ∨ t.lookup (l ++ m) = some .directory

theorem Free.not_link (h : t.Free l names) (hm : m <+: names) (target : Location) :
    t.lookup (l ++ m) ≠ some (.link target) := by
  rcases h m hm with h | h <;> simp [h]

/-- Where a directory is missing, a walk finds it missing. -/
theorem walkFrom_missing (hfree : t.Free l names) (hnames : ∀ name ∈ names, name ≠ ['.', '.'])
    (hm : m <+: names) (hne : m ≠ names) (hmissing : t.lookup (l ++ m) = none) :
    t.walkFrom follow links l names = .error .notFound := by
  induction names generalizing l m with
  | nil => exact absurd (List.prefix_nil.mp hm) hne
  | cons name names ih =>
    have hname : name ≠ ['.', '.'] := hnames name List.mem_cons_self
    rcases hfree [] List.nil_prefix with hhere | hhere <;> rw [List.append_nil] at hhere
    · rw [walkFrom, hhere]
    · cases m with
      | nil => simp [hhere] at hmissing
      | cons first m =>
        obtain ⟨rfl, hrest⟩ := List.cons_prefix_cons.mp hm
        have hfree' : t.Free (l ++ [first]) names := fun m' hm' ↦ by
          simpa using hfree (first :: m') (by simpa using hm')
        rw [walkFrom_down (passable_of_directory hhere) hname (hfree.not_link (by simp))]
        exact ih hfree' (fun n hn ↦ hnames n (List.mem_cons_of_mem first hn)) hrest
          (fun h ↦ hne (congrArg _ h)) (by simpa using hmissing)

/-! ### What stands behind a path -/

section

variable {p : Path} {content : List UInt8}

theorem walk_eq_ok_iff : t.walk follow p = .ok l ↔ Leads t follow maxLinks [] p.parts l := by
  rw [← walkFrom_eq_ok_iff, walk]
  split <;> simp_all

theorem entry?_eq_some_iff :
    t.entry? p = some e ↔ ∃ l, t.walk true p = .ok l ∧ t.lookup l = some e := by
  unfold entry?
  cases t.walk true p <;> simp

theorem contains_iff : t.contains p = true ↔ ∃ l, t.walk true p = .ok l ∧ t.lookup l ≠ none := by
  simp only [contains, Option.isSome_iff_exists, entry?_eq_some_iff, Option.ne_none_iff_exists']
  exact ⟨fun ⟨e, l, hwalk, he⟩ ↦ ⟨l, hwalk, e, he⟩, fun ⟨l, hwalk, e, he⟩ ↦ ⟨e, l, hwalk, he⟩⟩

theorem isFile_iff : t.isFile p = true ↔ ∃ content, t.entry? p = some (.file content) := by
  rw [isFile]
  split
  · next content hentry => simp [hentry]
  · next hnone => simpa using hnone

/-- Only the bytes of a file can be read. -/
theorem readBytes_eq_ok_iff : t.readBytes p = .ok content ↔ t.entry? p = some (.file content) := by
  rw [readBytes, entry?]
  cases t.walk true p with
  | error fault => simp
  | ok l =>
    dsimp only
    cases t.lookup l with
    | none => simp
    | some e => cases e <;> simp

/-- What is no file has no bytes to read. -/
theorem exists_readBytes_eq_error (h : t.isFile p = false) : ∃ e, t.readBytes p = .error e := by
  cases hread : t.readBytes p with
  | error e => exact ⟨e, rfl⟩
  | ok content =>
    rw [isFile_iff.mpr ⟨content, readBytes_eq_ok_iff.mp hread⟩] at h
    cases h

end

end FileTree

end YulPlus
