import YulPlus.Build.Toolchain
import YulPlus.Proofs.Text.Words

/-!
# The version that a compiler reports

An executable reports a version by a mark in its output: the word `Version:`, any blanks, and three
numbers with points between them, the last of them as long as its digits go (`Marks`). The first
mark counts (`Reports`), and this is what is found (`reportedVersion?_eq_some_iff`). No blank is a
digit, so there is only one way to read a mark. -/

namespace YulPlus

open Text

/-! ### Blanks and digits -/

section

variable {table : List (Nat × Nat)} {n : Nat}

/-- The numbers with a digit value are those in the ranges. -/
theorem isSome_digitValueIn : (digitValueIn table n).isSome = inRanges table n := by
  induction table with
  | nil => rfl
  | cons r table ih =>
    rw [digitValueIn, inRanges, ← ih]
    split
    · rfl
    · split <;> rfl

theorem exists_of_inRanges (h : inRanges table n = true) : ∃ r ∈ table, r.1 ≤ n ∧ n ≤ r.2 := by
  induction table with
  | nil => cases h
  | cons r table ih =>
    rw [inRanges] at h
    split at h
    · cases h
    · split at h
      · exact ⟨r, List.mem_cons_self, by omega, by omega⟩
      · obtain ⟨r', hr', hn⟩ := ih h
        exact ⟨r', List.mem_cons_of_mem r hr', hn⟩

theorem exists_of_digitValueIn (h : (digitValueIn table n).isSome) :
    ∃ r ∈ table, r.1 ≤ n ∧ n ≤ r.2 :=
  exists_of_inRanges (isSome_digitValueIn.symm.trans h)

end

/-- No digit is a blank. -/
theorem isBlank_eq_false_of_isSome {c : Char} (h : (digitValue? c).isSome) : isBlank c = false := by
  have hapart : ∀ r ∈ blankRanges, ∀ d ∈ decimalRanges, r.2 < d.1 ∨ d.2 < r.1 := by decide
  obtain ⟨d, hd, hlow, hhigh⟩ := exists_of_digitValueIn h
  cases hblank : isBlank c with
  | false => rfl
  | true =>
    obtain ⟨r, hr, hlow', hhigh'⟩ := exists_of_inRanges hblank
    have := hapart r hr d hd
    omega

/-! ### Marks -/

/-- A number of at least one digit. -/
def IsNumber (s : Text) : Prop :=
  s ≠ [] ∧ ∀ c ∈ s, (digitValue? c).isSome

/-- A mark at the head of a text and the version that it holds. -/
inductive Marks : Text → Text → Prop
  | intro {blanks major minor patch rest : Text} (hblanks : AllBlank blanks)
      (hmajor : IsNumber major) (hminor : IsNumber minor) (hpatch : IsNumber patch)
      (hrest : ∀ c ∈ rest.head?, digitValue? c = none) :
      Marks ("Version:".toList ++ (blanks ++ (major ++ '.' :: (minor ++ '.' :: (patch ++ rest)))))
        (major ++ '.' :: minor ++ '.' :: patch)

/-- The first mark of the output holds the version. -/
def Reports (output version : Text) : Prop :=
  ∃ before after, output = before ++ after ∧ Marks after version ∧
    ∀ front back, output = front ++ back → front.length < before.length → ∀ v, ¬ Marks back v

variable {s n rest version output : Text}

theorem versionPart?_append (hn : IsNumber n) (hrest : ∀ c ∈ rest.head?, digitValue? c = none) :
    versionPart? (n ++ rest) = some (n, rest) := by
  have htake : (n ++ rest).takeWhile (fun c ↦ (digitValue? c).isSome) = n :=
    (takeWhile_append_head? hn.2 fun c hc ↦ by simp [hrest c hc]).1
  simp [versionPart?, htake, hn.1]

theorem exists_of_versionPart? (h : versionPart? s = some (n, rest)) :
    s = n ++ rest ∧ IsNumber n ∧ ∀ c ∈ rest.head?, digitValue? c = none := by
  unfold versionPart? at h
  generalize hp : (fun c ↦ (digitValue? c).isSome) = p at h
  have hdigit : ∀ c, p c = (digitValue? c).isSome := fun c ↦ by rw [← hp]
  dsimp only at h
  split at h
  · cases h
  · next hne =>
    obtain ⟨rfl, rfl⟩ := Prod.mk.inj (Option.some.inj h)
    have hsplit : s.takeWhile p ++ s.dropWhile p = s := List.takeWhile_append_dropWhile
    have hdrop : s.drop (s.takeWhile p).length = s.dropWhile p := by
      calc s.drop (s.takeWhile p).length
          = (s.takeWhile p ++ s.dropWhile p).drop (s.takeWhile p).length := by rw [hsplit]
        _ = s.dropWhile p := List.drop_left
    rw [hdrop]
    refine ⟨hsplit.symm, ⟨by simpa using hne, fun c hc ↦ ?_⟩, fun c hc ↦ ?_⟩
    · rw [← hdigit]
      exact List.mem_takeWhile_imp hc
    · have hc' : p c = false := mem_head?_dropWhile c hc
      simpa [hdigit] using hc'

theorem versionNumber?_eq_some_iff :
    versionNumber? s = some version ↔ ∃ major minor patch rest,
      s = major ++ '.' :: (minor ++ '.' :: (patch ++ rest)) ∧
        version = major ++ '.' :: minor ++ '.' :: patch ∧ IsNumber major ∧ IsNumber minor ∧
        IsNumber patch ∧ ∀ c ∈ rest.head?, digitValue? c = none := by
  have hpoint : ∀ r : Text, ∀ c ∈ ('.' :: r).head?, digitValue? c = none := by
    rintro r _ ⟨⟩
    decide
  constructor
  · intro h
    unfold versionNumber? at h
    split at h
    · next major rest hmajor =>
      split at h
      · next minor rest' hminor =>
        obtain ⟨⟨patch, rest''⟩, hpatch, rfl⟩ := Option.map_eq_some_iff.mp h
        obtain ⟨rfl, hmajor', -⟩ := exists_of_versionPart? hmajor
        obtain ⟨rfl, hminor', -⟩ := exists_of_versionPart? hminor
        obtain ⟨rfl, hpatch', hrest⟩ := exists_of_versionPart? hpatch
        exact ⟨major, minor, patch, rest'', rfl, rfl, hmajor', hminor', hpatch', hrest⟩
      · cases h
    · cases h
  · rintro ⟨major, minor, patch, rest, rfl, rfl, hmajor, hminor, hpatch, hrest⟩
    simp [versionNumber?, versionPart?_append hmajor (hpoint _),
      versionPart?_append hminor (hpoint _), versionPart?_append hpatch hrest]

/-- What is read as a mark at the head of a text is a mark. -/
theorem bind_versionNumber?_eq_some_iff :
    ((dropHead? "Version:".toList s).bind fun s ↦ versionNumber? (stripLeft s)) = some version ↔
      Marks s version := by
  constructor
  · intro h
    obtain ⟨r, hr, h⟩ := Option.bind_eq_some_iff.mp h
    obtain ⟨major, minor, patch, rest, heq, rfl, hmajor, hminor, hpatch, hrest⟩ :=
      versionNumber?_eq_some_iff.mp h
    obtain ⟨blanks, hblanks, hsplit⟩ := exists_stripLeft r
    rw [dropHead?_eq_some_iff.mp hr, hsplit, heq]
    exact .intro hblanks hmajor hminor hpatch hrest
  · intro h
    obtain @⟨blanks, major, minor, patch, rest, hblanks, hmajor, hminor, hpatch, hrest⟩ := h
    -- The blanks end at the first digit, so stripping them leaves the numbers.
    obtain ⟨c, major, rfl⟩ := List.exists_cons_of_ne_nil hmajor.1
    have hc : isBlank c = false := isBlank_eq_false_of_isSome (hmajor.2 c List.mem_cons_self)
    refine Option.bind_eq_some_iff.mpr ⟨_, dropHead?_eq_some_iff.mpr rfl, ?_⟩
    rw [stripLeft_append hblanks, List.cons_append, stripLeft_cons hc]
    exact versionNumber?_eq_some_iff.mpr
      ⟨c :: major, minor, patch, rest, rfl, rfl, hmajor, hminor, hpatch, hrest⟩

/-- The first mark stands at the head of a text, or it is the first one behind the head. -/
theorem reports_cons_iff {c : Char} : Reports (c :: s) version ↔
    Marks (c :: s) version ∨ (∀ v, ¬ Marks (c :: s) v) ∧ Reports s version := by
  constructor
  · rintro ⟨before, after, heq, hmarks, hfirst⟩
    cases before with
    | nil => exact .inl (heq ▸ hmarks)
    | cons d before =>
      obtain ⟨rfl, rfl⟩ := List.cons.inj heq
      refine .inr ⟨hfirst [] _ rfl (by simp), before, after, rfl, hmarks, ?_⟩
      intro front back hsplit hlength
      exact hfirst (c :: front) back (by rw [List.cons_append, ← hsplit]) (by simpa using hlength)
  · rintro (hmarks | ⟨hnone, before, after, rfl, hmarks, hfirst⟩)
    · exact ⟨[], _, rfl, hmarks, fun _ _ _ h ↦ absurd h (by simp)⟩
    · refine ⟨c :: before, after, rfl, hmarks, fun front back hsplit hlength ↦ ?_⟩
      cases front with
      | nil =>
        rw [List.nil_append] at hsplit
        exact hsplit ▸ hnone
      | cons d front =>
        exact hfirst front back (List.cons.inj hsplit).2 (by simpa using hlength)

/-- **The version that is found is the one that is reported.** -/
theorem reportedVersion?_eq_some_iff :
    reportedVersion? output = some version ↔ Reports output version := by
  induction output with
  | nil =>
    refine ⟨nofun, fun ⟨before, after, heq, hmarks, _⟩ ↦ ?_⟩
    obtain ⟨-, rfl⟩ := List.append_eq_nil_iff.mp heq.symm
    have hmark := bind_versionNumber?_eq_some_iff.mpr hmarks
    cases hmark
  | cons c output ih =>
    rw [reports_cons_iff, ← ih, reportedVersion?]
    cases hmark : (dropHead? "Version:".toList (c :: output)).bind fun s ↦
        versionNumber? (stripLeft s) with
    | some v =>
      have hmarks : ∀ v', Marks (c :: output) v' ↔ v = v' := fun v' ↦ by
        rw [← bind_versionNumber?_eq_some_iff, hmark, Option.some_inj]
      simp [hmarks]
    | none =>
      have hmarks : ∀ v', ¬ Marks (c :: output) v' := fun v' h ↦ by
        rw [← bind_versionNumber?_eq_some_iff, hmark] at h
        cases h
      simp [hmarks]

end YulPlus
