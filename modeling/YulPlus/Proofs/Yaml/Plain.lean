import Mathlib.Data.List.Basic
import YulPlus.Proofs.Yaml.Quoted

/-!
# What a plain scalar takes

A plain scalar is made of words and the gaps between them. No gap reads as more characters than it
takes, so the same is true of the scalar (`plainScalar_eq`). Outside of brackets it goes on in
another line only if that line is indented: in front of a line that is not, it reads as no more than
what stands before the line break (`plainScalar_in_front`). -/

namespace YulPlus

namespace Yaml

variable {k after : Cursor} {s src rest text more tail x : Text} {b c : Char} {flow : Bool}
  {indent : Nat}

theorem isSeparator_of_isBreak (h : isBreak c = true) : isSeparator c = true := by
  simp [isSeparator, h]

/-! ### Words -/

theorem ne_of_isLower {d : Char} (hc : c.isLower = true) (hd : d.isLower = false) : c ≠ d := by
  rintro rfl
  rw [hc] at hd
  cases hd

theorem isSeparator_of_isLower (hc : c.isLower = true) : isSeparator c = false := by
  have hne := fun d ↦ ne_of_isLower (d := d) hc
  simp [isSeparator, isBreak, hne ' ' rfl, hne '\t' rfl, hne '\n' rfl, hne '\r' rfl, hne '\x85' rfl,
    hne '\u2028' rfl, hne '\u2029' rfl]

/-- A word of small letters is read up to where no word goes on. -/
theorem plainWord_append {w : Text} (hw : ∀ c ∈ w, c.isLower = true)
    (hrest : plainWord flow rest = []) : plainWord flow (w ++ rest) = w := by
  induction w with
  | nil => exact hrest
  | cons c w ih =>
    obtain ⟨hc, hw⟩ := List.forall_mem_cons.1 hw
    have hne := fun d ↦ ne_of_isLower (d := d) hc
    simp [plainWord, isSeparator_of_isLower hc, isFlowIndicator, hne ':' rfl, hne ',' rfl,
      hne '[' rfl, hne ']' rfl, hne '\x7b' rfl, hne '\x7d' rfl, hne '?' rfl, ih hw]

theorem plainWord_isPrefix (flow : Bool) (s : Text) : plainWord flow s <+: s := by
  fun_induction plainWord flow s with
  | case1 => exact List.prefix_rfl
  | case2 => exact List.nil_prefix
  | case3 c rest hc ih => exact (List.prefix_cons_inj c).2 ih

theorem not_isSeparator_of_mem_plainWord (h : c ∈ plainWord flow s) : isSeparator c = false := by
  fun_induction plainWord flow s with
  | case1 => cases h
  | case2 => cases h
  | case3 d rest hd ih =>
    rcases List.mem_cons.1 h with rfl | h
    · simp only [Bool.or_eq_true, not_or, Bool.not_eq_true] at hd
      exact hd.1.1
    · exact ih h

/-- Behind a word. -/
theorem rest_skip_plainWord (flow : Bool) (k : Cursor) :
    k.rest = plainWord flow k.rest ++ (k.skip (plainWord flow k.rest).length).rest := by
  rw [Cursor.skip_rest]
  exact (List.prefix_iff_eq_append.1 (plainWord_isPrefix flow k.rest)).symm

/-! ### Gaps -/

/-- Further line breaks take at least as much as they read as, and they end where a line begins,
unless blanks stand there. -/
theorem gapBreaks_eq {last : Cursor} {mark : Bool} (h : gapBreaks k = (more, last, mark)) :
    ∃ src, k.rest = src ++ last.rest ∧ more.length ≤ src.length ∧
      (∀ c ∈ src, isSeparator c = true) ∧ (∀ c ∈ more, isSeparator c = true) ∧
      (last.column = 0 ∨ src = [] ∧ last = k ∨ src.getLast? = some ' ') := by
  fun_induction gapBreaks k generalizing more last mark with
  | case1 k hk =>
    obtain ⟨rfl, rfl, rfl⟩ := h
    exact ⟨[], rfl, Nat.le_refl _, by simp, by simp, .inr (.inl ⟨rfl, rfl⟩)⟩
  | case2 k rest hk ih =>
    obtain ⟨src, hsrc, hlength, hall, hmore, hlast⟩ := ih h
    refine ⟨' ' :: src, ?_, Nat.le_succ_of_le hlength, ?_, hmore, ?_⟩
    · rw [rest_eq_cons_next hk, hsrc, List.cons_append]
    · exact List.forall_mem_cons.2 ⟨rfl, hall⟩
    · rcases hlast with hcolumn | ⟨rfl, -⟩ | hspace
      · exact .inl hcolumn
      · exact .inr (.inr rfl)
      · exact .inr (.inr (by rw [List.getLast?_cons, hspace]; rfl))
  | case3 k c rest hnot hk hnone =>
    obtain ⟨rfl, rfl, rfl⟩ := h
    exact ⟨[], rfl, Nat.le_refl _, by simp, by simp, .inr (.inl ⟨rfl, rfl⟩)⟩
  | case4 k c rest hnot hk b after hb hmark =>
    obtain ⟨rfl, rfl, rfl⟩ := h
    obtain ⟨breaks, hbreaks, hne, hall, hkept, hcolumn⟩ := Cursor.exists_of_lineBreak hb
    refine ⟨breaks, hbreaks, List.length_pos_iff.2 hne,
      fun c hc ↦ isSeparator_of_isBreak (hall c hc), ?_, .inl hcolumn⟩
    simpa using isSeparator_of_isBreak (isBreak_of_isKeptBreak hkept)
  | case5 k c rest hnot hk b after hb hmark more' last' mark' hmore ih =>
    obtain ⟨rfl, rfl, rfl⟩ := h
    obtain ⟨breaks, hbreaks, hne, hall, hkept, hcolumn⟩ := Cursor.exists_of_lineBreak hb
    obtain ⟨src, hsrc, hlength, hsrcAll, hmoreAll, hlast⟩ := ih hmore
    have hpos := List.length_pos_iff.2 hne
    refine ⟨breaks ++ src, by rw [hbreaks, hsrc, List.append_assoc], ?_, ?_, ?_, ?_⟩
    · simp only [List.length_cons, List.length_append]
      omega
    · exact List.forall_mem_append.2 ⟨fun c hc ↦ isSeparator_of_isBreak (hall c hc), hsrcAll⟩
    · exact List.forall_mem_cons.2 ⟨isSeparator_of_isBreak (isBreak_of_isKeptBreak hkept), hmoreAll⟩
    · rcases hlast with hcolumn | ⟨-, rfl⟩ | hspace
      · exact .inl hcolumn
      · exact .inl hcolumn
      · exact .inr (.inr (by rw [List.getLast?_append, hspace]; rfl))

theorem isSeparator_of_mem_fold (hb : isSeparator b = true)
    (hmore : ∀ c ∈ more, isSeparator c = true) : ∀ c ∈ fold b more, isSeparator c = true := by
  intro c hc
  rcases List.mem_append.1 hc with hfirst | hc
  · split at hfirst
    · rwa [List.mem_singleton.1 hfirst]
    · split at hfirst
      · rw [List.mem_singleton.1 hfirst]
        rfl
      · cases hfirst
  · exact hmore c hc

/-- From one place to another stand the separators `src`. They are read as separators, at most as
many, and if the last one is a line feed, a line begins behind them. -/
structure GapTo (k after : Cursor) (src text : Text) : Prop where
  rest : k.rest = src ++ after.rest
  length : text.length ≤ src.length
  source : ∀ c ∈ src, isSeparator c = true
  text : ∀ c ∈ text, isSeparator c = true
  column : src.getLast? = some '\n' → after.column = 0

theorem GapTo.nil (h : GapTo k after src text) : GapTo k after src [] :=
  ⟨h.rest, Nat.zero_le _, h.source, by simp, h.column⟩

section

variable {behind last : Cursor} {spaces : Text} {mark : Bool}

theorem gapTo_of_spaces (hspaces : ∀ c ∈ spaces, c = ' ') (hk : k.rest = spaces ++ behind.rest) :
    GapTo k behind spaces spaces := by
  have hall : ∀ c ∈ spaces, isSeparator c = true := fun c hc ↦ by
    rw [hspaces c hc]
    rfl
  refine ⟨hk, Nat.le_refl _, hall, hall, fun hlast ↦ ?_⟩
  exact absurd (hspaces _ (List.mem_of_getLast? hlast)) (by decide)

/-- A line break goes on with a gap, and leaves nothing of what was read before. -/
theorem GapTo.lineBreak (h : GapTo k behind src text) (hb : behind.lineBreak? = some (b, after)) :
    ∃ src', GapTo k after src' [] := by
  obtain ⟨breaks, hbreaks, -, hall, -, hcolumn⟩ := Cursor.exists_of_lineBreak hb
  have hsource := List.forall_mem_append.2
    ⟨h.source, fun c hc ↦ isSeparator_of_isBreak (hall c hc)⟩
  exact ⟨src ++ breaks, by rw [h.rest, hbreaks, List.append_assoc], Nat.zero_le _, hsource,
    by simp, fun _ ↦ hcolumn⟩

/-- Further line breaks go on with it, and all of them are folded. -/
theorem GapTo.gapBreaks (h : GapTo k behind src text) (hb : behind.lineBreak? = some (b, after))
    (hmore : gapBreaks after = (more, last, mark)) : ∃ src', GapTo k last src' (fold b more) := by
  obtain ⟨breaks, hbreaks, hne, hall, hkept, hcolumn⟩ := Cursor.exists_of_lineBreak hb
  obtain ⟨src', hsrc, hlength, hsrcAll, hmoreAll, hlast⟩ := gapBreaks_eq hmore
  have hpos := List.length_pos_iff.2 hne
  have hbehind : ∀ c ∈ breaks ++ src', isSeparator c = true :=
    List.forall_mem_append.2 ⟨fun c hc ↦ isSeparator_of_isBreak (hall c hc), hsrcAll⟩
  refine ⟨src ++ (breaks ++ src'), by simp [h.rest, hbreaks, hsrc], ?_,
    List.forall_mem_append.2 ⟨h.source, hbehind⟩, ?_, fun hfeed ↦ ?_⟩
  · have hfold := length_fold_le b more
    simp only [List.length_append]
    omega
  · exact isSeparator_of_mem_fold (isSeparator_of_isBreak (isBreak_of_isKeptBreak hkept)) hmoreAll
  · rcases hlast with hcolumn | ⟨-, rfl⟩ | hspace
    · exact hcolumn
    · exact hcolumn
    · rw [List.getLast?_append, List.getLast?_append, hspace] at hfeed
      cases hfeed

end

/-- **A gap takes at least as much as it reads as**, and one that ends with a line break ends in
front of a line. -/
theorem exists_gapTo (k : Cursor) :
    ∃ src, GapTo k (plainGap k).cursor src (plainGap k).text := by
  have hsplit := k.rest_eq_takeWhile_append (· = ' ')
  have hspaces : ∀ c ∈ (k.takeWhile (· = ' ')).1, c = ' ' := fun c hc ↦ by
    simpa using List.mem_takeWhile_imp hc
  unfold plainGap
  split
  next spaces behind htake =>
  rw [htake] at hsplit hspaces
  have hgap : GapTo k behind spaces spaces := gapTo_of_spaces hspaces hsplit
  split
  · exact ⟨spaces, hgap⟩
  · next b after hb =>
    split
    · exact hgap.lineBreak hb
    · split
      · next more last hmore => exact (hgap.gapBreaks hb hmore).imp fun _ h ↦ h.nil
      · next more last hmore => exact hgap.gapBreaks hb hmore

/-! ### Scalars -/

/-- The first word of a scalar and the gap behind it. -/
theorem exists_word_gap (flow : Bool) (k : Cursor) :
    ∃ src, k.rest = plainWord flow k.rest ++
        (src ++ (plainGap (k.skip (plainWord flow k.rest).length)).cursor.rest) ∧
      GapTo (k.skip (plainWord flow k.rest).length)
        (plainGap (k.skip (plainWord flow k.rest).length)).cursor src
        (plainGap (k.skip (plainWord flow k.rest).length)).text := by
  obtain ⟨src, hgap⟩ := exists_gapTo (k.skip (plainWord flow k.rest).length)
  refine ⟨src, ?_, hgap⟩
  rw [← hgap.rest]
  exact rest_skip_plainWord flow k

/-- **A plain scalar reads as no more than it takes**, and as what is there but for separators. It
begins with its first character. -/
theorem plainScalar_eq (flow : Bool) (indent : Nat) (k : Cursor) :
    ∃ src, k.rest = src ++ (plainScalar flow indent k).cursor.rest ∧
      (plainScalar flow indent k).text.length ≤ src.length ∧
      (∀ c ∈ (plainScalar flow indent k).text, c ∈ k.rest ∨ isSeparator c = true) ∧
      (plainWord flow k.rest ≠ [] → (plainScalar flow indent k).text.head? = k.rest.head?) := by
  have hhead : ∀ {s text : Text}, plainWord flow s ≠ [] →
      (plainWord flow s ++ text).head? = s.head? := by
    intro s text hne
    obtain ⟨rest, hrest⟩ := plainWord_isPrefix flow s
    calc (plainWord flow s ++ text).head?
        = (plainWord flow s).head? := List.head?_append_of_ne_nil _ hne
      _ = (plainWord flow s ++ rest).head? := (List.head?_append_of_ne_nil _ hne).symm
      _ = s.head? := by rw [hrest]
  fun_induction plainScalar flow indent k with
  | case1 k word gap stops hgo more ih =>
    obtain ⟨src, hsrc, hgap⟩ := exists_word_gap flow k
    obtain ⟨src', hsrc', hlength', hmem', -⟩ := ih
    refine ⟨word ++ (src ++ src'), ?_, ?_, fun c hc ↦ ?_, fun hne ↦ ?_⟩
    · rw [hsrc, hsrc']
      simp only [List.append_assoc]
      rfl
    · have hlength : gap.text.length ≤ src.length := hgap.length
      have hmore : more.text.length ≤ src'.length := hlength'
      simp only [List.length_append]
      omega
    · rcases List.mem_append.1 hc with hc | hc
      · rcases List.mem_append.1 hc with hc | hc
        · exact .inl ((plainWord_isPrefix flow k.rest).subset hc)
        · exact .inr (hgap.text c hc)
      · refine (hmem' c hc).imp_left fun hc ↦ ?_
        rw [hsrc]
        exact List.mem_append_right _ (List.mem_append_right _ hc)
    · dsimp only
      rw [List.append_assoc]
      exact hhead hne
  | case2 k word gap stops hgo =>
    obtain ⟨src, hsrc, -⟩ := exists_word_gap flow k
    refine ⟨word ++ src, by rw [hsrc, List.append_assoc], by simp, fun c hc ↦ ?_, fun hne ↦ ?_⟩
    · exact .inl ((plainWord_isPrefix flow k.rest).subset hc)
    · simpa using @hhead k.rest [] hne

/-- What is taken of a text ends in front of a line feed in it, or reaches over it. -/
theorem append_eq_append_lineFeed (h : src ++ rest = x ++ '\n' :: tail) :
    (∃ y, x = src ++ y ∧ rest = y ++ '\n' :: tail) ∨
      ∃ z, src = x ++ '\n' :: z ∧ tail = z ++ rest := by
  rcases List.append_eq_append_iff.1 h with hfront | ⟨y, rfl, hrest⟩
  · exact .inl hfront
  · cases y with
    | nil => exact .inl ⟨[], by simp, by simpa using hrest.symm⟩
    | cons c y =>
      obtain ⟨rfl, htail⟩ := List.cons.inj hrest
      exact .inr ⟨y, rfl, htail⟩

/-- Separators do not reach into a text that begins with none. -/
theorem append_separators (h : src ++ rest = x ++ '\n' :: tail)
    (hsrc : ∀ c ∈ src, isSeparator c = true) (htail : ∀ c ∈ tail.head?, isSeparator c = false) :
    (∃ y, x = src ++ y ∧ rest = y ++ '\n' :: tail) ∨ rest = tail ∧ src = x ++ ['\n'] := by
  rcases append_eq_append_lineFeed h with hfront | ⟨z, rfl, rfl⟩
  · exact .inl hfront
  · cases z with
    | nil => exact .inr ⟨rfl, rfl⟩
    | cons d z =>
      have hd := htail d rfl
      rw [hsrc d (by simp)] at hd
      cases hd

/-- What has no line feed does not reach over one. -/
theorem append_of_not_mem (h : src ++ rest = x ++ '\n' :: tail) (hsrc : '\n' ∉ src) :
    ∃ y, x = src ++ y ∧ rest = y ++ '\n' :: tail :=
  (append_eq_append_lineFeed h).resolve_right fun ⟨z, hz, _⟩ ↦ hsrc (by simp [hz])

theorem lineFeed_not_mem_plainWord (flow : Bool) (s : Text) : '\n' ∉ plainWord flow s :=
  fun h ↦ absurd (not_isSeparator_of_mem_plainWord h) (by decide)

/-- **Outside of brackets, a plain scalar does not go on in a line that is not indented.** -/
theorem plainScalar_in_front (hindent : 0 < indent) (hk : k.rest = x ++ '\n' :: tail)
    (htail : ∀ c ∈ tail.head?, isSeparator c = false) :
    (plainScalar false indent k).text.length ≤ x.length ∧
      ((∃ y, (plainScalar false indent k).cursor.rest = y ++ '\n' :: tail) ∨
        (plainScalar false indent k).cursor.rest = tail) := by
  fun_induction plainScalar false indent k generalizing x with
  | case1 k word gap stops hgo more =>
    rename_i ih
    obtain ⟨src, hsrc, hgap⟩ := exists_word_gap false k
    obtain ⟨x', rfl, hbehind⟩ := append_of_not_mem (hsrc.symm.trans hk)
      (lineFeed_not_mem_plainWord false k.rest)
    rcases append_separators hbehind hgap.source htail with ⟨y, rfl, hy⟩ | ⟨-, rfl⟩
    · obtain ⟨hmore, hrest⟩ := ih hy
      refine ⟨?_, hrest⟩
      have hlength : gap.text.length ≤ src.length := hgap.length
      have hmoreLength : more.text.length ≤ y.length := hmore
      have hword : word = plainWord false k.rest := rfl
      simp only [← hword, List.length_append]
      omega
    · -- the line that begins here is not indented, so the scalar ends
      have hzero : gap.cursor.column = 0 := hgap.column (by simp)
      have hstops : stops = true := by simp [stops, hzero, hindent]
      exact absurd hstops hgo.1
  | case2 k word gap stops =>
    obtain ⟨src, hsrc, hgap⟩ := exists_word_gap false k
    obtain ⟨x', rfl, hbehind⟩ := append_of_not_mem (hsrc.symm.trans hk)
      (lineFeed_not_mem_plainWord false k.rest)
    refine ⟨by simp [word], ?_⟩
    rcases append_separators hbehind hgap.source htail with ⟨y, -, hy⟩ | ⟨hend, -⟩
    · exact .inl ⟨y, hy⟩
    · exact .inr hend

end Yaml

end YulPlus
