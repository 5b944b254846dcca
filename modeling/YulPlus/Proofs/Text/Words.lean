import Mathlib.Data.List.TakeWhile
import YulPlus.Text.Blank

/-!
# Blanks and words

What `strip` and `words` do, said of texts that are put together from words and blanks. A text
splits at every blank (`words_append_blank`), and everything about words follows from this one
equation: blanks at the ends do not count, and the words of a text that is worded as `ws` are `ws`
(`Wording.words_eq`). -/

namespace YulPlus

namespace Text

/-- What holds of every character of a text is decided along the text. Without this instance the
search may run over all characters there are. -/
instance (priority := 1100) decidableForallMem (p : Char → Prop) [DecidablePred p] (s : Text) :
    Decidable (∀ c ∈ s, p c) :=
  List.decidableBAll p s

/-- The same for the first character of a text, if there is one. -/
instance (priority := 1100) decidableForallHead (p : Char → Prop) [DecidablePred p]
    (head : Option Char) : Decidable (∀ c ∈ head, p c) :=
  Option.decidableForallMem head

/-- The rest of a text behind its head. -/
theorem dropHead?_eq_some_iff {head s rest : Text} :
    dropHead? head s = some rest ↔ s = head ++ rest := by
  unfold dropHead?
  constructor
  · intro h
    split at h
    · next hprefix =>
      obtain ⟨t, rfl⟩ := List.isPrefixOf_iff_prefix.mp hprefix
      rw [List.drop_left] at h
      rw [Option.some.inj h]
    · cases h
  · rintro rfl
    have hprefix : head.isPrefixOf (head ++ rest) = true :=
      List.isPrefixOf_iff_prefix.mpr (List.prefix_append _ _)
    rw [if_pos hprefix, List.drop_left]

/-- A text of blanks only. -/
def AllBlank (s : Text) : Prop :=
  ∀ c ∈ s, isBlank c = true

/-- A word: it is not empty, and it has no blank. -/
def IsWord (w : Text) : Prop :=
  w ≠ [] ∧ ∀ c ∈ w, isBlank c = false

instance : DecidablePred AllBlank := fun s ↦
  inferInstanceAs (Decidable (∀ c ∈ s, isBlank c = true))

instance : DecidablePred IsWord := fun w ↦
  inferInstanceAs (Decidable (w ≠ [] ∧ ∀ c ∈ w, isBlank c = false))

/-- The text consists of these words, with blanks between them and maybe around them. -/
inductive Wording : List Text → Text → Prop
  | nil {b : Text} (hb : AllBlank b) : Wording [] b
  | cons {b w s : Text} {ws : List Text} (hb : AllBlank b) (hw : IsWord w)
      (hsep : ∀ c ∈ s.head?, isBlank c = true) (hs : Wording ws s) : Wording (w :: ws) (b ++ w ++ s)

variable {b s t w : Text} {ws : List Text} {c : Char}

/-- A run of characters ends where the next character is not one of them. -/
theorem takeWhile_append_head? {p : Char → Bool} {u r : Text} (hu : ∀ c ∈ u, p c = true)
    (hr : ∀ c ∈ r.head?, p c = false) : (u ++ r).takeWhile p = u ∧ (u ++ r).dropWhile p = r := by
  rw [List.takeWhile_append_of_pos hu, List.dropWhile_append_of_pos hu]
  cases r with
  | nil => simp
  | cons c r => simp [hr c (by simp)]

theorem mem_head?_dropWhile {p : Char → Bool} {s : Text} :
    ∀ c ∈ (s.dropWhile p).head?, p c = false := by
  intro c hc
  have hnot := List.head?_dropWhile_not p s
  rw [Option.mem_def.1 hc] at hnot
  simpa using hnot

/-! ### Words -/

theorem wordsFrom_append_blank (hc : isBlank c = true) (word x y : Text) :
    wordsFrom word (x ++ c :: y) = wordsFrom word x ++ words y := by
  -- the word under way changes with every character in front of the blank
  induction x generalizing word with
  | nil =>
    rw [List.nil_append, wordsFrom, wordsFrom, if_pos hc]
    cases word <;> rfl
  | cons d x ih =>
    rw [List.cons_append, wordsFrom, wordsFrom, ih, ih]
    split
    · split
      · rfl
      · rfl
    · rfl

/-- **A text splits at a blank.** -/
theorem words_append_blank (hc : isBlank c = true) (x y : Text) :
    words (x ++ c :: y) = words x ++ words y :=
  wordsFrom_append_blank hc [] x y

theorem words_cons_blank (hc : isBlank c = true) (s : Text) : words (c :: s) = words s :=
  words_append_blank hc [] s

theorem words_append_left (hb : AllBlank b) (s : Text) : words (b ++ s) = words s := by
  induction b with
  | nil => rfl
  | cons c b ih =>
    rw [List.cons_append, words_cons_blank (hb c (by simp))]
    exact ih fun d hd ↦ hb d (by simp [hd])

theorem words_eq_nil (hb : AllBlank b) : words b = [] := by
  have h := words_append_left hb []
  rwa [List.append_nil] at h

theorem allBlank_of_wordsFrom_eq_nil {word : Text} (h : wordsFrom word s = []) :
    word = [] ∧ AllBlank s := by
  induction s generalizing word with
  | nil =>
    rw [wordsFrom] at h
    split_ifs at h with hword
    exact ⟨List.isEmpty_iff.1 hword, nofun⟩
  | cons c s ih =>
    rw [wordsFrom] at h
    split_ifs at h with hc hword
    · exact ⟨List.isEmpty_iff.1 hword, List.forall_mem_cons.2 ⟨hc, (ih h).2⟩⟩
    · cases (ih h).1

/-- Only a text of blanks has no word. -/
theorem words_eq_nil_iff : words s = [] ↔ AllBlank s :=
  ⟨fun h ↦ (allBlank_of_wordsFrom_eq_nil h).2, words_eq_nil⟩

theorem words_append_right (hb : AllBlank b) (s : Text) : words (s ++ b) = words s := by
  cases b with
  | nil => rw [List.append_nil]
  | cons c b =>
    have hb' : AllBlank b := fun d hd ↦ hb d (by simp [hd])
    rw [words_append_blank (hb c (by simp)), words_eq_nil hb', List.append_nil]

theorem wordsFrom_of_solid (word : Text) (h : ∀ c ∈ w, isBlank c = false) :
    wordsFrom word w =
      if (w.reverse ++ word).isEmpty then [] else [(w.reverse ++ word).reverse] := by
  induction w generalizing word with
  | nil => rfl
  | cons c w ih =>
    rw [wordsFrom, if_neg (by simp [h c]), ih _ fun d hd ↦ h d (by simp [hd])]
    simp

/-- A word is the only word of itself. -/
theorem IsWord.words_eq (hw : IsWord w) : words w = [w] := by
  have h := wordsFrom_of_solid [] hw.2
  rw [List.append_nil, if_neg (by simp [hw.1]), List.reverse_reverse] at h
  exact h

/-- **The words of a worded text.** -/
theorem Wording.words_eq (h : Wording ws s) : words s = ws := by
  induction h with
  | nil hb => exact words_eq_nil hb
  | @cons b w s ws hb hw hsep _ ih =>
    rw [List.append_assoc, words_append_left hb]
    -- the last word may end the text; a blank stands behind every other one
    cases s with
    | nil =>
      rw [List.append_nil, hw.words_eq, ← ih]
      rfl
    | cons c s =>
      have hc : isBlank c = true := hsep c rfl
      rw [words_append_blank hc, hw.words_eq, ← words_cons_blank hc, ih]
      rfl

/-! ### Stripping -/

theorem exists_stripLeft (s : Text) : ∃ b, AllBlank b ∧ s = b ++ stripLeft s :=
  ⟨s.takeWhile isBlank, fun _ hc ↦ List.mem_takeWhile_imp hc,
    (List.takeWhile_append_dropWhile).symm⟩

theorem exists_stripRight (s : Text) : ∃ b, AllBlank b ∧ s = stripRight s ++ b := by
  obtain ⟨b, hb, hs⟩ := exists_stripLeft s.reverse
  refine ⟨b.reverse, fun c hc ↦ hb c (List.mem_reverse.1 hc), ?_⟩
  have h := congrArg List.reverse hs
  rwa [List.reverse_reverse, List.reverse_append] at h

theorem stripLeft_append (hb : AllBlank b) (s : Text) : stripLeft (b ++ s) = stripLeft s := by
  rw [stripLeft, stripLeft, List.dropWhile_append_of_pos hb]

theorem stripLeft_cons (hc : isBlank c = false) (s : Text) : stripLeft (c :: s) = c :: s := by
  rw [stripLeft, List.dropWhile_cons_of_neg (by simp [hc])]

/-- In front of a character that is no blank only the text before it is stripped. -/
theorem stripLeft_append_cons (hc : isBlank c = false) (s t : Text) :
    stripLeft (s ++ c :: t) = stripLeft s ++ c :: t := by
  induction s with
  | nil => exact stripLeft_cons hc t
  | cons d s ih =>
    cases hd : isBlank d with
    | true =>
      have h := fun r ↦ stripLeft_append (b := [d]) (by simpa [AllBlank] using hd) r
      rw [List.cons_append]
      exact (h _).trans (ih.trans (congrArg (· ++ c :: t) (h s).symm))
    | false => rw [List.cons_append, stripLeft_cons hd, stripLeft_cons hd, List.cons_append]

theorem stripRight_append (hb : AllBlank b) (s : Text) : stripRight (s ++ b) = stripRight s := by
  have hb' : AllBlank b.reverse := fun c hc ↦ hb c (List.mem_reverse.1 hc)
  rw [stripRight, List.reverse_append]
  exact congrArg List.reverse (stripLeft_append hb' s.reverse)

/-- Behind a character that is no blank only the text after it is stripped. -/
theorem stripRight_append_cons (hc : isBlank c = false) (s t : Text) :
    stripRight (s ++ c :: t) = s ++ c :: stripRight t := by
  have h := congrArg List.reverse (stripLeft_append_cons hc t.reverse s.reverse)
  simpa [stripRight, stripLeft] using h

theorem words_stripLeft (s : Text) : words (stripLeft s) = words s := by
  obtain ⟨b, hb, hs⟩ := exists_stripLeft s
  exact (words_append_left hb _).symm.trans (congrArg words hs.symm)

theorem words_stripRight (s : Text) : words (stripRight s) = words s := by
  obtain ⟨b, hb, hs⟩ := exists_stripRight s
  exact (words_append_right hb _).symm.trans (congrArg words hs.symm)

/-- Stripping a text does not change its words. -/
theorem words_strip (s : Text) : words (strip s) = words s := by
  rw [strip, words_stripRight, words_stripLeft]

theorem strip_append_left (hb : AllBlank b) (s : Text) : strip (b ++ s) = strip s := by
  rw [strip, stripLeft_append hb, strip]

theorem strip_append_right (hb : AllBlank b) (s : Text) : strip (s ++ b) = strip s := by
  rw [strip, strip, stripLeft, List.dropWhile_append]
  split
  · rename_i hnil
    have hs : stripLeft s = [] := List.isEmpty_iff.1 hnil
    have hblank : b.dropWhile isBlank = [] := List.dropWhile_eq_nil_iff.2 hb
    rw [hs, hblank]
  · exact stripRight_append hb _

theorem strip_stripRight (s : Text) : strip (stripRight s) = strip s := by
  obtain ⟨b, hb, hs⟩ := exists_stripRight s
  exact (strip_append_right hb _).symm.trans (congrArg strip hs.symm)

theorem stripRight_eq_nil (hb : AllBlank b) : stripRight b = [] :=
  stripRight_append hb []

/-- What is left of a worded text has the same words. -/
theorem Wording.stripLeft (h : Wording ws s) : Wording ws (stripLeft s) := by
  cases h with
  | nil hb =>
    have hnil : Text.stripLeft s = [] := List.dropWhile_eq_nil_iff.2 hb
    rw [hnil]
    exact .nil (by simp [AllBlank])
  | @cons b w s ws hb hw hsep hs =>
    obtain ⟨hne, hsolid⟩ := hw
    obtain ⟨c, w, rfl⟩ := List.exists_cons_of_ne_nil hne
    have hc : isBlank c = false := hsolid c (by simp)
    rw [List.append_assoc, stripLeft_append hb, List.cons_append, stripLeft_cons hc]
    exact .cons (b := []) (by simp [AllBlank]) ⟨hne, hsolid⟩ hsep hs

theorem Wording.stripRight (h : Wording ws s) : Wording ws (stripRight s) := by
  induction h with
  | nil hb =>
    rw [stripRight_eq_nil hb]
    exact .nil (by simp [AllBlank])
  | @cons b w s ws hb hw hsep _ ih =>
    obtain ⟨hne, hsolid⟩ := hw
    rcases List.eq_nil_or_concat w with rfl | ⟨w, c, rfl⟩
    · exact absurd rfl hne
    have hc : isBlank c = false := hsolid c (by simp)
    -- stripping from the right does not get past the last character of the word
    have heq : Text.stripRight (b ++ w.concat c ++ s) =
        b ++ w.concat c ++ Text.stripRight s := by
      have h := stripRight_append_cons hc (b ++ w) s
      simpa using h
    rw [heq]
    refine .cons hb ⟨hne, hsolid⟩ (fun d hd ↦ hsep d ?_) ih
    obtain ⟨b', -, hs⟩ := exists_stripRight s
    rw [hs, List.head?_append, Option.mem_def.1 hd]
    rfl

theorem Wording.strip (h : Wording ws s) : Wording ws (strip s) :=
  h.stripLeft.stripRight

/-! ### Searching for a word -/

section Search

variable {part r x : Text}

theorem cutAt?_cons (h : ¬ part <+: c :: s) :
    cutAt? part (c :: s) = (cutAt? part s).map fun (before, after) ↦ (c :: before, after) := by
  have hdrop : dropHead? part (c :: s) = none :=
    if_neg fun hbegins ↦ h (List.isPrefixOf_iff_prefix.1 hbegins)
  rw [cutAt?, hdrop]

theorem cutAt?_self (hne : part ≠ []) (r : Text) : cutAt? part (part ++ r) = some ([], r) := by
  obtain ⟨c, part, rfl⟩ := List.exists_cons_of_ne_nil hne
  have hdrop : dropHead? (c :: part) (c :: (part ++ r)) = some r := by
    have hbegins : c :: part <+: c :: (part ++ r) := List.prefix_append (c :: part) r
    have hleft : (c :: (part ++ r)).drop (c :: part).length = r := List.drop_left
    rw [dropHead?, if_pos (List.isPrefixOf_iff_prefix.2 hbegins), hleft]
  rw [List.cons_append, cutAt?, hdrop]

/-- A part without blanks that is found where `x` ends and a blank follows is found in `x`. -/
theorem prefix_of_prefix_append (hpart : ∀ c ∈ part, isBlank c = false)
    (hr : ∀ c ∈ r.head?, isBlank c = true) (h : part <+: x ++ r) : part <+: x := by
  rcases List.prefix_or_prefix_of_prefix h (List.prefix_append x r) with hx | ⟨y, rfl⟩
  · exact hx
  · cases y with
    | nil => simp
    | cons c y =>
      obtain ⟨z, hz⟩ := (List.prefix_append_right_inj x).1 h
      have hblank : isBlank c = true := hr c (by simp [← hz])
      rw [hpart c (by simp)] at hblank
      cases hblank

/-- A text that does not hold the part is passed over, if a blank or nothing follows. -/
theorem cutAt?_append (hpart : ∀ c ∈ part, isBlank c = false) (hx : ¬ part <:+: x)
    (hr : ∀ c ∈ r.head?, isBlank c = true) :
    cutAt? part (x ++ r) = (cutAt? part r).map fun (before, after) ↦ (x ++ before, after) := by
  induction x with
  | nil => simp
  | cons c x ih =>
    have hbegins : ¬ part <+: c :: (x ++ r) := fun h ↦
      hx (prefix_of_prefix_append (x := c :: x) hpart hr h).isInfix
    have hrest := ih fun h ↦ hx (h.trans (List.suffix_cons c x).isInfix)
    rw [List.cons_append, cutAt?_cons hbegins, hrest, Option.map_map]
    rfl

/-- Blanks are passed over. -/
theorem cutAt?_append_blank (hpart : ∀ c ∈ part, isBlank c = false) (hne : part ≠ [])
    (hb : AllBlank b) (r : Text) :
    cutAt? part (b ++ r) = (cutAt? part r).map fun (before, after) ↦ (b ++ before, after) := by
  induction b with
  | nil => simp
  | cons c b ih =>
    have hbegins : ¬ part <+: c :: (b ++ r) := by
      intro h
      obtain ⟨d, part, rfl⟩ := List.exists_cons_of_ne_nil hne
      obtain ⟨rfl, -⟩ := List.cons_prefix_cons.1 h
      have hblank := hb d (by simp)
      rw [hpart d (by simp)] at hblank
      cases hblank
    rw [List.cons_append, cutAt?_cons hbegins, ih fun d hd ↦ hb d (by simp [hd]), Option.map_map]
    rfl

/-- **Words that do not hold the part** are passed over, if the last of them ends. -/
theorem Wording.cutAt?_append (h : Wording ws s) (hpart : ∀ c ∈ part, isBlank c = false)
    (hne : part ≠ []) (hws : ∀ w ∈ ws, ¬ part <:+: w)
    (hr : r = [] ∨ ∀ c ∈ s.getLast?, isBlank c = true) :
    cutAt? part (s ++ r) = (cutAt? part r).map fun (before, after) ↦ (s ++ before, after) := by
  induction h with
  | nil hb => exact cutAt?_append_blank hpart hne hb r
  | @cons b w s ws hb hw hsep _ ih =>
    have hhead : ∀ c ∈ (s ++ r).head?, isBlank c = true := by
      cases s with
      | cons c s => exact hsep
      | nil =>
        rcases hr with rfl | hlast
        · simp
        -- the last character is one of the word
        · obtain ⟨c, hc⟩ := Option.ne_none_iff_exists'.1 (mt List.getLast?_eq_none_iff.1 hw.1)
          have hblank := hlast c (by simp [List.getLast?_append, hc])
          rw [hw.2 c (List.mem_of_getLast? hc)] at hblank
          cases hblank
    have hrest := ih (fun w hw ↦ hws w (by simp [hw])) (hr.imp_right fun hlast c hc ↦
      hlast c (by rw [List.getLast?_append, Option.mem_def.1 hc]; rfl))
    rw [List.append_assoc, List.append_assoc, cutAt?_append_blank hpart hne hb,
      Text.cutAt?_append hpart (hws w (by simp)) hhead, hrest, Option.map_map, Option.map_map]
    simp [Function.comp_def]

end Search

end Text

end YulPlus
