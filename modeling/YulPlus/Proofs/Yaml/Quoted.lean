import YulPlus.Proofs.Outcome
import YulPlus.Proofs.Text.Words
import YulPlus.Yaml.Scalar

/-!
# What a quoted scalar reads as

No piece of a quoted scalar reads as more characters than it is written with: an escape is a single
character, and line breaks are folded. So a scalar that reads as its own source has neither escapes
nor anything that is folded, and what is left is `isLiteral`: no backslash, and a line break only
where it is kept as it is. A carriage return and the next line character never are; a line feed is
kept behind another break, and the two separators of Unicode are, unless there are blanks beside
them.

A text between double quotes reads as itself exactly if it is literal
(`exists_quotedScalar_of_isLiteral`, `quotedScalar_eq_ok`). -/

namespace YulPlus

namespace Yaml

variable {k after last : Cursor} {s src rest text more blanks tail : Text} {b c : Char}
  {double broken : Bool} {p : Char → Bool}

/-! ### Cursors -/

theorem Cursor.rest_takeWhile (k : Cursor) (p : Char → Bool) :
    (k.takeWhile p).2.rest = k.rest.dropWhile p := by
  rw [takeWhile, skip_rest]
  calc k.rest.drop (k.rest.takeWhile p).length
      = (k.rest.takeWhile p ++ k.rest.dropWhile p).drop (k.rest.takeWhile p).length := by
        rw [List.takeWhile_append_dropWhile]
    _ = k.rest.dropWhile p := List.drop_left

/-- What is passed over is all of the class. -/
theorem Cursor.takeWhile_append (hk : k.rest = s ++ rest) (hs : ∀ c ∈ s, p c = true)
    (hrest : ∀ c ∈ rest.head?, p c = false) :
    (k.takeWhile p).1 = s ∧ (k.takeWhile p).2.rest = rest := by
  obtain ⟨htake, hdrop⟩ := Text.takeWhile_append_head? hs hrest
  rw [rest_takeWhile, takeWhile, hk]
  exact ⟨htake, hdrop⟩

theorem Cursor.takeWhile_of_head (h : ∀ c ∈ k.rest.head?, p c = false) :
    k.takeWhile p = ([], k) := by
  have hnil : k.rest.takeWhile p = [] := by
    cases hk : k.rest with
    | nil => rfl
    | cons c rest => simp [h c (by simp [hk])]
  simp only [takeWhile, hnil]
  rfl

theorem Cursor.rest_eq_takeWhile_append (k : Cursor) (p : Char → Bool) :
    k.rest = (k.takeWhile p).1 ++ (k.takeWhile p).2.rest := by
  rw [rest_takeWhile]
  exact List.takeWhile_append_dropWhile.symm

/-- The breaks that a line break can read as. -/
def isKeptBreak (c : Char) : Bool :=
  c = '\n' || c = '\u2028' || c = '\u2029'

theorem isBreak_of_isKeptBreak (h : isKeptBreak c = true) : isBreak c = true := by
  simp only [isKeptBreak, Bool.or_eq_true, decide_eq_true_eq] at h
  rcases h with (rfl | rfl) | rfl <;> rfl

theorem Cursor.column_next (hc : isBreak c = true) (hfeed : c ≠ '\r' ∨ rest.head? ≠ some '\n')
    (hk : k.rest = c :: rest) : k.next.column = 0 := by
  have hfeed' : (c = '\r' && rest.head? = some '\n') = false := by
    rcases hfeed with h | h <;> simp [h]
  simp only [next, hk, hc, hfeed']
  rfl

/-- A line break takes a character or two, reads as one, and ends its line. -/
theorem Cursor.exists_of_lineBreak (h : k.lineBreak? = some (b, after)) :
    ∃ src, k.rest = src ++ after.rest ∧ src ≠ [] ∧ (∀ c ∈ src, isBreak c = true) ∧
      isKeptBreak b = true ∧ after.column = 0 := by
  unfold lineBreak? at h
  split at h
  · next rest hk =>
    obtain ⟨rfl, rfl⟩ := Prod.mk.inj (Option.some.inj h)
    refine ⟨['\r', '\n'], by simp [skip_rest, hk], by simp, by simp [isBreak], rfl, ?_⟩
    have hnext : k.next.rest = '\n' :: rest := by rw [next_rest, hk]; rfl
    exact column_next rfl (.inl (by decide)) hnext
  · next c rest hfeed hk =>
    have hfeed' : c ≠ '\r' ∨ rest.head? ≠ some '\n' := by
      by_contra hboth
      simp only [not_or, not_not] at hboth
      obtain ⟨rfl, hhead⟩ := hboth
      obtain ⟨more, rfl⟩ : ∃ more, rest = '\n' :: more := by
        cases rest <;> simp_all
      exact hfeed more rfl rfl
    have hone : k.rest = [c] ++ k.next.rest := by rw [next_rest, hk]; rfl
    split at h
    · next hc =>
      obtain ⟨rfl, rfl⟩ := Prod.mk.inj (Option.some.inj h)
      have hkept : isKeptBreak c = true := by
        simp only [Bool.or_eq_true, decide_eq_true_eq] at hc
        rcases hc with rfl | rfl <;> rfl
      have hbreak := isBreak_of_isKeptBreak hkept
      exact ⟨[c], hone, by simp, by simpa using hbreak, hkept, column_next hbreak hfeed' hk⟩
    · split at h
      · next hbreak =>
        obtain ⟨rfl, rfl⟩ := Prod.mk.inj (Option.some.inj h)
        exact ⟨[c], hone, by simp, by simpa using hbreak, rfl, column_next hbreak hfeed' hk⟩
      · cases h
  · cases h

theorem Cursor.lineBreak_eq_none_iff :
    k.lineBreak? = none ↔ ∀ c ∈ k.rest.head?, isBreak c = false := by
  unfold lineBreak?
  split
  · next rest hk => simp [hk, isBreak]
  · next c rest hfeed hk =>
    rw [hk]
    split
    · next hc =>
      simp only [Bool.or_eq_true, decide_eq_true_eq] at hc
      rcases hc with rfl | rfl <;> simp [isBreak]
    · cases hbreak : isBreak c <;> simp [hbreak]
  · next hk => simp [hk]

theorem Cursor.lineBreak_of_isKeptBreak (hb : isKeptBreak b = true) (hk : k.rest = b :: rest) :
    k.lineBreak? = some (b, k.next) := by
  unfold lineBreak?
  rw [hk]
  simp only [isKeptBreak, Bool.or_eq_true, decide_eq_true_eq] at hb
  rcases hb with (rfl | rfl) | rfl <;> simp [isBreak]

/-! ### Texts that read as themselves -/

/-- Does a text between double quotes read as itself, directly behind a line break or not? -/
def isLiteralFrom (broken : Bool) : Text → Bool
  | [] => true
  | c :: rest =>
    c ≠ '"' && c ≠ '\\' &&
      (if isBreak c then
        (c = '\u2028' || c = '\u2029' || broken && c = '\n') && !atDocumentMark (rest ++ ['"'])
      else if c = ' ' || c = '\t' then !broken && !rest.head?.any isBreak
      else true) &&
      isLiteralFrom (isBreak c) rest

/-- Does a text between double quotes read as itself? -/
def isLiteral (s : Text) : Bool :=
  isLiteralFrom false s

/-- A mark in front of the closing quote does not depend on what is behind it. -/
theorem atDocumentMark_append (s rest : Text) :
    atDocumentMark (s ++ '"' :: rest) = atDocumentMark (s ++ ['"']) := by
  match s with
  | [] => rfl
  | [_] => simp [atDocumentMark, List.isPrefixOf]
  | [_, _] => simp [atDocumentMark, List.isPrefixOf]
  | [_, _, _] => simp [atDocumentMark, List.isPrefixOf, atSeparator]
  | _ :: _ :: _ :: _ :: _ => simp [atDocumentMark, List.isPrefixOf, atSeparator]

theorem isLiteralFrom_cons_of_other (hbreak : isBreak c = false)
    (hblank : ¬(c = ' ' ∨ c = '\t')) (hquote : c ≠ '"') (hescape : c ≠ '\\') :
    isLiteralFrom broken (c :: s) = isLiteralFrom false s := by
  simp only [not_or] at hblank
  simp [isLiteralFrom, hbreak, hblank, hquote, hescape]

/-- Blanks are kept where no line break is beside them. -/
theorem isLiteralFrom_blanks (hblanks : ∀ c ∈ blanks, c = ' ' ∨ c = '\t')
    (hs : ∀ c ∈ s.head?, isBreak c = false) :
    isLiteralFrom false (blanks ++ s) = isLiteralFrom false s := by
  induction blanks with
  | nil => rfl
  | cons c blanks ih =>
    obtain ⟨hc, hblanks⟩ := List.forall_mem_cons.1 hblanks
    have hbreak : ∀ c, c = ' ' ∨ c = '\t' → isBreak c = false := by
      rintro c (rfl | rfl) <;> rfl
    have hnext : ((blanks ++ s).head?.any isBreak) = false := by
      cases blanks with
      | nil => cases s <;> simp_all
      | cons d blanks => simpa using hbreak d (hblanks d (by simp))
    have hcons : isLiteralFrom false (c :: (blanks ++ s)) = isLiteralFrom false (blanks ++ s) := by
      rcases hc with rfl | rfl <;> simp only [isLiteralFrom, hnext] <;> simp [isBreak]
    rw [List.cons_append, hcons, ih hblanks]

/-- A break is kept, unless a document mark follows. -/
theorem isLiteralFrom_break (hb : isKeptBreak b = true) (hbroken : broken = true ∨ b ≠ '\n')
    (hmark : atDocumentMark (s ++ ['"']) = false) :
    isLiteralFrom broken (b :: s) = isLiteralFrom true s := by
  simp only [isKeptBreak, Bool.or_eq_true, decide_eq_true_eq] at hb
  rcases hb with (rfl | rfl) | rfl
  · have hbroken := hbroken.resolve_right (by simp)
    simp [isLiteralFrom, isBreak, hmark, hbroken]
  · simp [isLiteralFrom, isBreak, hmark]
  · simp [isLiteralFrom, isBreak, hmark]

/-- In front of what is no blank and no break, it does not matter if a break stands before it. -/
theorem isLiteralFrom_of_head (hs : ∀ c ∈ s.head?, isSeparator c = false) :
    isLiteralFrom broken s = isLiteralFrom false s := by
  cases s with
  | nil => rfl
  | cons c s =>
    have hc : isSeparator c = false := hs c rfl
    simp only [isSeparator, Bool.or_eq_false_iff, decide_eq_false_iff_not] at hc
    simp [isLiteralFrom, hc]

/-! ### No piece reads as more than its source -/

/-- The blanks that begin a gap. -/
theorem Cursor.takeWhile_blanks (k : Cursor) :
    (∀ c ∈ (k.takeWhile fun c ↦ c = ' ' || c = '\t').1, c = ' ' ∨ c = '\t') ∧
      ∀ c ∈ (k.takeWhile fun c ↦ c = ' ' || c = '\t').2.rest.head?, c ≠ ' ' ∧ c ≠ '\t' := by
  constructor
  · intro c hc
    simpa using List.mem_takeWhile_imp hc
  · intro c hc
    rw [rest_takeWhile] at hc
    simpa using Text.mem_head?_dropWhile c hc

/-- A break and what follows it are no longer than blanks, a break and what follows it. If they are
the same, there are no blanks. -/
theorem eq_of_cons_eq_append {breaks : Text} (h : b :: more = blanks ++ (breaks ++ src))
    (hbreaks : breaks ≠ []) (hmore : more.length ≤ src.length) :
    blanks = [] ∧ breaks = [b] ∧ more = src := by
  have hlength := congrArg List.length h
  have hpos := List.length_pos_iff.2 hbreaks
  simp only [List.length_cons, List.length_append] at hlength
  obtain rfl : blanks = [] := List.eq_nil_of_length_eq_zero (by omega)
  obtain ⟨c, rfl⟩ := List.length_eq_one_iff.1 (show breaks.length = 1 by omega)
  obtain ⟨rfl, rfl⟩ := List.cons.inj h
  exact ⟨rfl, rfl, rfl⟩

/-- What is neither a blank nor a break is no separator. -/
theorem isSeparator_of_lineBreak_eq_none (hk : k.lineBreak? = none)
    (hblank : ∀ c ∈ k.rest.head?, c ≠ ' ' ∧ c ≠ '\t') :
    ∀ c ∈ k.rest.head?, isSeparator c = false := by
  intro c hc
  simp [isSeparator, hblank c hc, Cursor.lineBreak_eq_none_iff.1 hk c hc]

/-- **Further line breaks read as no more than their source.** If they read as the source itself, a
text behind them is literal behind a break if it is literal on its own. -/
theorem quotedBreaks_eq_ok (h : quotedBreaks k = .ok (more, last)) :
    ∃ src, k.rest = src ++ last.rest ∧ more.length ≤ src.length ∧
      (∀ c ∈ last.rest.head?, isSeparator c = false) ∧
      (more = src → ∀ s rest, last.rest = s ++ '"' :: rest → isLiteralFrom false s = true →
        isLiteralFrom true (src ++ s) = true ∧ atDocumentMark (src ++ s ++ ['"']) = false) := by
  have hmarked : ∀ (k : Cursor) (src s rest : Text), k.rest = src ++ (s ++ '"' :: rest) →
      ¬atDocumentMark k.rest = true → atDocumentMark (src ++ s ++ ['"']) = false := by
    intro k src s rest hk hmark
    rwa [hk, ← List.append_assoc, atDocumentMark_append, Bool.not_eq_true] at hmark
  fun_induction quotedBreaks k generalizing more last with
  | case1 => cases h
  | case2 k hmark after =>
    rename_i hnone
    obtain ⟨rfl, rfl⟩ := Prod.mk.inj (Except.ok.inj h)
    have hsplit := k.rest_eq_takeWhile_append fun c ↦ c = ' ' || c = '\t'
    have hhead := isSeparator_of_lineBreak_eq_none hnone k.takeWhile_blanks.2
    refine ⟨_, hsplit, Nat.zero_le _, hhead, fun hsrc s rest hs hliteral ↦ ?_⟩
    rw [← hsrc] at hsplit ⊢
    refine ⟨?_, hmarked k _ s rest (hsplit.trans (congrArg _ hs)) hmark⟩
    rw [List.nil_append, isLiteralFrom_of_head, hliteral]
    intro c hc
    exact hhead c (by rw [hs]; cases s <;> simp_all)
  | case3 => cases h
  | case4 k hmark after b next hb more' last' hbreaks =>
    rename_i ih
    obtain ⟨rfl, rfl⟩ := Prod.mk.inj (Except.ok.inj h)
    obtain ⟨breaks, hnext, hne, -, hkept, -⟩ := Cursor.exists_of_lineBreak hb
    obtain ⟨src, hsrc, hlength, hhead, hliteral⟩ := ih hbreaks
    obtain ⟨blanks, hsplit⟩ : ∃ blanks, k.rest = blanks ++ (breaks ++ (src ++ last'.rest)) :=
      ⟨_, by rw [← hsrc, ← hnext]; exact k.rest_eq_takeWhile_append _⟩
    refine ⟨blanks ++ (breaks ++ src), by simp [hsplit], ?_, hhead, fun heq s rest hs hs' ↦ ?_⟩
    · have hpos := List.length_pos_iff.2 hne
      simp only [List.length_cons, List.length_append]
      omega
    · obtain ⟨rfl, rfl, rfl⟩ := eq_of_cons_eq_append heq hne hlength
      obtain ⟨hbroken, hnomark⟩ := hliteral rfl s rest hs hs'
      refine ⟨?_, hmarked k _ s rest (by simp [hsplit, hs]) hmark⟩
      rw [List.nil_append, List.append_assoc, List.singleton_append,
        isLiteralFrom_break hkept (.inl rfl) hnomark, hbroken]

/-- An escape reads as less than its source, whose backslash is in front of `k`. -/
theorem escape_eq_ok (h : escape k = .ok (text, after)) :
    ∃ src, k.rest = src ++ after.rest ∧ text.length ≤ src.length := by
  unfold escape at h
  split at h
  · cases h
  · next c rest hk =>
    have hone : k.rest = [c] ++ k.next.rest := by rw [Cursor.next_rest, hk]; rfl
    split at h
    · obtain ⟨rfl, rfl⟩ := Prod.mk.inj (Except.ok.inj h)
      exact ⟨[c], hone, Nat.le_refl _⟩
    · next width _ _ =>
      dsimp only at h
      split at h
      · cases h
      · split at h
        · cases h
        · split at h
          · obtain ⟨rfl, rfl⟩ := Prod.mk.inj (Except.ok.inj h)
            refine ⟨c :: rest.take width, ?_, by simp⟩
            rw [Cursor.skip_rest, Cursor.next_rest, hk]
            simp
          · cases h
    · split at h
      · cases h
      · next b next hb =>
        obtain ⟨breaks, hbreaks, -, -, -, -⟩ := Cursor.exists_of_lineBreak hb
        obtain ⟨src, hsrc, hlength, -, -⟩ := quotedBreaks_eq_ok h
        refine ⟨breaks ++ src, by rw [hbreaks, hsrc, List.append_assoc], ?_⟩
        rw [List.length_append]
        omega

/-- What a break is folded to is no longer than the break and the further ones. -/
theorem length_fold_le (b : Char) (more : Text) : (fold b more).length ≤ more.length + 1 := by
  unfold fold
  split
  · simp
  · split <;> simp

/-- A folded gap is its own source only if its first break is none that is folded. -/
theorem ne_lineFeed_of_fold_eq {breaks : Text} (h : fold b more = blanks ++ (breaks ++ src))
    (hne : breaks ≠ []) (hbreaks : ∀ c ∈ breaks, isBreak c = true)
    (hmore : more.length ≤ src.length) : b ≠ '\n' := by
  rintro rfl
  have hlength := congrArg List.length h
  have hpos := List.length_pos_iff.2 hne
  simp only [List.length_append] at hlength
  cases more with
  | nil =>
    have hspace : fold '\n' [] = [' '] := rfl
    rw [hspace, List.length_singleton] at hlength
    obtain ⟨c, rfl⟩ := List.length_eq_one_iff.1 (show breaks.length = 1 by omega)
    obtain rfl : blanks = [] := List.eq_nil_of_length_eq_zero (by omega)
    obtain ⟨rfl, -⟩ := List.cons.inj (hspace.symm.trans h)
    exact absurd (hbreaks ' ' (by simp)) (by decide)
  | cons c more =>
    have hfold : fold '\n' (c :: more) = c :: more := rfl
    rw [hfold] at hlength
    omega

/-- **A gap reads as no more than its source.** If it reads as the source itself, a text with the
gap in front is literal if it is literal on its own. -/
theorem quotedGap_eq_ok (h : quotedGap k = .ok (text, after)) :
    ∃ src, k.rest = src ++ after.rest ∧ text.length ≤ src.length ∧
      (text = src → ∀ s rest, after.rest = s ++ '"' :: rest → isLiteralFrom false s = true →
        isLiteralFrom false (src ++ s) = true) := by
  have hsplit := k.rest_eq_takeWhile_append fun c ↦ c = ' ' || c = '\t'
  unfold quotedGap at h
  split at h
  next blanks behind htake =>
  have hblanks := k.takeWhile_blanks
  rw [htake] at hblanks hsplit
  dsimp only at hblanks hsplit
  split at h
  · next hnone =>
    obtain ⟨rfl, rfl⟩ := Prod.mk.inj (Except.ok.inj h)
    refine ⟨_, hsplit, Nat.le_refl _, fun _ s rest hs hliteral ↦ ?_⟩
    rwa [isLiteralFrom_blanks hblanks.1]
    intro c hc
    exact Cursor.lineBreak_eq_none_iff.1 hnone c (by rw [hs]; cases s <;> simp_all)
  · next b next hb =>
    split at h
    · cases h
    · next more last hmore =>
      obtain ⟨rfl, rfl⟩ := Prod.mk.inj (Except.ok.inj h)
      obtain ⟨breaks, hbreaks, hne, hall, hkept, -⟩ := Cursor.exists_of_lineBreak hb
      obtain ⟨src, hsrc, hlength, -, hliteral⟩ := quotedBreaks_eq_ok hmore
      have hpos := List.length_pos_iff.2 hne
      have hfold := length_fold_le b more
      refine ⟨blanks ++ (breaks ++ src), by rw [hsplit, hbreaks, hsrc]; simp, ?_, ?_⟩
      · simp only [List.length_append]
        omega
      · intro heq s rest hs hs'
        have hfeed := ne_lineFeed_of_fold_eq heq hne hall hlength
        rw [fold, if_pos hfeed] at heq
        obtain ⟨rfl, rfl, rfl⟩ := eq_of_cons_eq_append heq hne hlength
        obtain ⟨hbroken, hnomark⟩ := hliteral rfl s rest hs hs'
        rw [List.nil_append, List.append_assoc, List.singleton_append,
          isLiteralFrom_break hkept (.inr hfeed) hnomark, hbroken]

/-- The character that ends a quoted scalar. -/
def closingQuote (double : Bool) : Char :=
  if double then '"' else '\''

theorem rest_eq_cons_next (hk : k.rest = c :: rest) : k.rest = c :: k.next.rest := by
  rw [Cursor.next_rest, hk]
  rfl

/-- What a piece of a quoted scalar can be, up to the place behind it. -/
inductive ReadsPiece (double : Bool) (k after : Cursor) : Option Text → Prop
  | closing (hk : k.rest = closingQuote double :: after.rest) : ReadsPiece double k after none
  | gap (text : Text) (hgap : quotedGap k = .ok (text, after)) :
    ReadsPiece double k after (some text)
  | escape (text : Text) (hdouble : double = true) (hk : k.rest = '\\' :: k.next.rest)
    (hread : escape k.next = .ok (text, after)) : ReadsPiece double k after (some text)
  | quote (hdouble : double = false) (hk : k.rest = '\'' :: '\'' :: after.rest) :
    ReadsPiece double k after (some ['\''])
  | plain (c : Char) (hk : k.rest = c :: after.rest) (hbreak : isBreak c = false)
    (hblank : ¬(c = ' ' ∨ c = '\t')) (hplain : double = true → c ≠ '"' ∧ c ≠ '\\') :
    ReadsPiece double k after (some [c])

/-- A piece is one of these. -/
theorem readsPiece {piece : Option Text} (h : quotedPiece double k = .ok (piece, after)) :
    ReadsPiece double k after piece := by
  unfold quotedPiece at h
  split at h
  · cases h
  next c rest hk =>
  have hone : k.rest = c :: k.next.rest := rest_eq_cons_next hk
  split at h
  · obtain ⟨⟨text, after'⟩, hgap, heq⟩ := exists_of_map_eq_ok h
    obtain ⟨rfl, rfl⟩ := Prod.mk.inj heq
    exact .gap _ hgap
  next hsep =>
  simp only [isSeparator, Bool.or_eq_true, decide_eq_true_eq, not_or, Bool.not_eq_true] at hsep
  obtain ⟨hblank, hbreak⟩ := hsep
  cases double with
  | true =>
    simp only [if_true] at h
    split at h
    · next hquote =>
      obtain ⟨rfl, rfl⟩ := Prod.mk.inj (Except.ok.inj h)
      subst hquote
      exact .closing hone
    split at h
    · next hescape =>
      obtain ⟨⟨text, after'⟩, hread, heq⟩ := exists_of_map_eq_ok h
      obtain ⟨rfl, rfl⟩ := Prod.mk.inj heq
      exact .escape _ rfl (hescape ▸ hone) hread
    · next hquote hescape =>
      obtain ⟨rfl, rfl⟩ := Prod.mk.inj (Except.ok.inj h)
      exact .plain c hone hbreak (not_or.2 hblank) fun _ ↦ ⟨hquote, hescape⟩
  | false =>
    simp only [Bool.false_eq_true, if_false] at h
    split at h
    · next hquote =>
      split at h
      · next hdouble =>
        obtain ⟨rfl, rfl⟩ := Prod.mk.inj (Except.ok.inj h)
        obtain ⟨more, rfl⟩ := List.head?_eq_some_iff.1 hdouble
        exact .quote rfl (by rw [Cursor.skip_rest, hk, hquote]; rfl)
      · obtain ⟨rfl, rfl⟩ := Prod.mk.inj (Except.ok.inj h)
        subst hquote
        exact .closing hone
    · obtain ⟨rfl, rfl⟩ := Prod.mk.inj (Except.ok.inj h)
      exact .plain c hone hbreak (not_or.2 hblank) fun hfalse ↦ absurd hfalse Bool.false_ne_true

theorem quotedPiece_eq_ok_none (h : quotedPiece double k = .ok (none, after)) :
    k.rest = closingQuote double :: after.rest := by
  cases readsPiece h with
  | closing hk => exact hk

/-- **A piece of a quoted scalar reads as no more than its source.** If it reads as the source
itself, a text with the piece in front is literal between double quotes if it is literal on its
own. -/
theorem quotedPiece_eq_ok (h : quotedPiece double k = .ok (some text, after)) :
    ∃ src, k.rest = src ++ after.rest ∧ text.length ≤ src.length ∧
      (text = src → double = true → ∀ s rest, after.rest = s ++ '"' :: rest →
        isLiteralFrom false s = true → isLiteralFrom false (src ++ s) = true) := by
  cases readsPiece h with
  | gap text hgap =>
    obtain ⟨src, hsrc, hlength, hliteral⟩ := quotedGap_eq_ok hgap
    exact ⟨src, hsrc, hlength, fun heq _ ↦ hliteral heq⟩
  | escape text hdouble hk hread =>
    obtain ⟨src, hsrc, hlength⟩ := escape_eq_ok hread
    refine ⟨'\\' :: src, by rw [hk, hsrc]; rfl, Nat.le_succ_of_le hlength, fun heq ↦ ?_⟩
    have hsame : text.length = src.length + 1 := congrArg List.length heq
    omega
  | quote hsingle hk =>
    refine ⟨['\'', '\''], hk, by simp, fun _ hdouble ↦ ?_⟩
    exact absurd (hsingle.symm.trans hdouble) Bool.false_ne_true
  | plain c hk hbreak hblank hplain =>
    refine ⟨[c], hk, Nat.le_refl _, fun _ hdouble s rest _ hs ↦ ?_⟩
    obtain ⟨hquote, hescape⟩ := hplain hdouble
    rw [List.singleton_append, isLiteralFrom_cons_of_other hbreak hblank hquote hescape, hs]

/-- **A quoted scalar reads as no more than its source.** If it reads as the source itself, the
source is literal. -/
theorem quotedScalar_eq_ok (h : quotedScalar double k = .ok (text, after)) :
    ∃ src, k.rest = src ++ closingQuote double :: after.rest ∧ text.length ≤ src.length ∧
      (text = src → double = true → isLiteral src = true) := by
  fun_induction quotedScalar double k generalizing text after with
  | case1 => cases h
  | case2 k behind hpiece =>
    obtain ⟨rfl, rfl⟩ := Prod.mk.inj (Except.ok.inj h)
    exact ⟨[], quotedPiece_eq_ok_none hpiece, Nat.le_refl _, fun _ _ ↦ rfl⟩
  | case3 => cases h
  | case4 k piece behind hpiece hless more last' hmore ih =>
    obtain ⟨rfl, rfl⟩ := Prod.mk.inj (Except.ok.inj h)
    obtain ⟨front, hfront, hfrontLength, hfrontLiteral⟩ := quotedPiece_eq_ok hpiece
    obtain ⟨src, hsrc, hlength, hliteral⟩ := ih hmore
    refine ⟨front ++ src, by rw [hfront, hsrc, List.append_assoc], ?_, fun heq hdouble ↦ ?_⟩
    · simp only [List.length_append]
      omega
    · have hsame := congrArg List.length heq
      simp only [List.length_append] at hsame
      obtain ⟨rfl, rfl⟩ := List.append_inj heq (by omega)
      subst hdouble
      exact hfrontLiteral rfl rfl _ _ hsrc (hliteral rfl rfl)
  | case5 => cases h

/-! ### Literal texts are read -/

theorem quotedBreaks_eq_nil (hmark : atDocumentMark k.rest = false)
    (hhead : ∀ c ∈ k.rest.head?, isSeparator c = false) : quotedBreaks k = .ok ([], k) := by
  have hblanks : k.takeWhile (fun c ↦ c = ' ' || c = '\t') = ([], k) :=
    Cursor.takeWhile_of_head fun c hc ↦ by
      have hc := hhead c hc
      simp only [isSeparator, Bool.or_eq_false_iff] at hc
      simp [hc]
  have hnone : k.lineBreak? = none := Cursor.lineBreak_eq_none_iff.2 fun c hc ↦ by
    have hc := hhead c hc
    simp only [isSeparator, Bool.or_eq_false_iff] at hc
    exact hc.2
  rw [quotedBreaks, if_neg (by simp [hmark])]
  dsimp only
  split
  · simp [hblanks]
  · next hb =>
    rw [hblanks, hnone] at hb
    cases hb

theorem quotedBreaks_eq_cons (hmark : atDocumentMark k.rest = false) (hb : isKeptBreak b = true)
    (hk : k.rest = b :: rest) (hmore : quotedBreaks k.next = .ok (more, last)) :
    quotedBreaks k = .ok (b :: more, last) := by
  have hblanks : k.takeWhile (fun c ↦ c = ' ' || c = '\t') = ([], k) :=
    Cursor.takeWhile_of_head fun c hc ↦ by
      obtain rfl : b = c := by simpa [hk] using hc
      simp only [isKeptBreak, Bool.or_eq_true, decide_eq_true_eq] at hb
      rcases hb with (rfl | rfl) | rfl <;> rfl
  rw [quotedBreaks, if_neg (by simp [hmark])]
  dsimp only
  split
  · next hnone =>
    rw [hblanks, Cursor.lineBreak_of_isKeptBreak hb hk] at hnone
    cases hnone
  · next b' next hb' =>
    rw [hblanks, Cursor.lineBreak_of_isKeptBreak hb hk] at hb'
    obtain ⟨rfl, rfl⟩ := Prod.mk.inj (Option.some.inj hb')
    rw [hmore]

/-- What a literal text may begin with. -/
theorem isLiteralFrom_cons (h : isLiteralFrom broken (c :: s) = true) :
    isKeptBreak c = true ∧ (broken = true ∨ c ≠ '\n') ∧ atDocumentMark (s ++ ['"']) = false ∧
        isLiteralFrom true s = true ∨
      (c = ' ' ∨ c = '\t') ∧ broken = false ∧ (∀ d ∈ s.head?, isBreak d = false) ∧
        isLiteralFrom false s = true ∨
      isSeparator c = false ∧ c ≠ '"' ∧ c ≠ '\\' ∧ isLiteralFrom false s = true := by
  simp only [isLiteralFrom, Bool.and_eq_true, ne_eq, decide_not, Bool.not_eq_true',
    decide_eq_false_iff_not] at h
  obtain ⟨⟨⟨hquote, hescape⟩, hkind⟩, hs⟩ := h
  cases hbreak : isBreak c with
  | true =>
    rw [hbreak] at hs
    simp only [hbreak, if_true, Bool.and_eq_true, Bool.or_eq_true, decide_eq_true_eq,
      Bool.not_eq_true'] at hkind
    obtain ⟨hkind, hmark⟩ := hkind
    refine .inl ⟨?_, ?_, hmark, hs⟩
    · rcases hkind with (rfl | rfl) | ⟨-, rfl⟩ <;> rfl
    · rcases hkind with (rfl | rfl) | ⟨hbroken, -⟩
      · exact .inr (by decide)
      · exact .inr (by decide)
      · exact .inl hbroken
  | false =>
    rw [hbreak] at hs
    by_cases hblank : c = ' ' ∨ c = '\t'
    · have hhead : broken = false ∧ s.head?.any isBreak = false := by
        rcases hblank with rfl | rfl <;> simpa [isBreak] using hkind
      refine .inr (.inl ⟨hblank, hhead.1, fun d hd ↦ ?_, hs⟩)
      simpa [Option.mem_def.1 hd] using hhead.2
    · simp only [not_or] at hblank
      exact .inr (.inr ⟨by simp [isSeparator, hbreak, hblank], hquote, hescape, hs⟩)

/-- Further breaks are read as they are in front of what is no separator. -/
theorem exists_quotedBreaks_of_isLiteralFrom (h : isLiteralFrom true s = true)
    (hmark : atDocumentMark (s ++ ['"']) = false) (hk : k.rest = s ++ '"' :: rest) :
    ∃ breaks s' last, s = breaks ++ s' ∧ quotedBreaks k = .ok (breaks, last) ∧
      last.rest = s' ++ '"' :: rest ∧ isLiteralFrom false s' = true := by
  have hmarked : atDocumentMark k.rest = false := by rw [hk, atDocumentMark_append, hmark]
  induction s generalizing k with
  | nil =>
    have hhead : ∀ c ∈ k.rest.head?, isSeparator c = false := by simp [hk, isSeparator, isBreak]
    exact ⟨[], [], k, rfl, quotedBreaks_eq_nil hmarked hhead, hk, rfl⟩
  | cons c s ih =>
    rcases isLiteralFrom_cons h with ⟨hc, -, hnext, hs⟩ | ⟨-, hbroken, -⟩ | ⟨hc, -, -, hs⟩
    · have hrest : k.next.rest = s ++ '"' :: rest := by rw [Cursor.next_rest, hk]; rfl
      obtain ⟨breaks, s', last, rfl, hbreaks, hlast, hs'⟩ :=
        ih hs hnext hrest (by rw [hrest, atDocumentMark_append, hnext])
      exact ⟨c :: breaks, s', last, rfl, quotedBreaks_eq_cons hmarked hc hk hbreaks, hlast, hs'⟩
    · cases hbroken
    · have hhead : ∀ d ∈ k.rest.head?, isSeparator d = false := by simpa [hk] using hc
      refine ⟨[], c :: s, k, rfl, quotedBreaks_eq_nil hmarked hhead, hk, ?_⟩
      rwa [isLiteralFrom_of_head (by simpa using hc)] at h

theorem quotedScalar_eq_append {piece : Text} {behind : Cursor}
    (hpiece : quotedPiece double k = .ok (some piece, behind))
    (hless : behind.rest.length < k.rest.length)
    (hmore : quotedScalar double behind = .ok (text, after)) :
    quotedScalar double k = .ok (piece ++ text, after) := by
  rw [quotedScalar, hpiece]
  simp only [hless, if_true, hmore]

/-- Behind blanks, a literal text does not go on with a break. -/
theorem isLiteral_of_blanks (hblanks : ∀ c ∈ blanks, c = ' ' ∨ c = '\t') (hne : blanks ≠ [])
    (h : isLiteral (blanks ++ s) = true) :
    (∀ d ∈ s.head?, isBreak d = false) ∧ isLiteral s = true := by
  induction blanks with
  | nil => exact absurd rfl hne
  | cons c blanks ih =>
    obtain ⟨hc, hblanks⟩ := List.forall_mem_cons.1 hblanks
    rcases isLiteralFrom_cons h with ⟨hkept, -⟩ | ⟨-, -, hhead, hs⟩ | ⟨hsep, -⟩
    · rcases hc with rfl | rfl <;> cases hkept
    · rcases eq_or_ne blanks [] with rfl | hblanksNe
      · exact ⟨hhead, hs⟩
      · exact ih hblanks hblanksNe hs
    · rcases hc with rfl | rfl <;> cases hsep

/-- The blanks at the beginning of a text. -/
theorem exists_blanks_append (hc : c = ' ' ∨ c = '\t') (s : Text) :
    ∃ blanks s', c :: s = blanks ++ s' ∧ blanks ≠ [] ∧ (∀ d ∈ blanks, d = ' ' ∨ d = '\t') ∧
      ∀ d ∈ s'.head?, d ≠ ' ' ∧ d ≠ '\t' := by
  refine ⟨(c :: s).takeWhile fun d ↦ d = ' ' || d = '\t', (c :: s).dropWhile fun d ↦
    d = ' ' || d = '\t', List.takeWhile_append_dropWhile.symm, ?_, fun d hd ↦ ?_, fun d hd ↦ ?_⟩
  · rcases hc with rfl | rfl <;> simp
  · simpa using List.mem_takeWhile_imp hd
  · simpa using Text.mem_head?_dropWhile d hd

/-- A gap of blanks in front of no break is kept. -/
theorem exists_quotedGap_of_blanks (hblanks : ∀ d ∈ blanks, d = ' ' ∨ d = '\t')
    (hhead : ∀ d ∈ rest.head?, isSeparator d = false) (hk : k.rest = blanks ++ rest) :
    ∃ after, quotedGap k = .ok (blanks, after) ∧ after.rest = rest := by
  obtain ⟨hfirst, hbehind⟩ := Cursor.takeWhile_append (p := fun c ↦ c = ' ' || c = '\t') hk
    (by simpa using hblanks) fun d hd ↦ by
      have hd := hhead d hd
      simp only [isSeparator, Bool.or_eq_false_iff] at hd
      simp [hd]
  have hnone : (k.takeWhile fun c ↦ c = ' ' || c = '\t').2.lineBreak? = none := by
    refine Cursor.lineBreak_eq_none_iff.2 fun d hd ↦ ?_
    have hd := hhead d (hbehind ▸ hd)
    simp only [isSeparator, Bool.or_eq_false_iff] at hd
    exact hd.2
  exact ⟨_, by simp only [quotedGap, hnone, hfirst], hbehind⟩

/-- A gap in a literal text is kept, and what is behind it is literal. -/
theorem exists_quotedGap_of_isLiteral (h : isLiteral (c :: s) = true) (hc : isSeparator c = true)
    (hk : k.rest = c :: (s ++ '"' :: rest)) :
    ∃ gap s' after, c :: s = gap ++ s' ∧ gap ≠ [] ∧ quotedGap k = .ok (gap, after) ∧
      after.rest = s' ++ '"' :: rest ∧ isLiteral s' = true := by
  rcases isLiteralFrom_cons h with ⟨hkept, hfeed, hmark, hs⟩ | ⟨hblank, -⟩ | ⟨hsep, -⟩
  · have hblanks : k.takeWhile (fun c ↦ c = ' ' || c = '\t') = ([], k) :=
      Cursor.takeWhile_of_head fun d hd ↦ by
        obtain rfl : c = d := by simpa [hk] using hd
        simp only [isKeptBreak, Bool.or_eq_true, decide_eq_true_eq] at hkept
        rcases hkept with (rfl | rfl) | rfl <;> rfl
    have hnext : k.next.rest = s ++ '"' :: rest := by rw [Cursor.next_rest, hk]; rfl
    obtain ⟨breaks, s', last, rfl, hbreaks, hlast, hs'⟩ :=
      exists_quotedBreaks_of_isLiteralFrom hs hmark hnext
    refine ⟨c :: breaks, s', last, rfl, by simp, ?_, hlast, hs'⟩
    have hfold : fold c breaks = c :: breaks := by
      rw [fold, if_pos (hfeed.resolve_left (by simp))]
      rfl
    simp only [quotedGap, hblanks, Cursor.lineBreak_of_isKeptBreak hkept hk, hbreaks, hfold]
  · obtain ⟨blanks, s', hsplit, hne, hblanks, hnot⟩ := exists_blanks_append hblank s
    rw [hsplit] at h
    obtain ⟨hbreak, hs'⟩ := isLiteral_of_blanks hblanks hne h
    have hhead : ∀ d ∈ (s' ++ '"' :: rest).head?, isSeparator d = false := by
      intro d hd
      cases s' with
      | nil =>
        obtain rfl : '"' = d := by simpa using hd
        rfl
      | cons e s' =>
        obtain rfl : e = d := by simpa using hd
        simp [isSeparator, hnot e rfl, hbreak e rfl]
    obtain ⟨after, hgap, hafter⟩ := exists_quotedGap_of_blanks hblanks hhead (k := k)
      (by rw [hk, ← List.append_assoc, ← hsplit, List.cons_append])
    exact ⟨blanks, s', after, hsplit, hne, hgap, hafter, hs'⟩
  · rw [hc] at hsep
    cases hsep

/-- **A literal text between double quotes reads as itself.** -/
theorem exists_quotedScalar_of_isLiteral (h : isLiteral s = true) (hk : k.rest = s ++ '"' :: rest) :
    ∃ after, quotedScalar true k = .ok (s, after) ∧ after.rest = rest := by
  induction hn : s.length using Nat.strongRecOn generalizing s k with
  | ind n ih =>
    cases s with
    | nil =>
      refine ⟨k.next, ?_, by rw [Cursor.next_rest, hk]; rfl⟩
      have hpiece : quotedPiece true k = .ok (none, k.next) := by
        simp [quotedPiece, hk, isSeparator, isBreak]
      rw [quotedScalar, hpiece]
    | cons c s =>
      have hnext : k.next.rest = s ++ '"' :: rest := by rw [Cursor.next_rest, hk]; rfl
      cases hc : isSeparator c with
      | true =>
        obtain ⟨gap, s', behind, hsplit, hne, hgap, hbehind, hs'⟩ :=
          exists_quotedGap_of_isLiteral h hc hk
        have hpos := List.length_pos_iff.2 hne
        have hlength := congrArg List.length hsplit
        rw [List.length_append] at hlength
        obtain ⟨after, hafter, hrest⟩ := ih s'.length (by omega) hs' hbehind rfl
        have hpiece : quotedPiece true k = .ok (some gap, behind) := by
          simp [quotedPiece, hk, hc, hgap, Except.map]
        refine ⟨after, ?_, hrest⟩
        rw [hsplit]
        refine quotedScalar_eq_append hpiece ?_ hafter
        have hrest : k.rest = gap ++ behind.rest := by
          rw [hk, hsplit, hbehind, List.append_assoc]
        rw [hrest, List.length_append]
        omega
      | false =>
        rcases isLiteralFrom_cons h with ⟨hkept, -⟩ | ⟨hblank, -⟩ | ⟨-, hquote, hescape, hs⟩
        · rw [isSeparator, isBreak_of_isKeptBreak hkept] at hc
          simp at hc
        · rcases hblank with rfl | rfl <;> cases hc
        · obtain ⟨after, hafter, hrest⟩ := ih s.length (by simp at hn; omega) hs hnext rfl
          have hpiece : quotedPiece true k = .ok (some [c], k.next) := by
            simp [quotedPiece, hk, hc, hquote, hescape]
          exact ⟨after, quotedScalar_eq_append hpiece (by simp [hk, hnext]) hafter, hrest⟩

end Yaml

end YulPlus
