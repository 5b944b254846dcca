import YulPlus.Proofs.Source.Pieced

/-!
# Texts of plain Yul

A text reads plainly if the lexer can read it and finds only tokens that plain Yul has. For a text
that is put together from pieces this depends on its seams alone: whether `u ++ s` reads plainly is
said by one equivalence for each kind of `u`, a lexeme, a gap or lines of functions.

Two pieces are different. A hexadecimal number takes in the digits behind it, and is no number if a
letter follows them; a word that frames hash literals makes one with a string behind it. `Clashes`
are the texts that they must not stand in front of. -/

namespace YulPlus

open Text

/-- The text can be read, and all its tokens are of plain Yul. -/
def ReadsPlainly (s : Text) : Prop :=
  ∃ ws, Lexes s ws ∧ ∀ x ∈ ws, x.1.isPlain = true

/-- The text `u` runs on into `s`. -/
inductive Clashes (u s : Text) : Prop
  /-- A hexadecimal number, with a character behind it and behind more digits that could belong to a
  word. -/
  | number {digits : Text} (hu : u = '0' :: 'x' :: digits) (hs : ¬ Firm (s.dropWhile isHexDigit))
  /-- A framing word, with a string behind it. -/
  | frame {k : TokenKind} (hu : TokenKind.ofFrame? u = some k) (hs : s.head? = some '"')

section

variable {k : TokenKind} {v u s g r digits : Text} {l : Lexeme} {ws vs : List (TokenKind × Text)}
  {functions : List Text}

/-- The kinds of the tokens of a text are those that it is read as, and the one at the end. -/
theorem forall_kind_iff (P : TokenKind → Prop) {ts : List Token}
    (h : ts.map Token.reading = ws ++ [endReading]) (hend : P .endOfText) :
    (∀ t ∈ ts, P t.kind) ↔ ∀ x ∈ ws, P x.1 := by
  have hkinds : (∀ t ∈ ts, P t.kind) ↔ ∀ x ∈ ts.map Token.reading, P x.1 := by
    rw [List.forall_mem_map]
    rfl
  rw [hkinds, h, List.forall_mem_append, List.forall_mem_singleton]
  exact and_iff_left hend

/-- Reading plainly is a matter of the lexer. -/
theorem readsPlainly_iff_tokenize :
    ReadsPlainly s ↔ ∃ ts, tokenize s = .ok ts ∧ ∀ t ∈ ts, t.kind.isPlain = true := by
  constructor
  · rintro ⟨ws, hws, hplain⟩
    obtain ⟨ts, hts, hreadings⟩ := exists_tokenizeFrom_iff.2 hws
    exact ⟨ts, hts, (forall_kind_iff (·.isPlain = true) hreadings rfl).2 hplain⟩
  · rintro ⟨ts, hts, hplain⟩
    obtain ⟨ws, hws, hreadings⟩ := (tokenized_of_tokenizeFrom hts).exists_lexes
    exact ⟨ws, hws, (forall_kind_iff (·.isPlain = true) hreadings rfl).1 hplain⟩

/-! ### In front of a text -/

/-- **A lexeme in front.** -/
theorem Spelling.readsPlainly_iff (hu : Spelling l u s) :
    ReadsPlainly (u ++ s) ↔ (∀ x ∈ l.readings, x.1.isPlain = true) ∧ ReadsPlainly s := by
  constructor
  · rintro ⟨ws, hws, hplain⟩
    obtain ⟨vs, rfl, hvs⟩ := hws.exists_rest hu
    exact ⟨fun x hx ↦ hplain x (List.mem_append_left _ hx), vs, hvs,
      fun x hx ↦ hplain x (List.mem_append_right _ hx)⟩
  · rintro ⟨hl, ws, hws, hplain⟩
    exact ⟨_, .cons hu hws, fun x hx ↦ (List.mem_append.1 hx).elim (hl x) (hplain x)⟩

theorem Spelling.readsPlainly_token_iff (hu : Spelling (.token k v) u s) (hk : k.isPlain = true) :
    ReadsPlainly (u ++ s) ↔ ReadsPlainly s := by
  simp [hu.readsPlainly_iff, Lexeme.readings, hk]

theorem Spelling.readsPlainly_gap_iff (hu : Spelling .gap u s) :
    ReadsPlainly (u ++ s) ↔ ReadsPlainly s := by
  simp [hu.readsPlainly_iff, Lexeme.readings]

/-- **A gap in front.** -/
theorem Gap.readsPlainly_iff (hg : Gap g) : ReadsPlainly (g ++ s) ↔ ReadsPlainly s := by
  induction hg with
  | nil => exact Iff.rfl
  | @layout c g hc _ ih =>
    have hspell : Spelling .gap [c] (g ++ s) := .layout hc
    exact hspell.readsPlainly_gap_iff.trans ih
  | @lineComment body g hbody _ ih =>
    have hspell : Spelling .gap ('/' :: '/' :: body) ('\n' :: g ++ s) :=
      .lineComment hbody fun c hc ↦ by cases hc; rfl
    rw [List.append_assoc]
    exact hspell.readsPlainly_gap_iff.trans ih
  | @blockComment body g hbody _ ih =>
    have hspell : Spelling .gap ('/' :: '*' :: body) (g ++ s) := .blockComment hbody
    rw [List.append_assoc]
    exact hspell.readsPlainly_gap_iff.trans ih

/-- **A whole text in front**, with a line feed between the two. -/
theorem Lexes.readsPlainly_append_lineFeed (h : Lexes u ws)
    (hplain : ∀ x ∈ ws, x.1.isPlain = true) :
    ReadsPlainly (u ++ '\n' :: s) ↔ ReadsPlainly s := by
  induction h with
  | nil => exact Gap.readsPlainly_iff (.layout (c := '\n') (by decide) .nil)
  | @cons l u r ws hu _ ih =>
    rw [List.append_assoc, hu.append_lineFeed.readsPlainly_iff,
      ih fun x hx ↦ hplain x (List.mem_append_right _ hx)]
    exact and_iff_right fun x hx ↦ hplain x (List.mem_append_left _ hx)

/-- **Functions in front**, on lines of their own. -/
theorem readsPlainly_joinWith (h : ∀ f ∈ functions, ReadsPlainly f) :
    ReadsPlainly (joinWith ['\n'] functions ++ '\n' :: s) ↔ ReadsPlainly s := by
  induction functions with
  | nil => exact Gap.readsPlainly_iff (.layout (c := '\n') (by decide) .nil)
  | cons f functions ih =>
    obtain ⟨ws, hlex, hplain⟩ := h f (by simp)
    cases functions with
    | nil => exact hlex.readsPlainly_append_lineFeed hplain
    | cons f' functions =>
      rw [joinWith_cons_cons, List.append_assoc, List.append_assoc]
      exact (hlex.readsPlainly_append_lineFeed hplain).trans
        (ih fun g hg ↦ h g (List.mem_cons_of_mem _ hg))

/-! ### What must not follow -/

theorem dropWhile_isHexDigit_of_firm (h : Firm s) : s.dropWhile isHexDigit = s := by
  cases s with
  | nil => rfl
  | cons c s =>
    have hc : isHexDigit c ≠ true := fun hdigit ↦ by
      have hpart := isIdentifierPart_of_isHexDigit hdigit
      rw [firm_cons_iff.1 h] at hpart
      cases hpart
    rw [List.dropWhile_cons, if_neg hc]

/-- Only a frame runs on into a firm text. -/
theorem Firm.clashes_iff (h : Firm s) :
    Clashes u s ↔ ∃ k, TokenKind.ofFrame? u = some k ∧ s.head? = some '"' := by
  constructor
  · rintro (⟨-, hs⟩ | ⟨hu, hs⟩)
    · rw [dropWhile_isHexDigit_of_firm h] at hs
      exact absurd h hs
    · exact ⟨_, hu, hs⟩
  · rintro ⟨k, hu, hs⟩
    exact .frame hu hs

theorem Soft.not_clashes (h : Soft s) : ¬ Clashes u s := by
  rw [h.firm.clashes_iff]
  rintro ⟨-, -, hs⟩
  exact (h '"' hs).2.1 rfl

/-- A text that does not begin like a word runs on into nothing. -/
theorem Firm.not_clashes (h : Firm u) : ¬ Clashes u s := by
  rintro (⟨rfl, -⟩ | ⟨hu, -⟩)
  · exact absurd (firm_cons_iff.1 h) (by decide)
  · rcases TokenKind.eq_of_ofFrame? hu with ⟨rfl, -⟩ | ⟨rfl, -⟩ <;>
      exact absurd (firm_cons_iff.1 h) (by decide)

/-- A frame with a string behind it is a hash literal. -/
theorem Pieced.not_readsPlainly_of_frame (h : Pieced s ws) (hu : TokenKind.ofFrame? u = some k)
    (hs : s.head? = some '"') : ¬ ReadsPlainly (u ++ s) := by
  obtain ⟨inner, r, ws, rfl, rfl, hinner, -⟩ := h.exists_string hs
  have hspell : Spelling (.token k inner) (u ++ '"' :: inner ++ ['"']) r := .hash hu hinner
  intro hplain
  have hsplit : u ++ ('"' :: inner ++ ['"'] ++ r) = u ++ '"' :: inner ++ ['"'] ++ r := by simp
  rw [hsplit, hspell.readsPlainly_iff] at hplain
  have hk := hplain.1 (k, inner) (by simp [Lexeme.readings])
  rw [TokenKind.isPlain, (TokenKind.frame?_of_ofFrame? hu).2] at hk
  cases hk

/-- **A token in front of a firm text.** -/
theorem Pieced.readsPlainly_token_iff (h : Pieced s ws) (hu : Spelling (.token k v) u r)
    (hk : k.isPlain = true) (hs : Firm s) :
    ReadsPlainly (u ++ s) ↔ ReadsPlainly s ∧ ¬ Clashes u s := by
  rw [hs.clashes_iff]
  by_cases hframe : ∃ k, TokenKind.ofFrame? u = some k ∧ s.head? = some '"'
  · refine iff_of_false ?_ fun hnot ↦ hnot.2 hframe
    obtain ⟨k, hframe, hquote⟩ := hframe
    exact h.not_readsPlainly_of_frame hframe hquote
  · have hspell := hu.of_firm (fun _ ↦ hs) h.head?_ne_equals fun hsome c hc heq ↦ by
      obtain ⟨k, hk⟩ := Option.isSome_iff_exists.1 hsome
      exact hframe ⟨k, hk, heq ▸ hc⟩
    rw [hspell.readsPlainly_token_iff hk]
    exact (and_iff_left hframe).symm

/-- The characters of a word are all digits if no letter is left behind the digits in front. -/
theorem forall_isHexDigit_of_firm (hu : ∀ c ∈ u, isIdentifierPart c = true)
    (h : Firm ((u ++ s).dropWhile isHexDigit)) : ∀ c ∈ u, isHexDigit c = true := by
  induction u with
  | nil => exact List.forall_mem_nil _
  | cons c u ih =>
    simp only [List.mem_cons, forall_eq_or_imp] at hu ⊢
    rw [List.cons_append, List.dropWhile_cons] at h
    split at h
    · rename_i hc
      exact ⟨hc, ih hu.2 h⟩
    · rw [firm_cons_iff.1 h] at hu
      cases hu.1

/-- What a hexadecimal number takes in is one piece, a word or a number. -/
theorem Pieced.exists_hexRun (h : Pieced s ws) (hrun : Firm (s.dropWhile isHexDigit)) :
    Firm s ∨ ∃ k u r ws', s = u ++ r ∧ ws = (k, u) :: ws' ∧ (∀ c ∈ u, isHexDigit c = true) ∧
      Firm r ∧ Spelling (.token k u) u r := by
  cases h with
  | nil => exact .inl firm_nil
  | @gap g s _ hg => exact .inl (hg.soft_of_gap.append hg.text_ne_nil s).firm
  | @token k v u s ws hu hseam hrest =>
    -- a piece that runs on and consists of digits
    have hpiece : v = u → k.runsOn = true → (∀ c ∈ u, isIdentifierPart c = true) →
        ∃ k' u' r ws', u ++ s = u' ++ r ∧ (k, v) :: ws = (k', u') :: ws' ∧
          (∀ c ∈ u', isHexDigit c = true) ∧ Firm r ∧ Spelling (.token k' u') u' r := by
      rintro rfl hruns hparts
      have hall := forall_isHexDigit_of_firm hparts hrun
      have hfirm : Firm s := by
        refine (hseam hruns).resolve_right ?_
        rintro ⟨digits, rfl⟩
        exact absurd (hall 'x' (by simp)) (by decide)
      refine ⟨k, v, s, ws, rfl, rfl, hall, hfirm,
        hu.of_firm (fun _ ↦ hfirm) hrest.head?_ne_equals fun hframe ↦ ?_⟩
      obtain ⟨k', hframe⟩ := Option.isSome_iff_exists.1 hframe
      rcases TokenKind.eq_of_ofFrame? hframe with ⟨rfl, -⟩ | ⟨rfl, -⟩
      · exact absurd (hall 's' (by simp)) (by decide)
      · exact absurd (hall 't' (by simp)) (by decide)
    cases hu with
    | symbol hk =>
      exact .inl ((TokenKind.soft_symbol hk).append (TokenKind.symbol_ne_nil hk) s).firm
    | string => exact .inl (firm_cons_iff.2 (by decide))
    | hexNumber => exact absurd (firm_cons_iff.1 hrun) (by decide)
    | number _ hdigits =>
      exact .inr (hpiece rfl rfl fun c hc ↦ isIdentifierPart_of_isDigit (hdigits c hc))
    | word hc _ htail =>
      refine .inr (hpiece rfl (TokenKind.runsOn_ofWord _) ?_)
      simp only [List.mem_cons, forall_eq_or_imp]
      exact ⟨isIdentifierPart_of_isIdentifierStart hc, htail⟩
    | hash hframe =>
      rcases TokenKind.eq_of_ofFrame? hframe with ⟨rfl, -⟩ | ⟨rfl, -⟩
      · exact absurd (firm_cons_iff.1 hrun) (by decide)
      · exact absurd (firm_cons_iff.1 hrun) (by decide)

/-- **A hexadecimal number in front of pieces.** -/
theorem Pieced.readsPlainly_hex_iff (h : Pieced s ws) (hplain : ∀ x ∈ ws, x.1.isPlain = true)
    (hne : digits ≠ []) (hdigits : ∀ c ∈ digits, isHexDigit c = true) :
    ReadsPlainly ('0' :: 'x' :: digits ++ s) ↔
      ReadsPlainly s ∧ ¬ Clashes ('0' :: 'x' :: digits) s := by
  have hclash : Clashes ('0' :: 'x' :: digits) s ↔ ¬ Firm (s.dropWhile isHexDigit) := by
    refine ⟨?_, .number rfl⟩
    rintro (⟨-, hs⟩ | ⟨hu, -⟩)
    · exact hs
    · rcases TokenKind.eq_of_ofFrame? hu with ⟨hu, -⟩ | ⟨hu, -⟩ <;> cases hu
  rw [hclash, not_not]
  by_cases hrun : Firm (s.dropWhile isHexDigit)
  · rw [and_iff_left hrun]
    rcases h.exists_hexRun hrun with hfirm | ⟨k, u, r, ws', rfl, rfl, hu, hr, hspell⟩
    · have hnumber : Spelling (.token .number ('0' :: 'x' :: digits)) ('0' :: 'x' :: digits) s :=
        .hexNumber hne hdigits hfirm
      exact hnumber.readsPlainly_token_iff rfl
    · have hjoined : Spelling (.token .number ('0' :: 'x' :: (digits ++ u)))
          ('0' :: 'x' :: (digits ++ u)) r :=
        .hexNumber (by simp [hne])
          (fun c hc ↦ (List.mem_append.1 hc).elim (hdigits c) (hu c)) hr
      rw [hspell.readsPlainly_token_iff (hplain (k, u) (by simp)),
        ← hjoined.readsPlainly_token_iff rfl]
      simp
  · refine iff_of_false ?_ fun hboth ↦ hrun hboth.2
    rintro ⟨vs, hvs, -⟩
    obtain ⟨digits', r, heq, hdigits', hr⟩ : ∃ digits' r, digits ++ s = digits' ++ r ∧
        (∀ c ∈ digits', isHexDigit c = true) ∧ Firm r := hvs.exists_hexDigits
    -- the digits that are read end where those behind the number do
    have hsame := congrArg (List.dropWhile isHexDigit) heq
    rw [List.dropWhile_append_of_pos hdigits, List.dropWhile_append_of_pos hdigits',
      dropWhile_isHexDigit_of_firm hr] at hsame
    exact hrun (hsame ▸ hr)

end

end YulPlus
