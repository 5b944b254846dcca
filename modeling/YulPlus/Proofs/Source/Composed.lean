import YulPlus.Proofs.Source.Placement

/-!
# Texts put together

A text that is put in front of another one keeps its tokens if nothing runs together at the seam.
There are three kinds of seam:

* `Reads u ws`: whatever stands behind `u`, as long as it is soft, `u` reads as `ws`. This is what
  is asked of a text that replaces a token, and it holds of every single token (`Spelling.reads`).
* `Lexes.append`: a whole text without comments that ends in a symbol or a blank may stand in front
  of everything.
* `Lexes.append_lineFeed`, which lives beside `Lexes`, separates any two texts.

Behind them stand the words and numbers that lowering writes itself: names, decimal numbers, and the
hexadecimal literals of hashes.
-/

namespace YulPlus

open Text

/-- In front of every soft text, `u` reads as `ws`. -/
def Reads (u : Text) (ws : List (TokenKind × Text)) : Prop :=
  ∀ ⦃s : Text⦄ ⦃vs : List (TokenKind × Text)⦄, Soft s → Lexes s vs → Lexes (u ++ s) (ws ++ vs)

section

variable {k : TokenKind} {v w u r s : Text} {l : Lexeme} {ws vs : List (TokenKind × Text)}

/-! ### Seams -/

/-- A single token reads as itself. -/
theorem Spelling.reads (h : Spelling (.token k v) u r) : Reads u [(k, v)] :=
  fun _ _ hs hlex ↦ .cons (h.of_soft hs) hlex

/-- A lexeme at the end of a text, in front of more text. -/
theorem Spelling.of_end (h : Spelling l u r) (hcomment : '/' ∉ u) (heq : ∀ c ∈ s.head?, c ≠ '=')
    (hend : Soft s ∨ ∀ c ∈ u.getLast?, isIdentifierPart c = false) : Spelling l u s := by
  -- a number or a word ends in a character that would run on
  have hword : (∀ c ∈ u, isIdentifierPart c = true) → Soft s := by
    intro hall
    refine hend.resolve_right fun hlast ↦ ?_
    obtain ⟨c, hc⟩ := Option.ne_none_iff_exists'.1 (mt List.getLast?_eq_none_iff.1 h.text_ne_nil)
    have htrue := hall c (List.mem_of_getLast? hc)
    rw [hlast c hc] at htrue
    cases htrue
  cases h with
  | layout hc => exact .layout hc
  | lineComment | blockComment => simp at hcomment
  | symbol hk => exact .symbol hk fun _ ↦ heq
  | string hinner => exact .string hinner
  | @hexNumber digits _ hne hdigits hr =>
    have hs := hword (by
      simp only [List.mem_cons, forall_eq_or_imp]
      exact ⟨by decide, by decide, fun c hc ↦ isIdentifierPart_of_isHexDigit (hdigits c hc)⟩)
    exact .hexNumber hne hdigits fun c hc ↦ (hs c hc).1
  | number hne hdigits hr =>
    have hs := hword fun c hc ↦ isIdentifierPart_of_isDigit (hdigits c hc)
    exact .number hne hdigits fun c hc ↦ (hs c hc).1
  | word hc hdigit htail hr hquote =>
    have hs := hword (by
      simp only [List.mem_cons, forall_eq_or_imp]
      exact ⟨isIdentifierPart_of_isIdentifierStart hc, htail⟩)
    exact .word hc hdigit htail (fun c hc ↦ (hs c hc).1) fun _ c hc ↦ (hs c hc).2.1
  | hash hframe hinner => exact .hash hframe hinner

/-- **A text without comments** keeps its tokens in front of another one, unless its last token runs
on. -/
theorem Lexes.append (h : Lexes u ws) (hcomment : '/' ∉ u) (hs : Lexes s vs)
    (hend : Soft s ∨ ∀ c ∈ u.getLast?, isIdentifierPart c = false) :
    Lexes (u ++ s) (ws ++ vs) := by
  induction h with
  | nil => exact hs
  | @cons l u r ws hu hr ih =>
    rw [List.append_assoc, List.append_assoc]
    obtain ⟨hcu, hcr⟩ := not_or.1 (mt List.mem_append.2 hcomment)
    -- what is known of the end of the text is needed for its last lexeme only
    by_cases hnil : r = []
    · subst hnil
      rw [List.append_nil] at hend
      exact .cons (hu.of_end hcu hs.head?_ne_equals hend) (ih hcr (.inr (by simp)))
    · rw [List.getLast?_append, Option.or_of_isSome (by simpa using hnil)] at hend
      obtain ⟨c, r, rfl⟩ := List.exists_cons_of_ne_nil hnil
      exact .cons (hu.of_head? rfl) (ih hcr hend)

/-- A text without tokens is soft. -/
theorem Lexes.soft_of_nil (h : Lexes s []) : Soft s := by
  generalize hws : ([] : List (TokenKind × Text)) = ws at h
  cases h with
  | nil => exact soft_nil
  | @cons l u r ws hu _ =>
    obtain ⟨hl, -⟩ := List.append_eq_nil_iff.1 hws.symm
    cases l with
    | token k v => cases hl
    | gap => exact hu.soft_of_gap.append hu.text_ne_nil r

/-! ### Numbers -/

theorem isDigit_of_mem_decimal {n : Nat} {c : Char} (hc : c ∈ decimal n) : isDigit c = true := by
  have hdigit := Nat.isDigit_of_mem_toDigits (by decide) (by decide) hc
  simp only [Char.isDigit, Bool.and_eq_true, decide_eq_true_eq, ge_iff_le,
    UInt32.le_iff_toNat_le] at hdigit
  have hlow : 0x30 ≤ c.toNat := hdigit.1
  have hhigh : c.toNat ≤ 0x39 := hdigit.2
  rw [isDigit, decimalRanges_eq, inRanges, if_neg (by omega), if_pos hhigh]
  rfl

/-- A decimal number reads as itself. -/
theorem reads_decimal (n : Nat) : Reads (decimal n) [(.number, decimal n)] := by
  have hspell : Spelling (.token .number (decimal n)) (decimal n) [] :=
    .number Nat.toDigits_ne_nil (fun _ ↦ isDigit_of_mem_decimal) (by simp)
  exact hspell.reads

/-! ### Names -/

/-- Is the text an identifier? -/
def IsName (w : Text) : Prop :=
  ∃ r, Spelling (.token .identifier w) w r

theorem IsName.reads (h : IsName w) : Reads w [(.identifier, w)] :=
  h.choose_spec.reads

theorem isName_iff :
    IsName w ↔ ∃ c tail, w = c :: tail ∧ isIdentifierStart c = true ∧ isDigit c = false ∧
      (∀ d ∈ tail, isIdentifierPart d = true) ∧ TokenKind.ofWord w = .identifier := by
  constructor
  · rintro ⟨r, hr⟩
    generalize hl : Lexeme.token .identifier w = l at hr
    cases hr with
    | word hc hdigit htail =>
      obtain ⟨hkind, -⟩ := Lexeme.token.inj hl
      exact ⟨_, _, rfl, hc, hdigit, htail, hkind.symm⟩
    | symbol hk =>
      obtain ⟨rfl, -⟩ := Lexeme.token.inj hl
      cases hk
    | hash hframe =>
      obtain ⟨rfl, -⟩ := Lexeme.token.inj hl
      cases (TokenKind.frame?_of_ofFrame? hframe).2
    | _ => cases hl
  · rintro ⟨c, tail, rfl, hc, hdigit, htail, hkind⟩
    exact ⟨[], hkind ▸ .word hc hdigit htail (by simp) (by simp)⟩

/-- No keyword has a dot in it. -/
theorem ofWord_of_dot_mem (h : '.' ∈ w) : TokenKind.ofWord w = .identifier := by
  unfold TokenKind.ofWord
  repeat' split
  all_goals first | rfl | (subst w; exact absurd h (by decide))

/-- A name goes on behind a dot. -/
theorem IsName.dot (h : IsName v) (hw : ∀ c ∈ w, isIdentifierPart c = true) :
    IsName (v ++ '.' :: w) := by
  obtain ⟨c, tail, rfl, hc, hdigit, htail, -⟩ := isName_iff.1 h
  refine isName_iff.2 ⟨c, tail ++ '.' :: w, rfl, hc, hdigit, ?_, ofWord_of_dot_mem (by simp)⟩
  simp only [List.mem_append, List.mem_cons]
  rintro d (hd | rfl | hd)
  · exact htail d hd
  · decide
  · exact hw d hd

theorem IsName.isIdentifierPart (h : IsName w) : ∀ c ∈ w, isIdentifierPart c = true := by
  obtain ⟨c, tail, rfl, hc, -, htail, -⟩ := isName_iff.1 h
  simp only [List.mem_cons, forall_eq_or_imp]
  exact ⟨isIdentifierPart_of_isIdentifierStart hc, htail⟩

end

end YulPlus
