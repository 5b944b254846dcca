import YulPlus.Proofs.Text.Words
import YulPlus.Source.Lexer

/-!
# How lexemes are spelled

`Spelling l u r` says, without scanning, that the text `u` is a lexeme `l` when the text `r` stands
behind it. Only the first character of `r` matters, and only for the lexemes that could have been
longer: a line comment, a colon, a number and a word.

The text behind a lexeme is part of the relation, so maximal munch is a premise of each spelling and
not a side condition of every later statement. A spelling can be moved in front of another text:
`Spelling.of_head?` keeps the first character behind it, `Spelling.of_not_wordLike` serves symbols
and strings of symbols, and `Soft r` is the one condition under which every token may stand in front
of `r` (`Spelling.of_soft`).
-/

namespace YulPlus

open Text

namespace TokenKind

/-- Has this kind a fixed spelling without letters? -/
def isSymbol (k : TokenKind) : Bool :=
  k ∈ [openBrace, closeBrace, openParen, closeParen, comma, colon, assign, arrow]

/-- Is a token of this kind a word, a number or something between quotes? Two such tokens need a
gap between them. -/
def isWordLike (k : TokenKind) : Bool :=
  !k.isSymbol && k != endOfText

/-- Is this a kind of token that plain Yul has? Hash literals and the keywords of declarations are
not. -/
def isPlain (k : TokenKind) : Bool :=
  !k.isHash && !k.isDeclaration

/-- The characters of a symbol. -/
def symbol (k : TokenKind) : Text :=
  k.label.toList

end TokenKind

/-- `u` is spelled as the lexeme `l` in front of `r`. -/
inductive Spelling : Lexeme → Text → Text → Prop
  | layout {c : Char} {r : Text} (hc : isLayout c = true) : Spelling .gap [c] r
  | lineComment {body r : Text} (hbody : '\n' ∉ body) (hr : ∀ c ∈ r.head?, c = '\n') :
      Spelling .gap ('/' :: '/' :: body) r
  | blockComment {body r : Text} (hbody : closeComment body = some (body, [])) :
      Spelling .gap ('/' :: '*' :: body) r
  | symbol {k : TokenKind} {r : Text} (hk : k.isSymbol = true)
      (hr : k = .colon → ∀ c ∈ r.head?, c ≠ '=') : Spelling (.token k k.symbol) k.symbol r
  | string {inner r : Text} (hinner : closeString (inner ++ ['"']) = some (inner, [])) :
      Spelling (.token .string ('"' :: inner ++ ['"'])) ('"' :: inner ++ ['"']) r
  | hexNumber {digits r : Text} (hne : digits ≠ []) (hdigits : ∀ c ∈ digits, isHexDigit c = true)
      (hr : ∀ c ∈ r.head?, isIdentifierPart c = false) :
      Spelling (.token .number ('0' :: 'x' :: digits)) ('0' :: 'x' :: digits) r
  | number {digits r : Text} (hne : digits ≠ []) (hdigits : ∀ c ∈ digits, isDigit c = true)
      (hr : ∀ c ∈ r.head?, isIdentifierPart c = false) : Spelling (.token .number digits) digits r
  | word {c : Char} {tail r : Text} (hc : isIdentifierStart c = true) (hdigit : isDigit c = false)
      (htail : ∀ d ∈ tail, isIdentifierPart d = true)
      (hr : ∀ d ∈ r.head?, isIdentifierPart d = false)
      (hquote : (TokenKind.ofFrame? (c :: tail)).isSome → ∀ d ∈ r.head?, d ≠ '"') :
      Spelling (.token (TokenKind.ofWord (c :: tail)) (c :: tail)) (c :: tail) r
  | hash {k : TokenKind} {frame inner r : Text} (hframe : TokenKind.ofFrame? frame = some k)
      (hinner : closeString (inner ++ ['"']) = some (inner, [])) :
      Spelling (.token k inner) (frame ++ '"' :: inner ++ ['"']) r

/-! ### Character classes -/

/-- The characters at which a lexeme begins that is neither a number nor a word. -/
def leadingMarks : List Char :=
  [' ', '\t', '\r', '\n', '/', '\x7b', '\x7d', '(', ')', ',', ':', '-', '"']

theorem not_isIdentifierPart_of_mem {c : Char} (h : c ∈ leadingMarks) :
    isIdentifierPart c = false := by
  revert c
  decide

theorem not_mem_leadingMarks {c : Char} (h : isIdentifierPart c = true) : c ∉ leadingMarks := by
  intro hmem
  simp [not_isIdentifierPart_of_mem hmem] at h

theorem isIdentifierPart_of_isIdentifierStart {c : Char} (h : isIdentifierStart c = true) :
    isIdentifierPart c = true := by
  simp only [isIdentifierStart, Bool.or_eq_true, decide_eq_true_eq] at h
  rcases h with (h | h) | h <;> simp [isIdentifierPart, h]

theorem isIdentifierPart_of_isDigit {c : Char} (h : isDigit c = true) :
    isIdentifierPart c = true := by
  simp [isIdentifierPart, isNumeral, h]

theorem letterRanges_eq :
    letterRanges = (0x41, 0x5a) :: (0x61, 0x7a) :: letterRanges.drop 2 :=
  rfl

theorem decimalRanges_eq : decimalRanges = (0x30, 0x39) :: decimalRanges.drop 1 :=
  rfl

theorem isIdentifierPart_of_isHexDigit {c : Char} (h : isHexDigit c = true) :
    isIdentifierPart c = true := by
  simp only [isHexDigit, Bool.or_eq_true, Bool.and_eq_true, decide_eq_true_eq,
    Char.le_def, UInt32.le_iff_toNat_le] at h
  have hc : (0x30 ≤ c.toNat ∧ c.toNat ≤ 0x39) ∨ (0x61 ≤ c.toNat ∧ c.toNat ≤ 0x66) ∨
      (0x41 ≤ c.toNat ∧ c.toNat ≤ 0x46) := by
    rcases h with (h | h) | h
    · exact .inl h
    · exact .inr (.inl h)
    · exact .inr (.inr h)
  -- each of the three is a range at the front of its table
  rcases hc with hc | hc | hc
  · have hdigit : isDigit c = true := by
      rw [isDigit, decimalRanges_eq, inRanges, if_neg (by omega), if_pos hc.2]
      rfl
    exact isIdentifierPart_of_isDigit hdigit
  · have hletter : isLetter c = true := by
      rw [isLetter, letterRanges_eq, inRanges, if_neg (by omega), if_neg (by omega), inRanges,
        if_neg (by omega), if_pos (by omega)]
    simp [isIdentifierPart, hletter]
  · have hletter : isLetter c = true := by
      rw [isLetter, letterRanges_eq, inRanges, if_neg (by omega), if_pos (by omega)]
    simp [isIdentifierPart, hletter]

/-! ### Strings and comments behind other text -/

/-- A character that is no quote, no line feed and no backslash is kept by a string. -/
theorem closeString_cons {c : Char} (h₁ : c ≠ '"') (h₂ : c ≠ '\n') (h₃ : c ≠ '\\') (s : Text) :
    closeString (c :: s) = (closeString s).map fun (inner, after) ↦ (c :: inner, after) := by
  rw [closeString.eq_def]
  split <;> simp_all

/-- Unless it begins the closing `*/`, a character is kept by a comment. -/
theorem closeComment_cons {c : Char} {s : Text} (h : ¬ (c = '*' ∧ s.head? = some '/')) :
    closeComment (c :: s) = (closeComment s).map fun (inner, after) ↦ (c :: inner, after) := by
  rw [closeComment.eq_def]
  split <;> simp_all

theorem closeString_append {s inner after : Text} (h : closeString s = some (inner, after))
    (t : Text) :
    closeString (s ++ t) = some (inner, after ++ t) ∧
      closeString (inner ++ ['"']) = some (inner, []) := by
  fun_induction closeString s generalizing inner after with
  | case1 => simp at h
  | case2 rest =>
    simp at h
    obtain ⟨rfl, rfl⟩ := h
    simp [closeString]
  | case3 => simp at h
  | case4 c rest ih =>
    obtain ⟨⟨i, a⟩, hia, heq⟩ := Option.map_eq_some_iff.1 h
    simp at heq
    obtain ⟨rfl, rfl⟩ := heq
    simp [closeString, ih hia]
  | case5 => simp at h
  | case6 c rest hquote hfeed hpair hlast ih =>
    obtain ⟨⟨i, a⟩, hia, heq⟩ := Option.map_eq_some_iff.1 h
    simp at heq
    obtain ⟨rfl, rfl⟩ := heq
    have hslash : c ≠ '\\' := by
      intro hc
      cases rest with
      | nil => exact hlast hc rfl
      | cons d rest => exact hpair d rest hc rfl
    simp [closeString_cons hquote hfeed hslash, ih hia]

theorem closeComment_append {s inner after : Text} (h : closeComment s = some (inner, after))
    (t : Text) :
    closeComment (s ++ t) = some (inner, after ++ t) ∧ closeComment inner = some (inner, []) := by
  fun_induction closeComment s generalizing inner after with
  | case1 => simp at h
  | case2 rest =>
    simp at h
    obtain ⟨rfl, rfl⟩ := h
    simp [closeComment]
  | case3 c rest hne ih =>
    obtain ⟨⟨i, a⟩, hia, heq⟩ := Option.map_eq_some_iff.1 h
    simp at heq
    obtain ⟨rfl, rfl⟩ := heq
    obtain ⟨hlong, hinner⟩ := ih hia
    -- neither the rest nor the inside can be empty, so appending leaves both heads alone
    obtain ⟨d, rest, rfl⟩ : ∃ d r, rest = d :: r :=
      List.exists_cons_of_ne_nil fun hrest ↦ by simp [hrest, closeComment] at hia
    obtain ⟨e, i, rfl⟩ : ∃ e j, i = e :: j :=
      List.exists_cons_of_ne_nil fun hi ↦ by simp [hi, closeComment] at hinner
    have hed : e = d := (List.cons.inj (append_of_closeComment hia)).1
    have hhead : ¬ (c = '*' ∧ d = '/') := fun ⟨hc, hd⟩ ↦ hne rest hc (by rw [hd])
    refine ⟨?_, ?_⟩
    · have hcons := closeComment_cons (c := c) (s := d :: rest ++ t) (by simpa using hhead)
      rw [List.cons_append, hcons, hlong]
      rfl
    · rw [closeComment_cons (by simpa [hed] using hhead), hinner]
      rfl

/-! ### Other texts behind a lexeme -/

/-- Every token may end in front of `r`: its first character, if any, neither continues a word or a
number nor makes a symbol or a word mean something else. -/
def Soft (r : Text) : Prop :=
  ∀ c ∈ r.head?, isIdentifierPart c = false ∧ c ≠ '"' ∧ c ≠ '='

theorem soft_nil : Soft [] := by
  simp [Soft]

theorem soft_cons_iff {c : Char} {r : Text} :
    Soft (c :: r) ↔ isIdentifierPart c = false ∧ c ≠ '"' ∧ c ≠ '=' := by
  simp [Soft]

theorem Soft.append {u : Text} (h : Soft u) (hne : u ≠ []) (r : Text) : Soft (u ++ r) := by
  obtain ⟨c, u, rfl⟩ := List.exists_cons_of_ne_nil hne
  exact soft_cons_iff.2 (soft_cons_iff.1 h)

namespace TokenKind

theorem symbol_ne_nil {k : TokenKind} (h : k.isSymbol = true) : k.symbol ≠ [] := by
  revert h
  cases k <;> decide

theorem soft_symbol {k : TokenKind} (h : k.isSymbol = true) : Soft k.symbol := by
  cases k with
  | openBrace | closeBrace | openParen | closeParen | comma | colon | assign | arrow =>
    exact soft_cons_iff.2 (by decide)
  | _ => cases h

theorem isPlain_of_isSymbol {k : TokenKind} (h : k.isSymbol = true) : k.isPlain = true := by
  revert h
  cases k <;> decide

theorem isWordLike_ofWord (w : Text) : (ofWord w).isWordLike = true := by
  rw [ofWord]
  repeat' split
  all_goals rfl

theorem frame?_eq_none_of_ne {k : TokenKind} (h : k.isHash = false) : k.frame? = none := by
  cases k with
  | selector | topic => cases h
  | _ => rfl

theorem isHash_ofWord (w : Text) : (ofWord w).isHash = false := by
  rw [ofWord]
  repeat' split
  all_goals rfl

theorem isWordLike_of_isHash {k : TokenKind} (h : k.isHash = true) : k.isWordLike = true := by
  revert h
  cases k <;> decide

theorem isWordLike_of_isDeclaration {k : TokenKind} (h : k.isDeclaration = true) :
    k.isWordLike = true := by
  revert h
  cases k <;> decide

/-- Two words frame hash literals. -/
theorem eq_of_ofFrame? {k : TokenKind} {w : Text} (h : ofFrame? w = some k) :
    w = "sig".toList ∧ k = selector ∨ w = "topic".toList ∧ k = topic := by
  rw [ofFrame?] at h
  split at h
  · rename_i hw
    exact .inl ⟨hw, (Option.some.inj h).symm⟩
  · split at h
    · rename_i hw
      exact .inr ⟨hw, (Option.some.inj h).symm⟩
    · cases h

theorem frame?_of_ofFrame? {k : TokenKind} {w : Text} (h : ofFrame? w = some k) :
    k.frame? = some w ∧ k.isHash = true := by
  rcases eq_of_ofFrame? h with ⟨rfl, rfl⟩ | ⟨rfl, rfl⟩
  · exact ⟨rfl, rfl⟩
  · exact ⟨rfl, rfl⟩

end TokenKind

namespace Spelling

variable {k : TokenKind} {v u r s : Text} {l : Lexeme}

theorem text_ne_nil (h : Spelling l u r) : u ≠ [] := by
  cases h with
  | symbol hk => exact TokenKind.symbol_ne_nil hk
  | _ => simp_all

/-- Only the first character behind a lexeme matters. -/
theorem of_head? (h : Spelling l u r) (hs : s.head? = r.head?) : Spelling l u s := by
  cases h with
  | layout hc => exact layout hc
  | lineComment hbody hr => exact lineComment hbody (hs ▸ hr)
  | blockComment hbody => exact blockComment hbody
  | symbol hk hr => exact symbol hk (hs ▸ hr)
  | string hinner => exact string hinner
  | hexNumber hne hdigits hr => exact hexNumber hne hdigits (hs ▸ hr)
  | number hne hdigits hr => exact number hne hdigits (hs ▸ hr)
  | word hc hdigit htail hr hquote => exact word hc hdigit htail (hs ▸ hr) (hs ▸ hquote)
  | hash hframe hinner => exact hash hframe hinner

/-- Every token may stand in front of a soft text. -/
theorem of_soft (h : Spelling (.token k v) u r) (hs : Soft s) : Spelling (.token k v) u s := by
  cases h with
  | symbol hk => exact symbol hk fun _ c hc ↦ (hs c hc).2.2
  | string hinner => exact string hinner
  | hexNumber hne hdigits => exact hexNumber hne hdigits fun c hc ↦ (hs c hc).1
  | number hne hdigits => exact number hne hdigits fun c hc ↦ (hs c hc).1
  | word hc hdigit htail =>
    exact word hc hdigit htail (fun c hc ↦ (hs c hc).1) fun _ c hc ↦ (hs c hc).2.1
  | hash hframe hinner => exact hash hframe hinner

/-- A lexeme that ends a text may also stand in front of a line feed. -/
theorem of_lineFeed (h : Spelling l u []) : Spelling l u ('\n' :: s) := by
  cases l with
  | token => exact h.of_soft (soft_cons_iff.2 (by decide))
  | gap =>
    cases h with
    | layout hc => exact layout hc
    | lineComment hbody => exact lineComment hbody fun c hc ↦ by cases hc; rfl
    | blockComment hbody => exact blockComment hbody

/-- A lexeme is not changed by a line feed behind the text, and by what stands behind that. -/
theorem append_lineFeed (h : Spelling l u r) : Spelling l u (r ++ '\n' :: s) := by
  cases r with
  | nil => exact h.of_lineFeed
  | cons => exact h.of_head? rfl

/-- A symbol may stand in front of everything that does not make a colon an assignment. -/
theorem of_not_wordLike (h : Spelling (.token k v) u r) (hk : k.isWordLike = false)
    (hs : ∀ c ∈ s.head?, c ≠ '=') : Spelling (.token k v) u s := by
  cases h with
  | symbol hk' => exact symbol hk' fun _ ↦ hs
  | string | hexNumber | number => cases hk
  | word => rw [TokenKind.isWordLike_ofWord] at hk; cases hk
  | hash hframe hinner => exact hash hframe hinner

/-- A symbol has one spelling. -/
theorem eq_symbol (h : Spelling (.token k v) u r) (hk : k.isSymbol = true) : u = k.symbol := by
  cases h with
  | symbol => rfl
  | string | hexNumber | number => cases hk
  | @word c tail =>
    have hword := TokenKind.isWordLike_ofWord (c :: tail)
    rw [TokenKind.isWordLike, hk] at hword
    cases hword
  | hash hframe =>
    have hword := TokenKind.isWordLike_of_isHash (TokenKind.frame?_of_ofFrame? hframe).2
    rw [TokenKind.isWordLike, hk] at hword
    cases hword

/-- The words in front of a hash literal, by their first character. -/
theorem head?_of_ofFrame? {w : Text} (h : TokenKind.ofFrame? w = some k) :
    w.head? = some 's' ∨ w.head? = some 't' := by
  rcases TokenKind.eq_of_ofFrame? h with ⟨rfl, -⟩ | ⟨rfl, -⟩
  · exact .inl rfl
  · exact .inr rfl

/-- No lexeme begins with an equals sign. -/
theorem head?_ne_equals (h : Spelling l u r) : ∀ c ∈ u.head?, c ≠ '=' := by
  rintro c hc rfl
  cases h with
  | layout hlayout =>
    cases hc
    exact absurd hlayout (by decide)
  | lineComment | blockComment | string | hexNumber => cases hc
  | symbol hk => exact (TokenKind.soft_symbol hk _ hc).2.2 rfl
  | number hne hdigits => exact absurd (hdigits '=' (List.mem_of_mem_head? hc)) (by decide)
  | word hstart =>
    cases hc
    exact absurd hstart (by decide)
  | hash hframe => rcases head?_of_ofFrame? hframe with hw | hw <;> simp [hw] at hc

/-- No token begins with a line feed. -/
theorem head?_ne_lineFeed (h : Spelling (.token k v) u r) : ∀ c ∈ u.head?, c ≠ '\n' := by
  rintro c hc rfl
  cases h with
  | symbol hk => revert hk hc; cases k <;> decide
  | string | hexNumber => cases hc
  | number hne hdigits => exact absurd (hdigits '\n' (List.mem_of_mem_head? hc)) (by decide)
  | word hstart =>
    cases hc
    exact absurd hstart (by decide)
  | hash hframe => rcases head?_of_ofFrame? hframe with hw | hw <;> simp [hw] at hc

/-- A symbol is soft. -/
theorem soft (h : Spelling (.token k v) u r) (hk : k.isWordLike = false) : Soft u := by
  cases h with
  | symbol hsymbol => exact TokenKind.soft_symbol hsymbol
  | string | hexNumber | number => cases hk
  | word =>
    rw [TokenKind.isWordLike_ofWord] at hk
    cases hk
  | hash hframe =>
    rw [TokenKind.isWordLike_of_isHash (TokenKind.frame?_of_ofFrame? hframe).2] at hk
    cases hk

/-- What begins a gap is soft. -/
theorem soft_of_gap (h : Spelling .gap u r) : Soft u := by
  generalize hl : Lexeme.gap = l at h
  cases h with
  | @layout c _ hc =>
    simp only [isLayout, Bool.or_eq_true, decide_eq_true_eq] at hc
    rcases hc with ((rfl | rfl) | rfl) | rfl <;> exact soft_cons_iff.2 (by decide)
  | lineComment | blockComment => exact soft_cons_iff.2 (by decide)
  | _ => cases hl

/-- A token that is spelled `u` has the text `u`. -/
theorem text_eq (h : Spelling (.token k v) u r) {t : Token} (hk : t.kind = k) (hv : t.value = v) :
    t.text = u := by
  rw [Token.text, hk, hv]
  cases h with
  | symbol hsym => rw [TokenKind.frame?_eq_none_of_ne (by revert hsym; cases k <;> decide)]
  | string | hexNumber | number => rfl
  | word => rw [TokenKind.frame?_eq_none_of_ne (TokenKind.isHash_ofWord _)]
  | hash hframe hinner => rw [(TokenKind.frame?_of_ofFrame? hframe).1]

/-- Nothing in a source is spelled as the end of it. -/
theorem kind_ne_endOfText (h : Spelling (.token k v) u r) :
    k ≠ .endOfText := by
  rintro rfl
  generalize hl : Lexeme.token .endOfText v = l at h
  cases h with
  | symbol hk =>
    obtain ⟨rfl, -⟩ := Lexeme.token.inj hl
    cases hk
  | @word c tail =>
    have hword := TokenKind.isWordLike_ofWord (c :: tail)
    rw [← (Lexeme.token.inj hl).1] at hword
    cases hword
  | hash hframe =>
    obtain ⟨rfl, -⟩ := Lexeme.token.inj hl
    cases (TokenKind.frame?_of_ofFrame? hframe).2
  | _ => cases hl

end Spelling

end YulPlus
