import YulPlus.Proofs.Source.Spelling

/-!
# A cut is a spelling

`Cut.next` looks at the head of a text and decides by a fixed order of rules; `Spelling` has a
constructor for each lexeme and no order. The two agree (`next_eq_ok_iff`).

Reading a spelling off a cut follows the rules one after the other (`spelling_of_next`). The other
way round, the text is known and the rule that reads it has to be found: a symbol, a quote, a slash
and the `0x` of a hexadecimal number lead to their own rule, and every other beginning of a number
or a word is passed on to the last one (`next_of_plain`). There is one lemma for each lexeme, which
says that it `CutsOff`.
-/

namespace YulPlus

open Text

/-! ### What is cut off is spelled -/

theorem checkNumberEnd_eq_ok {s : Text} {cut cut' : Cut s} (h : Cut.checkNumberEnd cut = .ok cut') :
    cut' = cut ∧ ∀ c ∈ cut.rest.head?, isIdentifierPart c = false := by
  rw [Cut.checkNumberEnd] at h
  split at h
  · rename_i hr
    cases h
    simp [hr]
  · rename_i c tail hr
    split at h
    · cases h
    · rename_i hc
      cases h
      simpa [hr] using hc

theorem spelling_of_comment {tail : Text} {cut : Cut ('/' :: '*' :: tail)}
    (h : Cut.comment tail = .ok cut) : Spelling cut.lexeme cut.text cut.rest := by
  rw [Cut.comment] at h
  split at h
  · cases h
  · rename_i inner after hclose
    cases h
    exact .blockComment (closeComment_append hclose []).2

theorem spelling_of_string {tail : Text} {cut : Cut ('"' :: tail)}
    (h : Cut.string tail = .ok cut) : Spelling cut.lexeme cut.text cut.rest := by
  rw [Cut.string] at h
  split at h
  · cases h
  · rename_i inner after hclose
    cases h
    exact .string (closeString_append hclose []).2

theorem spelling_of_hexNumber {tail : Text} {cut : Cut ('0' :: 'x' :: tail)}
    (h : Cut.hexNumber tail = .ok cut) : Spelling cut.lexeme cut.text cut.rest := by
  rcases tail with - | ⟨d, more⟩
  · cases h
  rw [Cut.hexNumber] at h
  split at h
  · rename_i hd
    obtain ⟨rfl, hr⟩ := checkNumberEnd_eq_ok h
    refine Spelling.hexNumber ?_ (fun e he ↦ List.mem_takeWhile_imp he) hr
    simp [hd]
  · cases h

theorem spelling_of_word {c : Char} {tail : Text} {cut : Cut (c :: tail)}
    (hc : isIdentifierStart c = true) (hdigit : isDigit c = false)
    (h : Cut.word c tail = .ok cut) : Spelling cut.lexeme cut.text cut.rest := by
  unfold Cut.word at h
  dsimp only at h
  split at h
  · rename_i kind quoted hframe hquote
    split at h
    · cases h
    · rename_i inner after hclose
      cases h
      exact .hash hframe (closeString_append hclose []).2
  · rename_i hno
    cases h
    refine Spelling.word hc hdigit (fun d hd ↦ List.mem_takeWhile_imp hd)
      (fun d hd ↦ mem_head?_dropWhile d hd) ?_
    -- a framing word with a quote behind it is a hash literal
    rintro hsome d hd rfl
    obtain ⟨k, hk⟩ := Option.isSome_iff_exists.1 hsome
    obtain ⟨r, hr⟩ := List.head?_eq_some_iff.1 hd
    exact hno k r hk hr

theorem spelling_of_next {c : Char} {tail : Text} {cut : Cut (c :: tail)}
    (h : Cut.next c tail = .ok cut) : Spelling cut.lexeme cut.text cut.rest := by
  unfold Cut.next at h
  split at h
  · rename_i hc
    cases h
    exact .layout hc
  split at h
  · cases h
    refine Spelling.lineComment (fun hmem ↦ ?_) fun d hd ↦ ?_
    · simpa using List.mem_takeWhile_imp hmem
    · simpa using mem_head?_dropWhile d hd
  · exact spelling_of_comment h
  · cases h; exact Spelling.symbol (k := .openBrace) rfl (by simp)
  · cases h; exact Spelling.symbol (k := .closeBrace) rfl (by simp)
  · cases h; exact Spelling.symbol (k := .openParen) rfl (by simp)
  · cases h; exact Spelling.symbol (k := .closeParen) rfl (by simp)
  · cases h; exact Spelling.symbol (k := .comma) rfl (by simp)
  · cases h; exact Spelling.symbol (k := .assign) rfl (by simp)
  · rename_i rest hne
    cases h
    -- the rule for `:=` has been passed
    refine Spelling.symbol (k := .colon) rfl ?_
    rintro - d hd rfl
    obtain ⟨r, hr⟩ := List.head?_eq_some_iff.1 hd
    exact hne _ hr
  · cases h; exact Spelling.symbol (k := .arrow) rfl (by simp)
  · exact spelling_of_string h
  · exact spelling_of_hexNumber h
  · split at h
    · rename_i hdigit
      obtain ⟨rfl, hr⟩ := checkNumberEnd_eq_ok h
      refine Spelling.number (by simp) (fun e he ↦ ?_) hr
      rcases List.mem_cons.1 he with rfl | he
      · exact hdigit
      · exact List.mem_takeWhile_imp he
    · rename_i hdigit
      split at h
      · rename_i hstart
        exact spelling_of_word hstart (Bool.not_eq_true _ ▸ hdigit) h
      · cases h

/-! ### What is spelled is cut off -/

/-- Only the characters that some rule of the lexer names are read by another rule. -/
theorem next_of_plain {c : Char} {tail : Text}
    (hc : c ∉ leadingMarks) (hx : ¬ (c = '0' ∧ tail.head? = some 'x')) :
    Cut.next c tail =
      if isDigit c then
        Cut.checkNumberEnd (Cut.run [c] isDigit tail (by simp) (.token .number))
      else if isIdentifierStart c then Cut.word c tail
      else .error (.unexpectedCharacter c) := by
  unfold Cut.next
  rw [if_neg (by simp_all [isLayout, leadingMarks])]
  split <;> simp_all [leadingMarks]

/-- What begins like a name is read as a word. -/
theorem next_eq_word {c : Char} (hc : isIdentifierStart c = true) (hdigit : isDigit c = false)
    (tail : Text) : Cut.next c tail = Cut.word c tail := by
  have hmarks := not_mem_leadingMarks (isIdentifierPart_of_isIdentifierStart hc)
  have hx : ¬ (c = '0' ∧ tail.head? = some 'x') := by
    rintro ⟨rfl, -⟩
    exact absurd hdigit (by decide)
  rw [next_of_plain hmarks hx, if_neg (by simp [hdigit]), if_pos hc]

theorem checkNumberEnd_of_rest {s : Text} {cut : Cut s}
    (h : ∀ c ∈ cut.rest.head?, isIdentifierPart c = false) :
    Cut.checkNumberEnd cut = .ok cut := by
  rw [Cut.checkNumberEnd]
  split
  · rfl
  · rename_i c tail hr
    rw [if_neg (by simp [h c (by simp [hr])])]

/-- A run takes all characters in `p`, up to the first that is not. -/
theorem run_append {front u r : Text} {p : Char → Bool} (lexeme : Text → Lexeme)
    (hne : front ≠ []) (hu : ∀ c ∈ u, p c = true) (hr : ∀ c ∈ r.head?, p c = false) :
    (Cut.run front p (u ++ r) hne lexeme).lexeme = lexeme (front ++ u) ∧
      (Cut.run front p (u ++ r) hne lexeme).text = front ++ u ∧
      (Cut.run front p (u ++ r) hne lexeme).rest = r := by
  obtain ⟨htake, hdrop⟩ := takeWhile_append_head? hu hr
  simp [Cut.run, htake, hdrop]

/-- The lexer cuts `u` off in front of `r`, as the lexeme `l`. -/
def CutsOff (l : Lexeme) (u r : Text) : Prop :=
  ∀ ⦃c : Char⦄ ⦃tail : Text⦄, u ++ r = c :: tail →
    ∃ cut : Cut (c :: tail), Cut.next c tail = .ok cut ∧ cut.lexeme = l ∧ cut.text = u ∧
      cut.rest = r

section CutsOff

variable {r : Text}

theorem cutsOff_lineComment {body : Text} (hbody : '\n' ∉ body) (hr : ∀ c ∈ r.head?, c = '\n') :
    CutsOff .gap ('/' :: '/' :: body) r := by
  rintro c tail ⟨⟩
  have hline : ∀ c ∈ body, (c != '\n') = true := by
    intro c hc
    simpa using fun hn : c = '\n' ↦ hbody (hn ▸ hc)
  exact ⟨_, rfl, run_append _ (by simp) hline (by simpa using hr)⟩

theorem cutsOff_blockComment {body : Text} (hbody : closeComment body = some (body, [])) :
    CutsOff .gap ('/' :: '*' :: body) r := by
  rintro c tail ⟨⟩
  have hclose : closeComment (body ++ r) = some (body, r) := (closeComment_append hbody r).1
  refine ⟨⟨.gap, '/' :: '*' :: body, r, by simp, by simp⟩, ?_, rfl, rfl, rfl⟩
  show Cut.comment (body ++ r) = _
  rw [Cut.comment]
  split
  · rename_i hnone
    rw [hclose] at hnone
    cases hnone
  · rename_i inner after hsome
    rw [hclose] at hsome
    cases hsome
    rfl

theorem cutsOff_symbol {k : TokenKind} (hk : k.isSymbol = true)
    (hr : k = .colon → ∀ c ∈ r.head?, c ≠ '=') : CutsOff (.token k k.symbol) k.symbol r := by
  rintro c tail heq
  cases k with
  | openBrace | closeBrace | openParen | closeParen | comma | assign | arrow =>
    cases heq
    exact ⟨_, rfl, rfl, rfl, rfl⟩
  | colon =>
    cases heq
    rcases r with - | ⟨d, r⟩
    · exact ⟨_, rfl, rfl, rfl, rfl⟩
    · have hd : d ≠ '=' := hr rfl d rfl
      have hcolon : Cut.next ':' (d :: r) = .ok (Cut.symbol [':'] (d :: r) (by simp) .colon) := by
        simp [Cut.next, isLayout, hd]
      exact ⟨_, hcolon, rfl, rfl, rfl⟩
  | _ => cases hk

theorem closeString_of_closed {inner : Text}
    (hinner : closeString (inner ++ ['"']) = some (inner, [])) (r : Text) :
    closeString (inner ++ '"' :: r) = some (inner, r) := by
  simpa using (closeString_append hinner r).1

theorem cutsOff_string {inner : Text}
    (hinner : closeString (inner ++ ['"']) = some (inner, [])) :
    CutsOff (.token .string ('"' :: inner ++ ['"'])) ('"' :: inner ++ ['"']) r := by
  rintro c tail heq
  obtain ⟨rfl, rfl⟩ : '"' = c ∧ inner ++ '"' :: r = tail := by simpa using heq
  have hclose := closeString_of_closed hinner r
  refine ⟨⟨.token .string ('"' :: inner ++ ['"']), '"' :: inner ++ ['"'], r, by simp, by simp⟩,
    ?_, rfl, rfl, rfl⟩
  show Cut.string (inner ++ '"' :: r) = _
  rw [Cut.string]
  split
  · rename_i hnone
    rw [hclose] at hnone
    cases hnone
  · rename_i inner' after hsome
    rw [hclose] at hsome
    cases hsome
    rfl

theorem cutsOff_hexNumber {digits : Text} (hne : digits ≠ [])
    (hdigits : ∀ c ∈ digits, isHexDigit c = true)
    (hr : ∀ c ∈ r.head?, isIdentifierPart c = false) :
    CutsOff (.token .number ('0' :: 'x' :: digits)) ('0' :: 'x' :: digits) r := by
  rintro c tail ⟨⟩
  obtain ⟨d, ds, rfl⟩ := List.exists_cons_of_ne_nil hne
  have hends : ∀ c ∈ r.head?, isHexDigit c = false := fun c hc ↦
    Bool.eq_false_iff.2 fun hdigit ↦ by
      simpa [isIdentifierPart_of_isHexDigit hdigit] using hr c hc
  have hrun := run_append (.token .number) (List.cons_ne_nil '0' ['x']) hdigits hends
  refine ⟨_, ?_, hrun⟩
  show Cut.hexNumber (d :: (ds ++ r)) = _
  rw [Cut.hexNumber, if_pos (hdigits d (by simp))]
  exact checkNumberEnd_of_rest (hrun.2.2.symm ▸ hr)

theorem cutsOff_number {digits : Text} (hne : digits ≠ [])
    (hdigits : ∀ c ∈ digits, isDigit c = true)
    (hr : ∀ c ∈ r.head?, isIdentifierPart c = false) :
    CutsOff (.token .number digits) digits r := by
  obtain ⟨d, ds, rfl⟩ := List.exists_cons_of_ne_nil hne
  rintro c tail heq
  obtain ⟨rfl, rfl⟩ : d = c ∧ ds ++ r = tail := List.cons.inj heq
  have hd : isDigit d = true := hdigits d (by simp)
  have hds : ∀ e ∈ ds, isDigit e = true := fun e he ↦ hdigits e (by simp [he])
  have hends : ∀ c ∈ r.head?, isDigit c = false := fun c hc ↦
    Bool.eq_false_iff.2 fun hdigit ↦ by
      simpa [isIdentifierPart_of_isDigit hdigit] using hr c hc
  -- an `x` behind the first zero would be a digit or would end the number
  have hx : ¬ (d = '0' ∧ (ds ++ r).head? = some 'x') := by
    rintro ⟨-, hx⟩
    rcases ds with - | ⟨e, ds⟩
    · exact absurd (hr 'x' hx) (by decide)
    · obtain rfl : e = 'x' := by simpa using hx
      exact absurd (hdigits 'x' (by simp)) (by decide)
  have hrun := run_append (.token .number) (List.cons_ne_nil d []) hds hends
  refine ⟨_, ?_, hrun⟩
  rw [next_of_plain (not_mem_leadingMarks (isIdentifierPart_of_isDigit hd)) hx, if_pos hd]
  exact checkNumberEnd_of_rest (hrun.2.2.symm ▸ hr)

theorem cutsOff_word {d : Char} {ds : Text} (hd : isIdentifierStart d = true)
    (hdigit : isDigit d = false) (hds : ∀ e ∈ ds, isIdentifierPart e = true)
    (hr : ∀ c ∈ r.head?, isIdentifierPart c = false)
    (hquote : (TokenKind.ofFrame? (d :: ds)).isSome → ∀ c ∈ r.head?, c ≠ '"') :
    CutsOff (.token (TokenKind.ofWord (d :: ds)) (d :: ds)) (d :: ds) r := by
  rintro c tail heq
  obtain ⟨rfl, rfl⟩ : d = c ∧ ds ++ r = tail := List.cons.inj heq
  obtain ⟨htake, hdrop⟩ := takeWhile_append_head? hds hr
  have hrun := run_append (fun name ↦ .token (TokenKind.ofWord name) name)
    (List.cons_ne_nil d []) hds hr
  refine ⟨_, ?_, hrun⟩
  rw [next_eq_word hd hdigit, Cut.word]
  split
  · rename_i kind quoted hframe hrest
    rw [htake] at hframe
    rw [hdrop] at hrest
    exact absurd rfl (hquote (by simp [hframe]) '"' (by simp [hrest]))
  · rfl

theorem cutsOff_hash {k : TokenKind} {frame inner : Text}
    (hframe : TokenKind.ofFrame? frame = some k)
    (hinner : closeString (inner ++ ['"']) = some (inner, [])) :
    CutsOff (.token k inner) (frame ++ '"' :: inner ++ ['"']) r := by
  obtain ⟨f, fs, rfl, hf, hdigit, hfs⟩ : ∃ f fs, frame = f :: fs ∧ isIdentifierStart f = true ∧
      isDigit f = false ∧ ∀ d ∈ fs, isIdentifierPart d = true := by
    rcases TokenKind.eq_of_ofFrame? hframe with ⟨rfl, -⟩ | ⟨rfl, -⟩
    · exact ⟨'s', ['i', 'g'], rfl, by decide, by decide, by decide⟩
    · exact ⟨'t', ['o', 'p', 'i', 'c'], rfl, by decide, by decide, by decide⟩
  rintro c tail heq
  obtain ⟨rfl, rfl⟩ : f = c ∧ fs ++ '"' :: (inner ++ '"' :: r) = tail := by simpa using heq
  obtain ⟨htake, hdrop⟩ := takeWhile_append_head? (r := '"' :: (inner ++ '"' :: r)) hfs
    (by simp [not_isIdentifierPart_of_mem (c := '"') (by decide)])
  have hclose := closeString_of_closed hinner r
  refine ⟨⟨.token k inner, f :: fs ++ '"' :: inner ++ ['"'], r, by simp, by simp⟩, ?_, rfl, rfl,
    rfl⟩
  rw [next_eq_word hf hdigit, Cut.word]
  split
  · rename_i kind quoted hkind hquoted
    rw [htake] at hkind
    rw [hdrop] at hquoted
    cases hquoted
    obtain rfl : kind = k := Option.some.inj (hkind.symm.trans hframe)
    split
    · rename_i hnone
      rw [hclose] at hnone
      cases hnone
    · rename_i inner' after hsome
      obtain ⟨rfl, rfl⟩ : inner = inner' ∧ r = after := by simpa [hclose] using hsome
      simp [htake]
  · rename_i hno
    exact absurd hdrop (hno k _ (by rw [htake, hframe]))

end CutsOff

theorem cutsOff_of_spelling {l : Lexeme} {u r : Text} (h : Spelling l u r) : CutsOff l u r := by
  cases h with
  | layout hc =>
    rintro c tail ⟨⟩
    exact ⟨_, if_pos hc, rfl, rfl, rfl⟩
  | lineComment hbody hr => exact cutsOff_lineComment hbody hr
  | blockComment hbody => exact cutsOff_blockComment hbody
  | symbol hk hr => exact cutsOff_symbol hk hr
  | string hinner => exact cutsOff_string hinner
  | hexNumber hne hdigits hr => exact cutsOff_hexNumber hne hdigits hr
  | number hne hdigits hr => exact cutsOff_number hne hdigits hr
  | word hc hdigit htail hr hquote => exact cutsOff_word hc hdigit htail hr hquote
  | hash hframe hinner => exact cutsOff_hash hframe hinner

/-- A cut is known by what it takes and what it leaves. -/
theorem Cut.ext' {s : Text} {a b : Cut s} (hl : a.lexeme = b.lexeme) (ht : a.text = b.text)
    (hr : a.rest = b.rest) : a = b := by
  cases a; cases b; simp_all

/-- **A cut is a spelling.** The lexer cuts off `cut.text` exactly if it is spelled as `cut.lexeme`
in front of `cut.rest`. -/
theorem next_eq_ok_iff {c : Char} {tail : Text} {cut : Cut (c :: tail)} :
    Cut.next c tail = .ok cut ↔ Spelling cut.lexeme cut.text cut.rest := by
  constructor
  · exact spelling_of_next
  · intro h
    obtain ⟨cut', hnext, hl, ht, hr⟩ := cutsOff_of_spelling h cut.text_append_rest
    rw [hnext, Cut.ext' hl ht hr]

end YulPlus
