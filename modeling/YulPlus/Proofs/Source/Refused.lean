import YulPlus.Proofs.Source.Coverage

/-!
# Where a source cannot be read

A source that cannot be cut into tokens is refused at the beginning of a lexeme: what stands in
front of that place can be read, and at the place itself nothing is spelled
(`exists_of_tokenizeFrom_eq_error`). The line and the column that are reported belong to this one
place (`Position.IsAt.offset_unique`), and the rest of the source, read by itself, is refused at its
beginning for the same reason (`tokenize_refuses`).

The lexer may have run far beyond the place before it noticed, but what it reports does not depend
on that: an error keeps the position that its lexeme begins at.
-/

namespace YulPlus

open Text

section

variable {source s r u v : Text} {p q : Position} {l : Lexeme} {ws : List (TokenKind × Text)}
  {e : LexicalError} {c : Char} {tail : Text} {fault : LexicalFault}

/-! ### In front of the place -/

/-- A lexeme may end the text. -/
theorem Spelling.of_end_of_text (h : Spelling l u r) : Spelling l u [] := by
  cases h with
  | layout hc => exact .layout hc
  | lineComment hbody => exact .lineComment hbody (by simp)
  | blockComment hbody => exact .blockComment hbody
  | symbol hk => exact .symbol hk (by simp)
  | string hinner => exact .string hinner
  | hexNumber hne hdigits => exact .hexNumber hne hdigits (by simp)
  | number hne hdigits => exact .number hne hdigits (by simp)
  | word hc hdigit htail => exact .word hc hdigit htail (by simp) (by simp)
  | hash hframe hinner => exact .hash hframe hinner

/-- A lexeme does not change when the text behind it is cut off somewhere. -/
theorem Spelling.of_append (h : Spelling l u (r ++ s)) : Spelling l u r := by
  cases r with
  | nil => exact h.of_end_of_text
  | cons c r => exact h.of_head? rfl

/-- Where no lexeme can be cut off, none is spelled. -/
theorem not_spelling_of_next_eq_error (h : Cut.next c tail = .error fault)
    (heq : u ++ r = c :: tail) : ¬ Spelling l u r := by
  intro hspell
  obtain ⟨cut, hcut, -⟩ := cutsOff_of_spelling hspell heq
  rw [hcut] at h
  cases h

/-- **The lexer stops at the beginning of a lexeme.** What it has passed can be read by itself, and
what is left cannot be begun, wherever it stands. -/
theorem exists_of_tokenizeFrom_eq_error (h : tokenizeFrom p s = .error e) :
    ∃ front c tail ws, s = front ++ c :: tail ∧ e.position = p.after front ∧ Lexes front ws ∧
      Cut.next c tail = .error e.fault := by
  -- a lexeme takes any number of characters, so the induction is on the length
  induction hn : s.length using Nat.strong_induction_on generalizing p s with
  | _ n ih =>
    match s with
    | [] =>
      rw [tokenizeFrom] at h
      cases h
    | c :: tail =>
      cases hnext : Cut.next c tail with
      | error fault =>
        simp only [tokenizeFrom, hnext] at h
        obtain rfl := Except.error.inj h
        exact ⟨[], c, tail, [], rfl, rfl, .nil, hnext⟩
      | ok cut =>
        have hspell := next_eq_ok_iff.1 hnext
        rw [← cut.text_append_rest, tokenizeFrom_append hspell] at h
        cases hrest : tokenizeFrom (p.after cut.text) cut.rest with
        | ok ts => simp [hrest] at h
        | error e' =>
          simp only [hrest] at h
          obtain rfl := Except.error.inj h
          obtain ⟨front, c', tail', ws, heq, hposition, hfront, hstop⟩ :=
            ih _ (hn ▸ cut.rest_length_lt) hrest rfl
          rw [heq] at hspell
          refine ⟨cut.text ++ front, c', tail', _, ?_, ?_, .cons hspell.of_append hfront, hstop⟩
          · rw [List.append_assoc, ← heq, cut.text_append_rest]
          · rw [hposition, Position.after_append]

/-! ### The place -/

namespace Position.IsAt

variable {m n line column : Nat}

/-- Between two places of one line there is no line feed. -/
theorem lineFeed_notMem_slice (hm : (⟨line, column, m⟩ : Position).IsAt source)
    (hn : (⟨line, column, n⟩ : Position).IsAt source) (hle : m ≤ n) :
    '\n' ∉ slice source m n := by
  have hsplit : source.take n = source.take m ++ slice source m n := by
    simpa [slice] using (slice_append_slice (s := source) (Nat.zero_le m) hle).symm
  have hcount : 1 + (source.take m).count '\n' = 1 + (source.take n).count '\n' :=
    hm.line_eq.symm.trans hn.line_eq
  rw [hsplit, List.count_append] at hcount
  exact List.count_eq_zero.1 (by omega)

/-- A line feed lies in every stretch around it. -/
theorem lineFeed_mem_slice {a b o : Nat} (ho : slice source (o - 1) o = ['\n']) (ha : a < o)
    (hb : o ≤ b) : '\n' ∈ slice source a b := by
  rw [← slice_append_slice (b := o) (by omega) hb,
    ← slice_append_slice (a := a) (b := o - 1) (by omega) (by omega), ho]
  simp

/-- A line and a column belong to one place, also if the first place is in front. -/
theorem offset_eq_of_le (hm : (⟨line, column, m⟩ : Position).IsAt source)
    (hn : (⟨line, column, n⟩ : Position).IsAt source) (hle : m ≤ n) : m = n := by
  obtain ⟨a, ha, hbegin, hnone, hcolumn⟩ := hm.column_eq
  obtain ⟨b, hb, hbegin', hnone', hcolumn'⟩ := hn.column_eq
  -- both lines begin at one place, since there is no line feed between the two beginnings
  have hab : a = b := by
    rcases Nat.lt_trichotomy a b with hlt | heq | hlt
    · have hfeed := hbegin'.resolve_left (by omega)
      rcases Nat.lt_or_ge m b with hmb | hbm
      · exact absurd (lineFeed_mem_slice hfeed hmb hb) (lineFeed_notMem_slice hm hn hle)
      · exact absurd (lineFeed_mem_slice hfeed hlt hbm) hnone
    · exact heq
    · have hfeed := hbegin.resolve_left (by omega)
      exact absurd (lineFeed_mem_slice hfeed hlt (ha.trans hle)) hnone'
  simp only at ha hb hcolumn hcolumn'
  omega

/-- **A line and a column belong to one place** of a source. -/
theorem offset_unique (hm : (⟨line, column, m⟩ : Position).IsAt source)
    (hn : (⟨line, column, n⟩ : Position).IsAt source) : m = n := by
  rcases Nat.le_total m n with hle | hle
  · exact offset_eq_of_le hm hn hle
  · exact (offset_eq_of_le hn hm hle).symm

end Position.IsAt

/-- **A source is refused where a lexeme cannot be read.** The line and the column of the error
belong to exactly one place of the source. What stands in front of it is accepted; at the place
itself no lexeme is spelled; and what stands behind it, read by itself, is refused at its beginning,
for the same reason. -/
theorem tokenize_refuses (h : tokenize source = .error e) :
    ∃ n < source.length,
      (⟨e.position.line, e.position.column, n⟩ : Position).IsAt source ∧
      (∀ m, (⟨e.position.line, e.position.column, m⟩ : Position).IsAt source → m = n) ∧
      (∃ tokens, tokenize (source.take n) = .ok tokens) ∧
      (∀ l u r, source.drop n = u ++ r → ¬ Spelling l u r) ∧
      tokenize (source.drop n) = .error ⟨⟨1, 1, 0⟩, e.fault⟩ := by
  obtain ⟨front, c, tail, ws, rfl, hposition, hfront, hstop⟩ := exists_of_tokenizeFrom_eq_error h
  have hplace : e.position.IsAt (front ++ c :: tail) :=
    hposition ▸ Position.isAt_start.after (r := c :: tail) rfl
  have hoffset : e.position.offset = front.length := by
    rw [hposition, Position.after_offset]
    exact Nat.zero_add _
  obtain ⟨tokens, htokens, -⟩ := exists_tokenizeFrom_iff.2 hfront
  refine ⟨front.length, by simp, hoffset ▸ hplace, fun m hm ↦ ?_, ⟨tokens, ?_⟩,
    fun l u r heq ↦ ?_, ?_⟩
  · exact (hm.offset_unique hplace).trans hoffset
  · rw [List.take_left]
    exact htokens
  · rw [List.drop_left] at heq
    exact not_spelling_of_next_eq_error hstop heq.symm
  · rw [List.drop_left, tokenize, tokenizeFrom, hstop]
    rfl

/-- A string that is continued on the next line and never closed, behind a comment of two lines. -/
theorem tokenize_refuses_unterminated :
    ∃ e : LexicalError,
      tokenize "/*\n*/ x \"a\\\nb".toList = .error e ∧ e.position.line = 2 ∧ e.position.column = 6 ∧
      (⟨2, 6, 8⟩ : Position).IsAt "/*\n*/ x \"a\\\nb".toList ∧
      (∃ tokens, tokenize "/*\n*/ x ".toList = .ok tokens) ∧
      tokenize "\"a\\\nb".toList = .error ⟨⟨1, 1, 0⟩, e.fault⟩ := by
  have herror : tokenize "/*\n*/ x \"a\\\nb".toList = .error ⟨⟨2, 6, 8⟩, .unterminatedString⟩ := by
    decide +kernel
  obtain ⟨n, -, hplace, hunique, hfront, -, hrest⟩ := tokenize_refuses herror
  have hstart : (⟨2, 6, 8⟩ : Position).IsAt "/*\n*/ x \"a\\\nb".toList :=
    Position.isAt_start.after (u := "/*\n*/ x ".toList) (r := "\"a\\\nb".toList) rfl
  obtain rfl := hunique 8 hstart
  exact ⟨_, herror, rfl, rfl, hplace, hfront, hrest⟩

end

end YulPlus
