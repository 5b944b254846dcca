import YulPlus.Lowering.Error
import YulPlus.Proofs.Source.Tokenized

/-!
# Texts with a line feed between them

A line feed behind a whole text brings the lexer back to its beginning: what follows is read as if
it stood alone, only further down (`tokenize_joined`). Two facts are behind it. A lexeme at the end
of a text stays one when a line feed follows, so the lexemes of the first text are cut off in front
of the second one (`Tokenized.tokenizeFrom_append_lineFeed`). And moving a text down by some lines
and some characters moves its tokens, or the error it is refused with, and changes nothing else
(`tokenizeFrom_shift`); the columns stay, since the moved text begins a line as the text alone
does. -/

namespace YulPlus

open Text

/-- The place so many lines further down, in the same column, with so many more characters in front
of it. -/
def Position.shift (lines chars : Nat) (p : Position) : Position :=
  ⟨p.line + lines, p.column, p.offset + chars⟩

/-- The same token at a shifted place. -/
def Token.shift (lines chars : Nat) (t : Token) : Token :=
  ⟨t.kind, t.value, t.start.shift lines chars, t.stop + chars⟩

/-- The same fault at a shifted place. -/
def LexicalError.shift (lines chars : Nat) (e : LexicalError) : LexicalError :=
  ⟨e.position.shift lines chars, e.fault⟩

section

variable {a s u : Text} {p : Position} {ts tokens : List Token} {lines chars : Nat}

/-! ### Moving a text -/

theorem Position.advance_shift (p : Position) (c : Char) :
    (p.shift lines chars).advance c = (p.advance c).shift lines chars := by
  unfold advance
  split <;> simp [shift, Nat.add_right_comm]

theorem Position.after_shift (p : Position) (u : Text) :
    (p.shift lines chars).after u = (p.after u).shift lines chars := by
  induction u generalizing p with
  | nil => rfl
  | cons c u ih => rw [after_cons, after_cons, advance_shift, ih]

theorem Lexeme.tokensAt_shift (l : Lexeme) :
    l.tokensAt (p.shift lines chars) u = (l.tokensAt p u).map (Token.shift lines chars) := by
  cases l with
  | gap => rfl
  | token k v => simp [tokensAt, Token.shift, Position.shift, Nat.add_right_comm]

/-- **A text is read in the same way further down.** Its tokens are moved with it, and so is the
error if it is refused. -/
theorem tokenizeFrom_shift (p : Position) (s : Text) :
    tokenizeFrom (p.shift lines chars) s =
      match tokenizeFrom p s with
      | .ok ts => .ok (ts.map (Token.shift lines chars))
      | .error e => .error (e.shift lines chars) := by
  -- a lexeme takes any number of characters, so the induction is on the length
  induction hn : s.length using Nat.strong_induction_on generalizing p s with
  | _ n ih =>
    match s with
    | [] =>
      rw [tokenizeFrom, tokenizeFrom]
      rfl
    | c :: tail =>
      cases hnext : Cut.next c tail with
      | error fault =>
        simp only [tokenizeFrom, hnext]
        rfl
      | ok cut =>
        have hspell := next_eq_ok_iff.1 hnext
        have hrest := ih _ (hn ▸ cut.rest_length_lt) (p.after cut.text) cut.rest rfl
        rw [← cut.text_append_rest, tokenizeFrom_append hspell, tokenizeFrom_append hspell,
          Position.after_shift, hrest]
        cases tokenizeFrom (p.after cut.text) cut.rest with
        | error e => rfl
        | ok ts => simp [Lexeme.tokensAt_shift]

/-! ### Behind a line feed -/

/-- A whole text, a line feed and more text: the rest is read behind the line feed. -/
theorem Tokenized.tokenizeFrom_append_lineFeed (h : Tokenized p s ts) (b : Text) :
    tokenizeFrom p (s ++ '\n' :: b) =
      match tokenizeFrom ((p.after s).advance '\n') b with
      | .ok more => .ok ((ts.filter fun t ↦ t.kind ≠ .endOfText) ++ more)
      | .error e => .error e := by
  induction h with
  | nil p =>
    have hfeed : Spelling .gap ['\n'] b := .layout (by decide)
    rw [List.nil_append, ← List.singleton_append, tokenizeFrom_append hfeed, Position.after_cons,
      Position.after_nil, Position.after_nil]
    cases tokenizeFrom (p.advance '\n') b <;> rfl
  | @cons p l u r ts hu _ ih =>
    have hkept : ((l.tokensAt p u).filter fun t ↦ t.kind ≠ .endOfText) = l.tokensAt p u := by
      cases l with
      | gap => rfl
      | token k v => simp [Lexeme.tokensAt, hu.kind_ne_endOfText]
    rw [List.append_assoc, tokenizeFrom_append hu.append_lineFeed, ih, Position.after_append]
    cases tokenizeFrom (((p.after u).after r).advance '\n') b with
    | error e => rfl
    | ok more => simp only [List.filter_append, hkept, List.append_assoc]

/-- The line grows by the number of line feeds walked over. -/
theorem Position.after_line (p : Position) (s : Text) :
    (p.after s).line = p.line + s.count '\n' := by
  induction s generalizing p with
  | nil => rfl
  | cons c s ih =>
    rw [after_cons, ih, advance]
    split
    · next hc => simp [hc]; omega
    · next hc => simp [hc]

/-- Behind a line feed a source begins again, further down. -/
theorem Position.advance_after_start (a : Text) :
    (start.after a).advance '\n' = start.shift (a.count '\n' + 1) (a.length + 1) := by
  rw [advance, if_pos rfl, after_line, after_offset]
  simp [shift, start, Nat.add_assoc]

/-- **Reading composes across lines.** Behind a text that is accepted and a line feed, every text is
read as it is alone, and only its places are others: if it is accepted, its tokens follow those of
the first text, moved down by the lines and the characters in front of it; and if it is refused,
then so is the whole, at the moved place and with the same wording behind it. -/
theorem tokenize_joined (h : tokenize a = .ok tokens) (b : Text) :
    (tokenize (a ++ '\n' :: b) =
      match tokenize b with
      | .ok more => .ok ((tokens.filter fun t ↦ t.kind ≠ .endOfText) ++
          more.map (Token.shift (a.count '\n' + 1) (a.length + 1)))
      | .error e => .error (e.shift (a.count '\n' + 1) (a.length + 1))) ∧
    ∀ e, tokenize b = .error e → ∃ e', tokenize (a ++ '\n' :: b) = .error e' ∧
      e'.toSyntaxError.message =
        "Line ".toList ++ decimal (e.position.line + (a.count '\n' + 1)) ++ ", column ".toList ++
          decimal e.position.column ++ ": ".toList ++ e.toSyntaxError.fault.message := by
  have hfront := (tokenized_of_tokenizeFrom h).tokenizeFrom_append_lineFeed b
  rw [Position.advance_after_start, tokenizeFrom_shift] at hfront
  refine ⟨?_, fun e he ↦ ⟨e.shift (a.count '\n' + 1) (a.length + 1), ?_, rfl⟩⟩
  · rw [tokenize, hfront, tokenize]
    cases tokenizeFrom Position.start b <;> rfl
  · rw [tokenize] at he
    rw [tokenize, hfront, he]

/-- A framing word and a comment that the line feed ends, in front of a string that is closed, and
in front of one that is not. -/
theorem tokenize_joined_framed :
    tokenize "/*\n*/ sig//".toList =
        .ok [⟨.identifier, "sig".toList, ⟨2, 4, 6⟩, 9⟩, ⟨.endOfText, [], ⟨2, 9, 11⟩, 11⟩] ∧
      tokenize "/*\n*/ sig//\n\"f()\"".toList =
        .ok [⟨.identifier, "sig".toList, ⟨2, 4, 6⟩, 9⟩,
          ⟨.string, "\"f()\"".toList, ⟨3, 1, 12⟩, 17⟩, ⟨.endOfText, [], ⟨3, 6, 17⟩, 17⟩] ∧
      tokenize "/*\n*/ sig//\n\n \"f()".toList = .error ⟨⟨4, 2, 14⟩, .unterminatedString⟩ := by
  have hfront : tokenize "/*\n*/ sig//".toList =
      .ok [⟨.identifier, "sig".toList, ⟨2, 4, 6⟩, 9⟩, ⟨.endOfText, [], ⟨2, 9, 11⟩, 11⟩] := by
    decide +kernel
  have hclosed : tokenize "\"f()\"".toList =
      .ok [⟨.string, "\"f()\"".toList, ⟨1, 1, 0⟩, 5⟩, ⟨.endOfText, [], ⟨1, 6, 5⟩, 5⟩] := by
    decide +kernel
  have hopen : tokenize "\n \"f()".toList = .error ⟨⟨2, 2, 2⟩, .unterminatedString⟩ := by
    decide +kernel
  have hread := (tokenize_joined hfront "\"f()\"".toList).1
  have hrefused := (tokenize_joined hfront "\n \"f()".toList).1
  rw [hclosed] at hread
  rw [hopen] at hrefused
  exact ⟨hfront, hread, hrefused⟩

end

end YulPlus
