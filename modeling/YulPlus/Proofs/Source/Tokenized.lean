import YulPlus.Proofs.Source.Cut

/-!
# Tokenized texts

The lexer as a relation, once with places and once without:

* `Tokenized p s ts`: the text `s`, which begins at the position `p`, is a sequence of spelled
  lexemes and `ts` are its tokens with the closing one. This is the lexer itself
  (`tokenizeFrom_eq_ok_iff`).
* `Lexes s ws`: the same sequence, of which only the kinds and values of the tokens are kept. No
  position is mentioned, so two texts can be compared that hold the same tokens at different places
  (`exists_tokenizeFrom_iff`).

A text that was put together from pieces is read by `Lexes.cons`, piece by piece from the back.
`Lexes.append_lineFeed` puts whole texts together: after a line feed the lexer starts afresh.
-/

namespace YulPlus

open Text

namespace Token

/-- What a token is, apart from its place. -/
def reading (t : Token) : TokenKind × Text :=
  (t.kind, t.value)

end Token

/-- The reading of the token that closes every token list. -/
def endReading : TokenKind × Text :=
  (.endOfText, [])

namespace Lexeme

/-- The token, if any, that a lexeme spelled `u` gives at the position `p`. -/
def tokensAt (p : Position) (u : Text) : Lexeme → List Token
  | gap => []
  | token k v => [⟨k, v, p, (p.after u).offset⟩]

/-- The reading, if any, of a lexeme. -/
def readings : Lexeme → List (TokenKind × Text)
  | gap => []
  | token k v => [(k, v)]

theorem map_reading_tokensAt (p : Position) (u : Text) (l : Lexeme) :
    (l.tokensAt p u).map Token.reading = l.readings := by
  cases l <;> rfl

end Lexeme

/-- The tokens `ts` of the text `s` that begins at `p`. -/
inductive Tokenized : Position → Text → List Token → Prop
  | nil (p : Position) : Tokenized p [] [Token.endOfText p]
  | cons {p : Position} {l : Lexeme} {u r : Text} {ts : List Token} (hu : Spelling l u r)
      (hr : Tokenized (p.after u) r ts) : Tokenized p (u ++ r) (l.tokensAt p u ++ ts)

/-- The readings `ws` of the tokens of `s`, without the closing token. -/
inductive Lexes : Text → List (TokenKind × Text) → Prop
  | nil : Lexes [] []
  | cons {l : Lexeme} {u r : Text} {ws : List (TokenKind × Text)} (hu : Spelling l u r)
      (hr : Lexes r ws) : Lexes (u ++ r) (l.readings ++ ws)

/-! ### The lexer is the relation -/

/-- One step of the lexer, as an equation: the lexeme in front is cut off and the rest is read from
the position behind it. -/
theorem tokenizeFrom_append {l : Lexeme} {u r : Text} (h : Spelling l u r) (p : Position) :
    tokenizeFrom p (u ++ r) =
      match tokenizeFrom (p.after u) r with
      | .error e => .error e
      | .ok ts => .ok (l.tokensAt p u ++ ts) := by
  obtain ⟨c, tail, hs⟩ :=
    List.exists_cons_of_ne_nil (List.append_ne_nil_of_left_ne_nil h.text_ne_nil r)
  obtain ⟨cut, hcut, rfl, rfl, rfl⟩ := cutsOff_of_spelling h hs
  rw [hs, tokenizeFrom, hcut]
  dsimp only
  cases tokenizeFrom (p.after cut.text) cut.rest with
  | error e => rfl
  | ok ts => cases cut.lexeme <;> rfl

theorem tokenized_of_tokenizeFrom {p : Position} {s : Text} {ts : List Token}
    (h : tokenizeFrom p s = .ok ts) : Tokenized p s ts := by
  -- a lexeme takes any number of characters, so the induction is on the length
  induction hn : s.length using Nat.strong_induction_on generalizing p s ts with
  | _ n ih =>
    match s with
    | [] =>
      rw [tokenizeFrom] at h
      cases h
      exact .nil p
    | c :: tail =>
      have hstep := h
      rw [tokenizeFrom] at hstep
      cases hnext : Cut.next c tail with
      | error e => simp [hnext] at hstep
      | ok cut =>
        have hspell := next_eq_ok_iff.1 hnext
        rw [← cut.text_append_rest] at h ⊢
        rw [tokenizeFrom_append hspell] at h
        cases hrest : tokenizeFrom (p.after cut.text) cut.rest with
        | error e => simp [hrest] at h
        | ok ts' =>
          simp only [hrest] at h
          cases h
          exact .cons hspell (ih _ (hn ▸ cut.rest_length_lt) hrest rfl)

theorem Tokenized.tokenizeFrom_eq {p : Position} {s : Text} {ts : List Token}
    (h : Tokenized p s ts) : tokenizeFrom p s = .ok ts := by
  induction h with
  | nil p => rw [tokenizeFrom]
  | cons hu _ ih => rw [tokenizeFrom_append hu, ih]

/-- **The lexer accepts exactly the sequences of spelled lexemes.** -/
theorem tokenizeFrom_eq_ok_iff {p : Position} {s : Text} {ts : List Token} :
    tokenizeFrom p s = .ok ts ↔ Tokenized p s ts :=
  ⟨tokenized_of_tokenizeFrom, Tokenized.tokenizeFrom_eq⟩

/-! ### Without places -/

theorem Tokenized.exists_lexes {p : Position} {s : Text} {ts : List Token} (h : Tokenized p s ts) :
    ∃ ws, Lexes s ws ∧ ts.map Token.reading = ws ++ [endReading] := by
  induction h with
  | nil p => exact ⟨[], .nil, rfl⟩
  | @cons p l u r ts hu _ ih =>
    obtain ⟨ws, hws, hts⟩ := ih
    refine ⟨_, .cons hu hws, ?_⟩
    rw [List.map_append, Lexeme.map_reading_tokensAt, hts, List.append_assoc]

theorem Lexes.exists_tokenized {s : Text} {ws : List (TokenKind × Text)} (h : Lexes s ws) :
    ∀ p, ∃ ts, Tokenized p s ts ∧ ts.map Token.reading = ws ++ [endReading] := by
  induction h with
  | nil => exact fun p ↦ ⟨_, .nil p, rfl⟩
  | @cons l u r ws hu _ ih =>
    intro p
    obtain ⟨ts, hts, hws⟩ := ih (p.after u)
    refine ⟨_, .cons hu hts, ?_⟩
    rw [List.map_append, Lexeme.map_reading_tokensAt, hws, List.append_assoc]

/-- The readings of a text do not depend on where it begins. -/
theorem exists_tokenizeFrom_iff {p : Position} {s : Text} {ws : List (TokenKind × Text)} :
    (∃ ts, tokenizeFrom p s = .ok ts ∧ ts.map Token.reading = ws ++ [endReading]) ↔
      Lexes s ws := by
  constructor
  · rintro ⟨ts, hts, hws⟩
    obtain ⟨ws', hlex, heq⟩ := (tokenized_of_tokenizeFrom hts).exists_lexes
    rwa [List.append_cancel_right (hws.symm.trans heq)]
  · intro h
    obtain ⟨ts, hts, hws⟩ := h.exists_tokenized p
    exact ⟨ts, hts.tokenizeFrom_eq, hws⟩

namespace Lexes

variable {s : Text} {ws vs : List (TokenKind × Text)}

/-- A text is read in one way only. -/
theorem unique (h : Lexes s ws) (h' : Lexes s vs) : ws = vs := by
  obtain ⟨ts, hts, hws⟩ := h.exists_tokenized .start
  obtain ⟨us, hus, hvs⟩ := h'.exists_tokenized .start
  obtain rfl := Except.ok.inj (hts.tokenizeFrom_eq.symm.trans hus.tokenizeFrom_eq)
  exact List.append_cancel_right (hws.symm.trans hvs)

/-- No text that can be read begins with an equals sign. -/
theorem head?_ne_equals (h : Lexes s ws) : ∀ c ∈ s.head?, c ≠ '=' := by
  cases h with
  | nil => simp
  | @cons l u r ws hu hr =>
    intro c hc
    obtain ⟨d, u, rfl⟩ := List.exists_cons_of_ne_nil hu.text_ne_nil
    exact hu.head?_ne_equals c hc

/-- **A line feed separates.** Behind a whole text and a line feed, reading starts afresh. -/
theorem append_lineFeed (h : Lexes s ws) {t : Text} {vs : List (TokenKind × Text)}
    (ht : Lexes t vs) : Lexes (s ++ '\n' :: t) (ws ++ vs) := by
  induction h with
  | nil => exact .cons (.layout (c := '\n') (by decide)) ht
  | @cons l u r ws hu hr ih =>
    rw [List.append_assoc, List.append_assoc]
    exact .cons hu.append_lineFeed ih

end Lexes

end YulPlus
