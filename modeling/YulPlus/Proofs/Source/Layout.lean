import YulPlus.Proofs.Source.Placement

/-!
# Layout does not matter

A token is what its own characters are read as, wherever it stands. So the characters of the tokens
of a source, with single spaces between them and without everything else that stands between them,
are read as the same tokens (`tokenize_spaced`); and two tokens of the same characters have the same
kind and the same value, in one source or in two. Both rest on the one fact that every token may
stand in front of a space, and alone (`Token.StandsAfter.spelling_of_soft`).
-/

namespace YulPlus

open Text

section

variable {source s : Text} {tokens ts : List Token} {t : Token} {o : Nat}
  {ws : List (TokenKind × Text)}

/-- A space keeps what stands in front of it apart. -/
theorem soft_space (s : Text) : Soft (' ' :: s) :=
  soft_cons_iff.2 (by decide)

/-- A token that stands in a source may stand in front of every soft text. -/
theorem Token.StandsAfter.spelling_of_soft (h : t.StandsAfter source o) (hs : Soft s) :
    Spelling (.token t.kind t.value) t.text s := by
  obtain ⟨_, hspell⟩ := h.spelling
  exact hspell.of_soft hs

/-- The characters of a token, alone, are read as the token. -/
theorem Token.StandsAfter.lexes (h : t.StandsAfter source o) : Lexes t.text [t.reading] := by
  have halone := Lexes.cons (h.spelling_of_soft soft_nil) .nil
  rwa [List.append_nil] at halone

/-- **The texts of tokens, with single spaces between them**, are read as the tokens. -/
theorem Placed.lexes_joinWith (h : Placed source o ts) :
    Lexes (joinWith [' '] (ts.map Token.text)) (ts.map Token.reading) := by
  induction h with
  | nil => exact .nil
  | @cons o t ts ht hts ih =>
    cases hts with
    | nil => exact ht.lexes
    | @cons _ t' ts =>
      have hspaced : Lexes (' ' :: joinWith [' '] ((t' :: ts).map Token.text))
          ((t' :: ts).map Token.reading) := .cons (.layout (c := ' ') (by decide)) ih
      have hall := Lexes.cons (ht.spelling_of_soft (soft_space _)) hspaced
      simpa [joinWith_cons_cons, Lexeme.readings, Token.reading] using hall

/-- What stands in a source where a token does, which is nothing for the one that closes the
list. -/
def Token.characters (source : Text) (t : Token) : Text :=
  slice source t.start.offset t.stop

/-- The characters of the last token are none. -/
theorem Token.Closes.characters_eq (h : t.Closes source o) : t.characters source = [] := by
  rw [Token.characters, h.start_eq, h.stop_eq, slice_self]

/-- **A token is read from its own characters**, and from nothing else. -/
theorem lexes_characters (h : tokenize source = .ok tokens) (ht : t ∈ tokens) :
    ∃ ws, Lexes (t.characters source) ws ∧ t.reading = ws.headD endReading := by
  obtain ⟨front, last, rfl, hfront, hlast⟩ := exists_placed_of_tokenize h
  rcases List.mem_append.1 ht with ht | ht
  · obtain ⟨_, -, hstands, -⟩ := hfront.exists_standsAfter ht
    refine ⟨[t.reading], ?_, rfl⟩
    rw [Token.characters, hstands.slice_eq]
    exact hstands.lexes
  · obtain rfl := List.mem_singleton.1 ht
    refine ⟨[], hlast.characters_eq ▸ .nil, ?_⟩
    rw [Token.reading, hlast.kind_eq, hlast.value_eq]
    rfl

/-- **Layout does not matter.** The characters of the tokens of a source, with single spaces between
them, are read as the same tokens. Every token is what its own characters are read as: two tokens of
the same characters have the same kind and the same value, in one source or in two. -/
theorem tokenize_spaced (h : tokenize source = .ok tokens) :
    (∃ spaced,
      tokenize (joinWith [' '] ((tokens.filter fun t ↦ t.kind ≠ .endOfText).map
        (Token.characters source))) = .ok spaced ∧
      spaced.map Token.reading = tokens.map Token.reading) ∧
    ∀ source' tokens', tokenize source' = .ok tokens' → ∀ t ∈ tokens, ∀ t' ∈ tokens',
      t.characters source = t'.characters source' → t.reading = t'.reading := by
  refine ⟨?_, fun source' tokens' h' t ht t' ht' heq ↦ ?_⟩
  · obtain ⟨front, last, rfl, hfront, hlast⟩ := exists_placed_of_tokenize h
    have hkept : ∀ t ∈ front, t.kind ≠ .endOfText ∧ t.characters source = t.text := by
      intro t ht
      obtain ⟨_, -, hstands, -⟩ := hfront.exists_standsAfter ht
      obtain ⟨_, hspell⟩ := hstands.spelling
      exact ⟨hspell.kind_ne_endOfText, hstands.slice_eq⟩
    have hfilter : (front ++ [last]).filter (fun t ↦ t.kind ≠ .endOfText) = front := by
      rw [List.filter_append, List.filter_eq_self.2 (by simpa using fun t ht ↦ (hkept t ht).1)]
      simp [hlast.kind_eq]
    have htexts : front.map (Token.characters source) = front.map Token.text :=
      List.map_congr_left fun t ht ↦ (hkept t ht).2
    obtain ⟨spaced, hspaced, hreadings⟩ := exists_tokenizeFrom_iff.2 hfront.lexes_joinWith
    refine ⟨spaced, by rw [hfilter, htexts]; exact hspaced, ?_⟩
    rw [hreadings, List.map_append, List.map_singleton]
    congr 2
    rw [Token.reading, hlast.kind_eq, hlast.value_eq]
    rfl
  · obtain ⟨ws, hlex, hreading⟩ := lexes_characters h ht
    obtain ⟨vs, hlex', hreading'⟩ := lexes_characters h' ht'
    obtain rfl := hlex.unique (heq ▸ hlex')
    rw [hreading, hreading']

/-- A framing word in front of a string and a hash literal, a colon and an assignment, a string that
goes on behind a line feed, and comments. -/
theorem tokenize_spaced_framed :
    ∃ tokens spaced,
      tokenize "sig /**/\"a\\\nb\":sig\"f()\":=x.y// z".toList = .ok tokens ∧
      tokenize "sig \"a\\\nb\" : sig\"f()\" := x.y".toList = .ok spaced ∧
      spaced.map Token.reading = tokens.map Token.reading := by
  have htokens : tokenize "sig /**/\"a\\\nb\":sig\"f()\":=x.y// z".toList =
      .ok [⟨.identifier, "sig".toList, ⟨1, 1, 0⟩, 3⟩, ⟨.string, "\"a\\\nb\"".toList, ⟨1, 9, 8⟩, 14⟩,
        ⟨.colon, ":".toList, ⟨2, 3, 14⟩, 15⟩, ⟨.selector, "f()".toList, ⟨2, 4, 15⟩, 23⟩,
        ⟨.assign, ":=".toList, ⟨2, 12, 23⟩, 25⟩, ⟨.identifier, "x.y".toList, ⟨2, 14, 25⟩, 28⟩,
        ⟨.endOfText, [], ⟨2, 21, 32⟩, 32⟩] := by
    decide +kernel
  obtain ⟨⟨spaced, hspaced, hreadings⟩, -⟩ := tokenize_spaced htokens
  exact ⟨_, spaced, htokens, hspaced, hreadings⟩

end

end YulPlus
