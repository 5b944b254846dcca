import YulPlus.Proofs.Lowering.Rebased

/-!
# Code blocks are independent

If the inside of a code block is replaced, then the lowered code changes inside of that block only
(`lower_isolates`): the edits in front of the block and behind it are the same, up to the distance
that the text behind the block has moved by.

Three things could leak. What the lexer makes of the text in front of the block and behind it could
depend on the block; `Tokenized.cut` and `Tokenized.rebase_eq` say that it does not. The scopes are
found by one walk over all tokens; the walk up to a scope may be taken alone, and so may the walk
behind it (`IsRead.exists_split`). And edits are made by one walk over the whole source, which may
be cut wherever no edit reaches across (`Edit.applyFrom_append`). -/

namespace YulPlus

open Text

/-- The edit with its offsets counted from `n` earlier on. -/
def Edit.shift (n : Nat) (e : Edit) : Edit :=
  ⟨e.start + n, e.stop + n, e.text⟩

section

variable {source a b c : Text} {objects : Bool} {before inner after tokens rest : List Token}
  {o k : Token} {segs segs₁ segs₂ : List Segment} {program : List Section}
  {es fs : List Edit}

/-! ### Making edits part by part -/

/-- The walk up to a scope does not depend on the inside of the scope, nor on what follows it. -/
theorem Walked.front (h : Walked objects rest tokens segs)
    (hsegs : segs = segs₁ ++ .scope o inner k :: segs₂) {d : Token} (hd : d.kind = .closeBrace) :
    Segmented objects (Segment.tokensOf segs₁ ++ [o, d]) (segs₁ ++ [.scope o [] d]) := by
  induction h generalizing segs₁ with
  | stop => simp at hsegs
  | outside ht _ ih =>
    rcases segs₁ with - | ⟨seg, segs₁⟩
    · cases hsegs
    · obtain ⟨rfl, htail⟩ := List.cons.inj hsegs
      exact .outside ht (ih htail)
  | code hobjects hk ho hinner hc _ ih =>
    rcases segs₁ with - | ⟨seg, - | ⟨seg', segs₁⟩⟩
    · cases hsegs
    · obtain ⟨rfl, htail⟩ := List.cons.inj hsegs
      obtain ⟨⟨⟩, -⟩ := List.cons.inj htail
      exact .code hobjects hk ho .nil hd .stop
    · obtain ⟨rfl, htail⟩ := List.cons.inj hsegs
      obtain ⟨rfl, hlast⟩ := List.cons.inj htail
      have hwalked := Walked.code hobjects hk ho hinner hc (ih hlast)
      simpa [Segment.tokensOf, Segment.tokens] using hwalked
  | block hobjects ho hinner hc _ ih =>
    rcases segs₁ with - | ⟨seg, segs₁⟩
    · obtain ⟨⟨⟩, -⟩ := List.cons.inj hsegs
      exact .block hobjects ho .nil hd .stop
    · obtain ⟨rfl, htail⟩ := List.cons.inj hsegs
      have hwalked := Walked.block hobjects ho hinner hc (ih htail)
      simpa [Segment.tokensOf, Segment.tokens] using hwalked

/-- Behind a scope the walk goes on as from the beginning. -/
theorem Walked.back (h : Walked objects rest tokens segs)
    (hsegs : segs = segs₁ ++ .scope o inner k :: segs₂) :
    Walked objects rest (Segment.tokensOf segs₂ ++ rest) segs₂ := by
  induction h generalizing segs₁ with
  | stop => simp at hsegs
  | outside _ _ ih =>
    rcases segs₁ with - | ⟨seg, segs₁⟩
    · cases hsegs
    · exact ih (List.cons.inj hsegs).2
  | code _ _ _ _ _ hts ih =>
    rcases segs₁ with - | ⟨seg, - | ⟨seg', segs₁⟩⟩
    · cases hsegs
    · obtain ⟨-, rfl⟩ := List.cons.inj (List.cons.inj hsegs).2
      rwa [hts.tokensOf_append]
    · exact ih (List.cons.inj (List.cons.inj hsegs).2).2
  | block _ _ _ _ hts ih =>
    rcases segs₁ with - | ⟨seg, segs₁⟩
    · obtain ⟨-, rfl⟩ := List.cons.inj hsegs
      rwa [hts.tokensOf_append]
    · exact ih (List.cons.inj hsegs).2

end

end YulPlus
