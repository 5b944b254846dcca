import YulPlus.Proofs.Source.Placement

/-!
# Nothing is lost in lexing

The tokens of a source and the stretches between them make up the whole source, and every token
knows the line and the column that it begins at (`tokenize_coverage`).

* `PassedOver atEnd s` says what may stand where no token does: blank characters and complete
  comments. A line comment is complete when its line feed stands behind it, and at the end of the
  source also without.
* `Position.IsAt` says what the three numbers of a position have to be, by counting line feeds in
  front of the place and by looking for the beginning of its line. Walking over one character keeps
  it (`Position.IsAt.advance`), so it holds wherever a walk from the beginning of the source stops
  (`Position.IsAt.after`), and the lexer does nothing but walk.
-/

namespace YulPlus

open Text

/-- Blank characters and complete comments; with `atEnd` a line comment may end with the text. -/
inductive PassedOver (atEnd : Bool) : Text → Prop
  | nil : PassedOver atEnd []
  | blank {c : Char} {s : Text} (hc : c ∈ [' ', '\t', '\r', '\n']) (hs : PassedOver atEnd s) :
      PassedOver atEnd (c :: s)
  | lineComment {body s : Text} (hbody : '\n' ∉ body) (hs : PassedOver atEnd ('\n' :: s)) :
      PassedOver atEnd ('/' :: '/' :: (body ++ '\n' :: s))
  | lastComment {body : Text} (hbody : '\n' ∉ body) (hend : atEnd = true) :
      PassedOver atEnd ('/' :: '/' :: body)
  /-- A block comment ends with the first `*/` behind its opening characters. -/
  | blockComment {inner s : Text} (hinner : ¬ ['*', '/'] <:+: inner ++ ['*'])
      (hs : PassedOver atEnd s) : PassedOver atEnd ('/' :: '*' :: (inner ++ '*' :: '/' :: s))

/-- The position `p` is a place in `source`, and its numbers are right. -/
structure Position.IsAt (source : Text) (p : Position) : Prop where
  offset_le : p.offset ≤ source.length
  line_eq : p.line = 1 + (source.take p.offset).count '\n'
  /-- The column is counted from the offset that the line begins at: the beginning of the source or
  the place right behind the last line feed. -/
  column_eq : ∃ o ≤ p.offset, (o = 0 ∨ slice source (o - 1) o = ['\n']) ∧
    '\n' ∉ slice source o p.offset ∧ p.column = p.offset - o + 1

section

variable {source s r u : Text} {p : Position} {tokens ts : List Token} {o : Nat}

/-! ### Stretches without tokens -/

theorem mem_of_isLayout {c : Char} (h : isLayout c = true) : c ∈ [' ', '\t', '\r', '\n'] := by
  simpa [isLayout, or_assoc] using h

/-- The inside of a comment ends with the first `*/`. -/
theorem exists_of_closeComment (h : closeComment s = some (u, r)) :
    ∃ inner, u = inner ++ ['*', '/'] ∧ ¬ ['*', '/'] <:+: inner ++ ['*'] := by
  fun_induction closeComment s generalizing u r with
  | case1 => cases h
  | case2 rest =>
    cases h
    exact ⟨[], rfl, by decide⟩
  | case3 c rest hne ih =>
    obtain ⟨⟨v, after⟩, hv, heq⟩ := Option.map_eq_some_iff.1 h
    cases heq
    obtain ⟨inner, rfl, hinner⟩ := ih hv
    refine ⟨c :: inner, rfl, fun hfirst ↦ ?_⟩
    rcases List.infix_cons_iff.1 hfirst with hbegins | hlater
    · -- the first two characters would have closed the comment
      have hrest := append_of_closeComment hv
      cases inner with
      | nil => simp at hbegins
      | cons d inner =>
        obtain ⟨rfl, rfl⟩ : '*' = c ∧ '/' = d := by simpa using hbegins
        exact hne _ rfl hrest.symm
    · exact hinner hlater

theorem PassedOver.comment {atEnd : Bool} {body : Text}
    (hbody : closeComment body = some (body, [])) (hs : PassedOver atEnd s) :
    PassedOver atEnd ('/' :: '*' :: body ++ s) := by
  obtain ⟨inner, rfl, hinner⟩ := exists_of_closeComment hbody
  have h := PassedOver.blockComment hinner hs
  simpa using h

/-- A closed gap is passed over. -/
theorem Gap.passedOver {g : Text} (h : Gap g) : PassedOver false g := by
  induction h with
  | nil => exact .nil
  | layout hc _ ih => exact .blank (mem_of_isLayout hc) ih
  | lineComment hbody _ ih => exact .lineComment hbody ih
  | blockComment hbody _ ih => exact .comment hbody ih

/-- A text without tokens is passed over, up to its end. -/
theorem Lexes.passedOver (h : Lexes s []) : PassedOver true s := by
  generalize hws : ([] : List (TokenKind × Text)) = ws at h
  induction h with
  | nil => exact .nil
  | @cons l u r ws hu _ ih =>
    obtain ⟨hl, rfl⟩ := List.append_eq_nil_iff.1 hws.symm
    have hr := ih rfl
    cases hu with
    | layout hc => exact .blank (mem_of_isLayout hc) hr
    | @lineComment body _ hbody hend =>
      cases r with
      | nil => simpa using PassedOver.lastComment hbody rfl
      | cons c r =>
        obtain rfl := hend c rfl
        exact .lineComment hbody hr
    | blockComment hbody => exact .comment hbody hr
    | _ => cases hl

/-! ### Lines and columns -/

theorem Position.isAt_start : Position.start.IsAt source where
  offset_le := Nat.zero_le _
  line_eq := rfl
  column_eq := ⟨0, le_rfl, .inl rfl, by simp [Position.start, slice_self], rfl⟩

/-- **What one character keeps.** -/
theorem Position.IsAt.advance {c : Char} (h : p.IsAt source) (hc : source.drop p.offset = c :: r) :
    (p.advance c).IsAt source := by
  obtain ⟨hle, hline, o, ho, hbegins, hnone, hcolumn⟩ := h
  have hlt : p.offset < source.length := by
    have hlength := congrArg List.length hc
    simp at hlength
    omega
  have hslice : slice source p.offset (p.offset + 1) = [c] := slice_of_drop_eq (u := [c]) hc
  have htake : source.take (p.offset + 1) = source.take p.offset ++ [c] := by
    have h := slice_append_slice (s := source) (Nat.zero_le p.offset) (Nat.le_succ p.offset)
    rw [hslice] at h
    simpa [slice] using h.symm
  by_cases hfeed : c = '\n'
  · subst hfeed
    rw [Position.advance, if_pos rfl]
    refine ⟨hlt, ?_, p.offset + 1, le_rfl, .inr hslice, by simp [slice_self], by simp⟩
    show p.line + 1 = 1 + (source.take (p.offset + 1)).count '\n'
    rw [htake, List.count_append, hline]
    simp
    omega
  · rw [Position.advance, if_neg hfeed]
    refine ⟨hlt, ?_, o, Nat.le_succ_of_le ho, hbegins, ?_, ?_⟩
    · show p.line = 1 + (source.take (p.offset + 1)).count '\n'
      rw [htake, List.count_append, List.count_singleton, hline]
      simp [hfeed]
    · rw [← slice_append_slice ho (Nat.le_succ p.offset), List.mem_append, hslice]
      simpa [Ne.symm hfeed] using hnone
    · show p.column + 1 = p.offset + 1 - o + 1
      omega

/-- **What a walk keeps.** -/
theorem Position.IsAt.after (h : p.IsAt source) (hu : source.drop p.offset = u ++ r) :
    (p.after u).IsAt source := by
  induction u generalizing p with
  | nil => exact h
  | cons c u ih =>
    refine ih (h.advance hu) ?_
    rw [Position.advance_offset]
    exact drop_of_drop_eq (u := [c]) hu

/-- Every token begins at a place of the source. -/
theorem Tokenized.isAt (h : Tokenized p s ts) (hs : source.drop p.offset = s)
    (hp : p.IsAt source) : ∀ t ∈ ts, t.start.IsAt source := by
  induction h with
  | nil p =>
    intro t ht
    obtain rfl := List.mem_singleton.1 ht
    exact hp
  | @cons p l u r ts _ _ ih =>
    have hafter := ih (by rw [Position.after_offset]; exact drop_of_drop_eq hs) (hp.after hs)
    intro t ht
    rcases List.mem_append.1 ht with ht | ht
    · cases l with
      | gap => cases ht
      | token k v =>
        obtain rfl := List.mem_singleton.1 ht
        exact hp
    · exact hafter t ht

/-! ### The tokens between the stretches -/

namespace Placed

/-- The tokens stand one behind the other. -/
theorem pairwise (h : Placed source o ts) :
    ts.Pairwise fun t u ↦ t.start.offset < u.start.offset ∧ t.stop ≤ u.start.offset := by
  induction h with
  | nil => exact .nil
  | @cons o t ts ht hts ih =>
    refine .cons (fun u hu ↦ ?_) ih
    obtain ⟨a, ha, hstands, -⟩ := hts.exists_standsAfter hu
    have hlt := ht.start_lt_stop
    have hle := hstands.le_start
    omega

end Placed

/-- **The tokens and the stretches between them are the source.** The last token, and no other,
marks the end of the source. The ranges of the others are in the source, one behind the other, and
hold what the tokens were read from; in front of every token, up to the one before it, stand only
blank characters and complete comments. Every token begins where its line, its column and its
offset say. -/
theorem tokenize_coverage (h : tokenize source = .ok tokens) :
    ∃ front last, tokens = front ++ [last] ∧
      (last.kind = .endOfText ∧ last.start.offset = source.length ∧ last.stop = source.length) ∧
      (∀ t ∈ front, t.kind ≠ .endOfText ∧ t.start.offset < t.stop ∧ t.stop ≤ source.length ∧
        slice source t.start.offset t.stop = t.text) ∧
      (tokens.Pairwise fun t u ↦ t.start.offset < u.start.offset ∧ t.stop ≤ u.start.offset) ∧
      (∀ before t after, tokens = before ++ t :: after →
        PassedOver after.isEmpty (slice source (stopFrom 0 before) t.start.offset)) ∧
      ∀ t ∈ tokens, t.start.IsAt source := by
  obtain ⟨front, last, rfl, hfront, hlast⟩ := exists_placed_of_tokenize h
  have hisAt := (tokenized_of_tokenizeFrom h).isAt rfl Position.isAt_start
  have htokens : ∀ t ∈ front, t.start.offset < t.stop ∧ t.stop ≤ source.length ∧
      t.kind ≠ .endOfText ∧ slice source t.start.offset t.stop = t.text := by
    intro t ht
    obtain ⟨a, -, hstands, -⟩ := hfront.exists_standsAfter ht
    obtain ⟨r, hr⟩ := hstands.spelling
    exact ⟨hstands.start_lt_stop, hstands.stop_le, hr.kind_ne_endOfText, hstands.slice_eq⟩
  refine ⟨front, last, rfl, ⟨hlast.kind_eq, hlast.start_eq, hlast.stop_eq⟩, fun t ht ↦ ?_, ?_,
    fun before t after heq ↦ ?_, hisAt⟩
  · obtain ⟨hlt, hle, hkind, hslice⟩ := htokens t ht
    exact ⟨hkind, hlt, hle, hslice⟩
  · refine List.pairwise_append.2 ⟨hfront.pairwise, List.pairwise_singleton _ _, ?_⟩
    intro t ht u hu
    obtain rfl := List.mem_singleton.1 hu
    obtain ⟨hlt, hle, -, -⟩ := htokens t ht
    rw [hlast.start_eq]
    omega
  · rcases List.eq_nil_or_concat after with rfl | ⟨after, u, rfl⟩
    · obtain ⟨rfl, hu⟩ := List.append_inj' heq rfl
      obtain rfl := List.singleton_inj.1 hu
      have hrest : slice source (stopFrom 0 front) last.start.offset =
          source.drop (stopFrom 0 front) := by
        rw [hlast.start_eq, slice, List.take_length]
      rw [hrest]
      exact hlast.lexes.passedOver
    · -- only closed gaps stand in front of a token that is not the last one
      have hsplit : front = before ++ t :: after := by
        have happend : front ++ [last] = (before ++ t :: after) ++ [u] := by simpa using heq
        exact (List.append_inj' happend rfl).1
      subst hsplit
      obtain - | ⟨hstands, -⟩ := (Placed.append_iff.1 hfront).2
      have hempty : (after.concat u).isEmpty = false := by simp
      rw [hempty]
      exact hstands.gap.passedOver

/-- A string that is continued on the next line, a line comment and a hash literal, which stands on
the third line in the second column. -/
theorem tokenize_coverage_escaped :
    ∃ string selector last : Token,
      tokenize "\"a\\\nb\" // x\n sig\"f()\"/**/".toList = .ok [string, selector, last] ∧
      PassedOver false " // x\n ".toList ∧ PassedOver true "/**/".toList ∧
      slice "\"a\\\nb\" // x\n sig\"f()\"/**/".toList 13 21 = selector.text ∧
      (⟨3, 2, 13⟩ : Position).IsAt "\"a\\\nb\" // x\n sig\"f()\"/**/".toList := by
  have htokens : tokenize "\"a\\\nb\" // x\n sig\"f()\"/**/".toList =
      .ok [⟨.string, "\"a\\\nb\"".toList, ⟨1, 1, 0⟩, 6⟩,
        ⟨.selector, "f()".toList, ⟨3, 2, 13⟩, 21⟩, ⟨.endOfText, [], ⟨3, 14, 25⟩, 25⟩] := by
    decide +kernel
  obtain ⟨front, last, heq, -, hfront, -, hgaps, hisAt⟩ := tokenize_coverage htokens
  have hsplit : [_, _] ++ [_] = front ++ [last] := heq
  obtain ⟨rfl, -⟩ := List.append_inj' hsplit rfl
  exact ⟨_, _, _, htokens, hgaps [_] _ _ rfl, hgaps [_, _] _ _ rfl,
    (hfront _ (.tail _ (.head _))).2.2.2, hisAt _ (.tail _ (.head _))⟩

end

end YulPlus
