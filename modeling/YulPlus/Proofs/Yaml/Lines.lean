import YulPlus.Proofs.Yaml.Fetched

/-!
# Lines with a key

A line of a block mapping is a key, a colon and a value. In front of a key no candidate is left over
(`Scanner.atLine`); behind its colon the key has been read, and a block mapping is open
(`Scanner.atValue`). The scanner gets from the one state to the other (`Scanner.run_key`), and over
a word and the end of the line back to the first (`Scanner.run_word`). -/

namespace YulPlus

namespace Yaml

variable {k : Cursor} {s s' : Scanner} {w rest tail : Text} {c : Char} {blocks : List Nat}
  {tokens : List Token} {flow : Bool} {indent : Nat}

/-- A word of small letters, not too long for a key. -/
structure IsLowerWord (w : Text) : Prop where
  ne_nil : w ≠ []
  letters : ∀ c ∈ w, c.isLower = true
  short : w.length ≤ 1024

theorem IsLowerWord.exists_eq_cons (h : IsLowerWord w) :
    ∃ c more, w = c :: more ∧ c.isLower = true := by
  obtain ⟨c, more, rfl⟩ := List.exists_cons_of_ne_nil h.ne_nil
  exact ⟨c, more, rfl, h.letters c List.mem_cons_self⟩

/-! ### Words -/

/-- Behind a word, in the same line. -/
theorem Cursor.skip_word (hw : ∀ c ∈ w, c.isLower = true) (hk : k.rest = w ++ rest) :
    k.skip w.length = ⟨rest, k.line, k.column + w.length, k.index + w.length⟩ := by
  induction w generalizing k with
  | nil =>
    obtain rfl : k.rest = rest := hk
    rfl
  | cons c w ih =>
    obtain ⟨hc, hw⟩ := List.forall_mem_cons.1 hw
    have hbreak : isBreak c = false := by
      have hseparator := isSeparator_of_isLower hc
      simp only [isSeparator, Bool.or_eq_false_iff] at hseparator
      exact hseparator.2
    have hnext : k.next = ⟨w ++ rest, k.line, k.column + 1, k.index + 1⟩ := by
      simp [next, hk, hbreak, ne_of_isLower hc (d := '\ufeff') rfl]
    rw [List.length_cons, skip, ih hw (by rw [hnext]), hnext]
    simp only [Cursor.mk.injEq, true_and]
    omega

theorem gapBreaks_of_head (h : ∀ c ∈ k.rest.head?, isSeparator c = false) :
    gapBreaks k = ([], k, false) := by
  rw [gapBreaks.eq_def]
  split
  · rfl
  · next rest hk =>
    simp [hk, isSeparator] at h
  · next c rest hspace hk =>
    have hnone : k.lineBreak? = none := by
      refine Cursor.lineBreak_eq_none_iff.2 fun c hc ↦ ?_
      have hseparator := h c hc
      simp only [isSeparator, Bool.or_eq_false_iff] at hseparator
      exact hseparator.2
    split
    · rfl
    · next heq =>
      rw [hnone] at heq
      cases heq

/-- A word in front of a colon is a scalar. -/
theorem plainScalar_key (hw : IsLowerWord w) (hk : k.rest = w ++ ':' :: ' ' :: rest) :
    plainScalar false indent k =
      ⟨w, ⟨':' :: ' ' :: rest, k.line, k.column + w.length, k.index + w.length⟩, false⟩ := by
  have hword : plainWord false k.rest = w := by
    rw [hk]
    exact plainWord_append hw.letters (by simp [plainWord, endsAtColon, isSeparator, isBreak])
  have hgap : plainGap (k.skip w.length) = ⟨[], k.skip w.length, false⟩ := by
    rw [Cursor.skip_word hw.letters hk]
    simp [plainGap, Cursor.takeWhile, Cursor.skip, Cursor.lineBreak?, isBreak]
  rw [plainScalar]
  simp only [hword, hgap]
  simp [Cursor.skip_word hw.letters hk]

/-- A word in front of an unindented line is a scalar. -/
theorem plainScalar_word (hw : IsLowerWord w) (hk : k.rest = w ++ '\n' :: tail)
    (hindent : 0 < indent) (htail : ∀ c ∈ tail.head?, isSeparator c = false)
    (hmark : atDocumentMark tail = false) :
    ∃ cursor, cursor.rest = tail ∧ cursor.column = 0 ∧
      plainScalar false indent k = ⟨w, cursor, true⟩ := by
  have hword : plainWord false k.rest = w := by
    rw [hk]
    exact plainWord_append hw.letters (by simp [plainWord, isSeparator, isBreak])
  have hbehind := Cursor.skip_word hw.letters hk
  have hbreaks : gapBreaks (k.skip w.length).next = ([], (k.skip w.length).next, false) :=
    gapBreaks_of_head (by simpa [hbehind, Cursor.next_rest] using htail)
  have hgap : plainGap (k.skip w.length) = ⟨[' '], (k.skip w.length).next, true⟩ := by
    have hspaces : (k.skip w.length).takeWhile (· = ' ') = ([], k.skip w.length) :=
      Cursor.takeWhile_of_head (by simp [hbehind])
    have hfeed : (k.skip w.length).lineBreak? = some ('\n', (k.skip w.length).next) :=
      Cursor.lineBreak_of_isKeptBreak rfl (by rw [hbehind])
    have hnext : (k.skip w.length).next.rest = tail := by
      rw [Cursor.next_rest, hbehind, List.tail_cons]
    simp [plainGap, hspaces, hfeed, hnext, hmark, hbreaks, fold]
  refine ⟨(k.skip w.length).next, ?_, ?_, ?_⟩
  · simp [hbehind, Cursor.next_rest]
  · simp [hbehind, Cursor.next, isBreak]
  · rw [plainScalar]
    simp only [hword, hgap]
    have hcolumn : (k.skip w.length).next.column = 0 := by
      simp [hbehind, Cursor.next, isBreak]
    simp [hcolumn, hindent]

/-! ### States -/

namespace Scanner

/-- In front of a line of the outermost block. -/
def atLine (k : Cursor) (blocks : List Nat) (tokens : List Token) : Scanner where
  cursor := k
  blocks := blocks
  tokens := tokens

/-- Behind a word at the beginning of a line, whose place is the first cursor. -/
def atColon (start k : Cursor) (blocks : List Nat) (w : Text) (tokens : List Token) : Scanner where
  cursor := k
  blocks := blocks
  keyAllowed := false
  candidates := [⟨0, tokens.length, blocks.head? = some 0, start.line, 0, start.index⟩]
  tokens := .scalar true w :: tokens

/-- Behind the colon of a key in the outermost block. -/
def atValue (k : Cursor) (tokens : List Token) : Scanner where
  cursor := k
  blocks := [0]
  keyAllowed := false
  tokens := tokens

/-- Behind a gap without a break in it, one token is read. -/
theorem fetch_eq {s₀ : Scanner} (hgaps : s.skipGaps = s₀) (hstale : s₀.dropStale = .ok s₀)
    (hunwind : s₀.unwind = s₀) (hrest : s₀.cursor.rest = c :: rest) :
    s.fetch = (s₀.fetchToken c rest).map some := by
  rw [fetch, hgaps, hstale]
  simp only [bind, Except.bind, hunwind, hrest]
  cases s₀.fetchToken c rest <;> rfl

/-- A step that is made is a step of the run. -/
theorem run_of_fetch (h : s.fetch = .ok (some s'))
    (hless : s'.cursor.rest.length < s.cursor.rest.length) : s.run = s'.run := by
  rw [run, h]
  exact if_pos hless

/-- A token is put behind the tokens at the front. -/
theorem insertAt_append (t : Token) (front tokens : List Token) :
    insertAt tokens.length t (front ++ tokens) = front ++ t :: tokens := by
  simp [insertAt]

/-! ### Keys -/

theorem fetch_key (hgaps : s.skipGaps = atLine k blocks tokens) (hcolumn : k.column = 0)
    (hblocks : blocks = [] ∨ blocks = [0]) (hw : IsLowerWord w)
    (hk : k.rest = w ++ ':' :: ' ' :: rest) :
    s.fetch = .ok (some (atColon k ⟨':' :: ' ' :: rest, k.line, w.length, k.index + w.length⟩
      blocks w tokens)) := by
  obtain ⟨c, more, hcons, hc⟩ := hw.exists_eq_cons
  have hne := fun d ↦ ne_of_isLower (d := d) hc
  have hunwind : (atLine k blocks tokens).unwind = atLine k blocks tokens := by
    rcases hblocks with rfl | rfl <;> simp [unwind, atLine, inFlow, closeBlocks]
  have hstart : (atLine k blocks tokens).cursor.rest = c :: (more ++ ':' :: ' ' :: rest) := by
    rw [atLine, hk, hcons, List.cons_append]
  have hplain : startsPlain false c (more ++ ':' :: ' ' :: rest) = true := by
    simp [startsPlain, isSeparator_of_isLower hc, isIndicator, hne]
  rw [fetch_eq hgaps rfl hunwind hstart]
  have htoken : (atLine k blocks tokens).fetchToken c (more ++ ':' :: ' ' :: rest) =
      (atLine k blocks tokens).fetchPlain := by
    simp [fetchToken, hne, atLine, inFlow, hplain]
  rw [htoken]
  simp [fetchPlain, saveCandidate, dropCandidate, atLine, atColon, emit, inFlow,
    plainScalar_key hw hk, hcolumn, bind, Except.bind, pure, Except.pure, Except.map]

/-- The tokens behind the colon of a key of the outermost block, which the first key opens. -/
def keyTokens (blocks : List Nat) (w : Text) (tokens : List Token) : List Token :=
  .value :: .scalar true w :: .key ::
    (if blocks = [] then .blockMappingStart :: tokens else tokens)

theorem fetchValue_atColon (hblocks : blocks = [] ∨ blocks = [0]) (start : Cursor) :
    (atColon start k blocks w tokens).fetchValue =
      .ok (atValue k.next (keyTokens blocks w tokens)) := by
  have hkey := insertAt_append .key [.scalar true w] tokens
  have hopening := insertAt_append .blockMappingStart [.scalar true w, .key] tokens
  rcases hblocks with rfl | rfl
  · simp_all [fetchValue, atColon, atValue, keyTokens, inFlow, isDeeper, emit, Scanner.skip,
      Cursor.skip]
  · simp_all [fetchValue, atColon, atValue, keyTokens, inFlow, isDeeper, emit, Scanner.skip,
      Cursor.skip]

theorem fetch_colon (start : Cursor) (hline : k.line = start.line)
    (hindex : k.index - start.index ≤ 1024) (hblocks : blocks = [] ∨ blocks = [0])
    (hk : k.rest = ':' :: ' ' :: rest) :
    (atColon start k blocks w tokens).fetch =
      .ok (some (atValue k.next (keyTokens blocks w tokens))) := by
  have hgaps : (atColon start k blocks w tokens).skipGaps = atColon start k blocks w tokens :=
    skipGaps_of_cons hk rfl (by decide)
  have hstale : (atColon start k blocks w tokens).dropStale =
      .ok (atColon start k blocks w tokens) := by
    simp [dropStale, atColon, hline, Nat.not_lt.2 hindex]
  have hunwind : (atColon start k blocks w tokens).unwind = atColon start k blocks w tokens := by
    rcases hblocks with rfl | rfl <;> simp [unwind, atColon, inFlow, closeBlocks]
  rw [fetch_eq hgaps hstale hunwind hk]
  have htoken : (atColon start k blocks w tokens).fetchToken ':' (' ' :: rest) =
      (atColon start k blocks w tokens).fetchValue := by
    simp [fetchToken, inFlow, atColon, atSeparator, isSeparator]
  rw [htoken, fetchValue_atColon hblocks]
  rfl

/-- **A key is read with its colon.** -/
theorem run_key (hgaps : s.skipGaps = atLine k blocks tokens)
    (hlength : k.rest.length ≤ s.cursor.rest.length) (hcolumn : k.column = 0)
    (hblocks : blocks = [] ∨ blocks = [0]) (hw : IsLowerWord w)
    (hk : k.rest = w ++ ':' :: ' ' :: rest) :
    ∃ k', k'.rest = ' ' :: rest ∧ s.run = (atValue k' (keyTokens blocks w tokens)).run := by
  set colon : Cursor := ⟨':' :: ' ' :: rest, k.line, w.length, k.index + w.length⟩ with hcolon
  have hfirst : s.fetch = .ok (some (atColon k colon blocks w tokens)) :=
    fetch_key hgaps hcolumn hblocks hw hk
  have hsecond : (atColon k colon blocks w tokens).fetch = _ :=
    fetch_colon k rfl (by simpa [hcolon] using hw.short) hblocks rfl
  refine ⟨colon.next, by rw [Cursor.next_rest]; rfl,
    (run_of_fetch hfirst ?_).trans (run_of_fetch hsecond ?_)⟩
  · have hpos := List.length_pos_iff.2 hw.ne_nil
    rw [hk] at hlength
    simp only [List.length_append, List.length_cons] at hlength
    simp only [atColon, hcolon, List.length_cons]
    omega
  · simp [atColon, atValue, Cursor.next_rest, hcolon]

/-! ### Values -/

/-- A space in front of a value is passed over. -/
theorem skipGaps_atValue (hk : k.rest = ' ' :: c :: rest) (hc : isSeparator c = false)
    (hcomment : c ≠ '#') : (atValue k tokens).skipGaps = atValue k.next tokens := by
  have hnext : k.next.rest = c :: rest := by rw [Cursor.next_rest, hk]; rfl
  simp only [isSeparator, Bool.or_eq_false_iff, decide_eq_false_iff_not] at hc
  obtain ⟨⟨hspace, -⟩, hbreak⟩ := hc
  have hend : lineEnd k = k.next := by
    have hspaces : k.takeWhile (· = ' ') = ([' '], k.next) := by
      simp [Cursor.takeWhile, hk, hspace, Cursor.skip]
    simp [lineEnd, hspaces, hnext, hcomment]
  have hnone : k.next.lineBreak? = none :=
    Cursor.lineBreak_eq_none_iff.2 (by simpa [hnext] using hbreak)
  have hcursor : (atValue k tokens).cursor = k := rfl
  rw [skipGaps_eq, hcursor, hend, hnone]
  rfl

theorem unwind_atValue (k : Cursor) (tokens : List Token) :
    (atValue k tokens).unwind = atValue k tokens := by
  simp [unwind, atValue, inFlow, closeBlocks]

/-- **A word is read with the end of its line.** -/
theorem run_word (hw : IsLowerWord w) (hk : k.rest = ' ' :: (w ++ '\n' :: tail))
    (htail : ∀ c ∈ tail.head?, isSeparator c = false) (hmark : atDocumentMark tail = false) :
    ∃ k', k'.rest = tail ∧ k'.column = 0 ∧
      (atValue k tokens).run = (atLine k' [0] (.scalar true w :: tokens)).run := by
  obtain ⟨c, more, rfl, hc⟩ := hw.exists_eq_cons
  have hne := fun d ↦ ne_of_isLower (d := d) hc
  have hnext : k.next.rest = c :: (more ++ '\n' :: tail) := by rw [Cursor.next_rest, hk]; rfl
  obtain ⟨k', hrest, hcolumn, hscalar⟩ := plainScalar_word hw hnext Nat.zero_lt_one htail hmark
  have hplain : startsPlain false c (more ++ '\n' :: tail) = true := by
    simp [startsPlain, isSeparator_of_isLower hc, isIndicator, hne]
  have htoken : (atValue k.next tokens).fetchToken c (more ++ '\n' :: tail) =
      (atValue k.next tokens).fetchPlain := by
    simp [fetchToken, hne, atValue, inFlow, hplain]
  have hfetch : (atValue k tokens).fetch =
      .ok (some (atLine k' [0] (.scalar true (c :: more) :: tokens))) := by
    rw [fetch_eq (skipGaps_atValue hk (isSeparator_of_isLower hc) (hne '#' rfl)) rfl
      (unwind_atValue _ _) hnext, htoken]
    simp [fetchPlain, saveCandidate, atValue, atLine, emit, inFlow, hscalar, bind, Except.bind,
      pure, Except.pure, Except.map]
  refine ⟨k', hrest, hcolumn, run_of_fetch hfetch ?_⟩
  simp only [atLine, atValue, hrest, hk, List.length_cons, List.length_append]
  omega

/-- **A line of a key and a word is read.** -/
theorem run_entry {key : Text} (hgaps : s.skipGaps = atLine k [0] tokens)
    (hlength : k.rest.length ≤ s.cursor.rest.length) (hcolumn : k.column = 0)
    (hkey : IsLowerWord key) (hw : IsLowerWord w)
    (hk : k.rest = key ++ ':' :: ' ' :: (w ++ '\n' :: tail))
    (htail : ∀ c ∈ tail.head?, isSeparator c = false) (hmark : atDocumentMark tail = false) :
    ∃ k', k'.rest = tail ∧ k'.column = 0 ∧ s.run =
      (atLine k' [0] (.scalar true w :: .value :: .scalar true key :: .key :: tokens)).run := by
  obtain ⟨k₁, hk₁, hrun⟩ := run_key hgaps hlength hcolumn (.inr rfl) hkey hk
  obtain ⟨k', hrest, hcolumn', hrun'⟩ := run_word hw hk₁ htail hmark
  exact ⟨k', hrest, hcolumn', hrun.trans hrun'⟩

/-- **A quoted scalar is read**, or it is not and nothing is. -/
theorem run_quoted (hk : k.rest = ' ' :: '"' :: rest) :
    (atValue k tokens).run =
      match quotedScalar true k.next.next with
      | .error fault => .error fault
      | .ok (text, after) => (atValue after (.scalar false text :: tokens)).run := by
  have hnext : k.next.rest = '"' :: rest := by rw [Cursor.next_rest, hk]; rfl
  have hbehind : k.next.next.rest = rest := by rw [Cursor.next_rest, hnext]; rfl
  have htoken : (atValue k.next tokens).fetchToken '"' rest =
      (atValue k.next tokens).fetchQuoted true := by
    simp [fetchToken]
  have hfetch : (atValue k tokens).fetch =
      ((atValue k.next tokens).fetchQuoted true).map some := by
    rw [fetch_eq (skipGaps_atValue hk rfl (by decide)) rfl (unwind_atValue _ _) hnext, htoken]
  cases hquoted : quotedScalar true k.next.next with
  | error fault =>
    rw [run, hfetch]
    simp [fetchQuoted, saveCandidate, atValue, hquoted, bind, Except.bind, Except.map]
  | ok found =>
    obtain ⟨text, after⟩ := found
    have hstep : (atValue k tokens).fetch =
        .ok (some (atValue after (.scalar false text :: tokens))) := by
      rw [hfetch]
      simp [fetchQuoted, saveCandidate, atValue, emit, hquoted, bind, Except.bind, Except.map, pure,
        Except.pure]
    refine run_of_fetch hstep ?_
    obtain ⟨src, hsrc, -⟩ := quotedScalar_eq_ok hquoted
    rw [hbehind] at hsrc
    simp only [atValue, hk, hsrc, List.length_cons, List.length_append]
    omega

/-! ### Ends of lines -/

/-- Behind the end of a line. -/
theorem skipGaps_of_lineEnd (hk : (lineEnd s.cursor).rest = '\n' :: tail) :
    s.skipGaps = skipGaps { s with
      cursor := (lineEnd s.cursor).next, keyAllowed := s.keyAllowed || !s.inFlow } := by
  rw [skipGaps_eq, Cursor.lineBreak_of_isKeptBreak rfl hk]

/-- A comment is passed over with its line. -/
theorem skipGaps_comment (blocks : List Nat) (tokens : List Token) {comment : Text}
    (hk : k.rest = '#' :: (comment ++ '\n' :: tail))
    (hcomment : ∀ c ∈ comment, isBreak c = false) :
    ∃ k', k'.rest = tail ∧ k'.column = 0 ∧
      (atLine k blocks tokens).skipGaps = (atLine k' blocks tokens).skipGaps := by
  have hspaces : k.takeWhile (· = ' ') = ([], k) := Cursor.takeWhile_of_head (by simp [hk])
  have hend : (lineEnd k).rest = '\n' :: tail := by
    have htake : (k.takeWhile fun c ↦ !isBreak c).2.rest = '\n' :: tail :=
      (Cursor.takeWhile_append (s := '#' :: comment) hk (by simpa [isBreak] using hcomment)
        (by simp [isBreak])).2
    simpa [lineEnd, hspaces, hk] using htake
  refine ⟨(lineEnd k).next, by rw [Cursor.next_rest, hend]; rfl,
    Cursor.column_next rfl (.inl (by decide)) hend, ?_⟩
  rw [skipGaps_of_lineEnd hend]
  rfl

/-- Behind a value, the next line begins. -/
theorem skipGaps_lineFeed (hk : k.rest = '\n' :: tail) (htail : tail.head? = some c)
    (hseparator : isSeparator c = false) (hcomment : c ≠ '#') :
    (atValue k tokens).skipGaps = atLine k.next [0] tokens := by
  have hspaces : k.takeWhile (· = ' ') = ([], k) := Cursor.takeWhile_of_head (by simp [hk])
  have hend : lineEnd k = k := by simp [lineEnd, hspaces, hk]
  obtain ⟨more, rfl⟩ := List.head?_eq_some_iff.1 htail
  have hnext : k.next.rest = c :: more := by rw [Cursor.next_rest, hk]; rfl
  have hcursor : (atValue k tokens).cursor = k := rfl
  rw [skipGaps_of_lineEnd (by rw [hcursor, hend, hk]), hcursor, hend]
  exact skipGaps_of_cons hnext hseparator hcomment

/-- **At the end of the text the outermost block is closed.** -/
theorem run_end (hgaps : s.skipGaps = atLine k [0] tokens) (hk : k.rest = []) :
    s.run = .ok (tokens.reverse ++ [.blockEnd]) := by
  have hunwind : (atLine k [0] tokens).unwind = atLine k [0] tokens := by
    simp [unwind, atLine, inFlow, closeBlocks]
  have hstale : (atLine k [0] tokens).dropStale = .ok (atLine k [0] tokens) := rfl
  have hfetch : s.fetch = .ok none := by
    rw [fetch, hgaps, hstale]
    simp only [bind, Except.bind, hunwind]
    simp [atLine, hk, pure, Except.pure]
  have hfinish : s.finish = .ok (tokens.reverse ++ [.blockEnd]) := by
    rw [finish, hgaps, hstale]
    simp [atLine, bind, Except.bind, inFlow, unwindAll, dropCandidate, pure, Except.pure]
  rw [run, hfetch]
  exact hfinish

end Scanner

end Yaml

end YulPlus
