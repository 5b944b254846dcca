import YulPlus.Proofs.Yaml.Plain
import YulPlus.Yaml.Token

/-!
# What the scanner takes for a token

Of the tokens of a text, only the marks between documents and the scalars stand for characters that
mean something themselves; they are its `landmarks`. The other ones are brackets, punctuation and
layout, and some of them are put between tokens that are already there, which leaves the landmarks
in their order.

`Fetches` says what the scanner can do at a character that begins a token: pass over a sign, a mark
or a quoted scalar, or take a plain scalar. It says so in terms of the landmarks, and of what is
left of the text. -/

namespace YulPlus

namespace Yaml

/-- A token that stands for its characters. -/
inductive Landmark
  | mark
  | scalar (s : Text)
deriving DecidableEq, Repr

/-- The landmark that a token is. -/
def Token.landmark? : Token → Option Landmark
  | .documentStart => some .mark
  | .documentEnd => some .mark
  | .scalar _ s => some (.scalar s)
  | _ => none

/-- The landmarks among tokens. -/
def landmarks (tokens : List Token) : List Landmark :=
  tokens.filterMap Token.landmark?

variable {k : Cursor} {s s' : Scanner} {c : Char} {rest tail x : Text} {t : Token}
  {tokens : List Token} {position : Nat}

@[simp] theorem landmarks_nil : landmarks [] = [] := rfl

@[simp] theorem landmarks_append (tokens tokens' : List Token) :
    landmarks (tokens ++ tokens') = landmarks tokens ++ landmarks tokens' :=
  List.filterMap_append

theorem landmarks_cons (t : Token) (tokens : List Token) :
    landmarks (t :: tokens) = t.landmark?.toList ++ landmarks tokens := by
  cases h : t.landmark? <;> simp [landmarks, h]

theorem landmarks_reverse (tokens : List Token) :
    landmarks tokens.reverse = (landmarks tokens).reverse :=
  List.filterMap_reverse

namespace Scanner

/-- A token that is no landmark can be put anywhere. -/
theorem landmarks_insertAt (ht : t.landmark? = none) :
    landmarks (insertAt position t tokens) = landmarks tokens := by
  rw [insertAt]
  rw [landmarks_append, landmarks_cons, ht, Option.toList_none, List.nil_append,
    ← landmarks_append, List.take_append_drop]

/-! ### Blocks and candidates -/

theorem landmarks_closeBlocks (column : Nat) (blocks : List Nat) (tokens : List Token) :
    landmarks (closeBlocks column blocks tokens).2 = landmarks tokens ∧
      (0 ∈ blocks → 0 ∈ (closeBlocks column blocks tokens).1) := by
  induction blocks generalizing tokens with
  | nil => exact ⟨rfl, id⟩
  | cons block outer ih =>
    rw [closeBlocks]
    split
    · next hdeep =>
      obtain ⟨hlandmarks, hblocks⟩ := ih (.blockEnd :: tokens)
      refine ⟨by rw [hlandmarks, landmarks_cons]; rfl, fun h ↦ hblocks ?_⟩
      rcases List.mem_cons.1 h with rfl | h
      · exact absurd hdeep (Nat.not_lt_zero _)
      · exact h
    · exact ⟨rfl, id⟩

/-- The same place and the same depth of brackets, the same landmarks, and the outermost block is
not lost. -/
structure Alike (s s' : Scanner) : Prop where
  cursor : s'.cursor = s.cursor
  depth : s'.depth = s.depth
  landmarks : landmarks s'.tokens = landmarks s.tokens
  blocks : 0 ∈ s.blocks → 0 ∈ s'.blocks

theorem Alike.refl (s : Scanner) : Alike s s :=
  ⟨rfl, rfl, rfl, id⟩

theorem Alike.trans {s'' : Scanner} (h : Alike s s') (h' : Alike s' s'') : Alike s s'' :=
  ⟨h'.cursor.trans h.cursor, h'.depth.trans h.depth, h'.landmarks.trans h.landmarks,
    fun h₀ ↦ h'.blocks (h.blocks h₀)⟩

theorem alike_unwind (s : Scanner) : Alike s s.unwind := by
  unfold unwind
  split
  · exact .refl s
  · obtain ⟨hlandmarks, hblocks⟩ := landmarks_closeBlocks s.cursor.column s.blocks s.tokens
    exact ⟨rfl, rfl, hlandmarks, hblocks⟩

theorem alike_openBlock (ht : t.landmark? = none) : Alike s (s.openBlock t) := by
  unfold openBlock
  split
  · exact ⟨rfl, rfl, by simp [emit, landmarks_cons, ht], List.mem_cons_of_mem _⟩
  · exact .refl s

theorem alike_candidates (s : Scanner) (candidates : List Candidate) :
    Alike s { s with candidates := candidates } :=
  ⟨rfl, rfl, rfl, id⟩

theorem alike_keyAllowed (s : Scanner) (allowed : Bool) :
    Alike s { s with keyAllowed := allowed } :=
  ⟨rfl, rfl, rfl, id⟩

theorem exists_of_dropStale (h : s.dropStale = .ok s') :
    ∃ candidates, s' = { s with candidates := candidates } := by
  unfold dropStale at h
  dsimp only at h
  split at h
  · cases h
  · exact ⟨_, (Except.ok.inj h).symm⟩

theorem exists_of_dropCandidate (h : s.dropCandidate = .ok s') :
    ∃ candidates, s' = { s with candidates := candidates } := by
  unfold dropCandidate at h
  split at h
  · cases h
  · exact ⟨_, (Except.ok.inj h).symm⟩

theorem exists_of_saveCandidate (h : s.saveCandidate = .ok s') :
    ∃ candidates, s' = { s with candidates := candidates } := by
  unfold saveCandidate at h
  split at h
  · split at h
    · cases h
    · next s₁ hdrop =>
      obtain ⟨candidates, rfl⟩ := exists_of_dropCandidate hdrop
      exact ⟨_, (Except.ok.inj h).symm⟩
  · exact ⟨s.candidates, (Except.ok.inj h).symm⟩

theorem alike_of_dropCandidate (h : s.dropCandidate = .ok s') : Alike s s' := by
  obtain ⟨candidates, rfl⟩ := exists_of_dropCandidate h
  exact alike_candidates s candidates

/-! ### Signs -/

/-- A sign is passed over: no landmark is added, and the outermost block is not lost. -/
structure Passes (s s' : Scanner) : Prop where
  cursor : s'.cursor = s.cursor.skip 1
  landmarks : landmarks s'.tokens = landmarks s.tokens
  blocks : 0 ∈ s.blocks → 0 ∈ s'.blocks

/-- A token is added behind a state that is alike. -/
theorem Alike.passes {s₁ : Scanner} (h : Alike s s₁) (ht : t.landmark? = none) :
    Passes s ((s₁.emit t).skip 1) where
  cursor := by rw [skip, emit, h.cursor]
  landmarks := by simp [skip, emit, landmarks_cons, ht, h.landmarks]
  blocks := h.blocks

theorem passes_of_fetchOpening (ht : t.landmark? = none) (h : s.fetchOpening t = .ok s') :
    Passes s s' ∧ s'.depth = s.depth + 1 := by
  obtain ⟨s₁, hsave, h⟩ := bind_eq_ok_iff.1 h
  obtain rfl := Except.ok.inj h
  obtain ⟨candidates, rfl⟩ := exists_of_saveCandidate hsave
  have halike := alike_candidates s candidates
  have hpasses := halike.passes ht
  exact ⟨⟨hpasses.cursor, hpasses.landmarks, hpasses.blocks⟩, congrArg (· + 1) halike.depth⟩

theorem passes_of_fetchClosing (ht : t.landmark? = none) (h : s.fetchClosing t = .ok s') :
    Passes s s' := by
  unfold fetchClosing at h
  split at h
  · obtain ⟨s₁, hdrop, h⟩ := bind_eq_ok_iff.1 h
    obtain rfl := Except.ok.inj h
    have hpasses := (alike_of_dropCandidate hdrop).passes ht
    exact ⟨hpasses.cursor, hpasses.landmarks, hpasses.blocks⟩
  · cases h

theorem passes_of_fetchFlowEntry (h : s.fetchFlowEntry = .ok s') :
    Passes s s' ∧ s'.depth = s.depth := by
  obtain ⟨s₁, hdrop, h⟩ := bind_eq_ok_iff.1 h
  obtain rfl := Except.ok.inj h
  have halike : Alike s s₁ := (alike_keyAllowed s true).trans (alike_of_dropCandidate hdrop)
  exact ⟨halike.passes rfl, halike.depth⟩

/-- A sign that opens a block outside of brackets, and makes the candidate of this depth
forgotten. -/
theorem passes_of_opens {opening : Token} {allowed : Bool} (ho : opening.landmark? = none)
    (ht : t.landmark? = none)
    (h : (do
      let s₁ ← { (if s.inFlow then s else s.openBlock opening) with
        keyAllowed := allowed }.dropCandidate
      return (s₁.emit t).skip 1) = .ok s') :
    Passes s s' ∧ s'.depth = s.depth := by
  obtain ⟨s₁, hdrop, h⟩ := bind_eq_ok_iff.1 h
  obtain rfl := Except.ok.inj h
  have hopen : Alike s (if s.inFlow then s else s.openBlock opening) := by
    split
    · exact .refl s
    · exact alike_openBlock ho
  have halike := (hopen.trans (alike_keyAllowed _ allowed)).trans (alike_of_dropCandidate hdrop)
  exact ⟨halike.passes ht, halike.depth⟩

theorem passes_of_fetchBlockEntry (h : s.fetchBlockEntry = .ok s') :
    Passes s s' ∧ s'.depth = s.depth := by
  unfold fetchBlockEntry at h
  split at h
  · cases h
  · exact passes_of_opens rfl rfl h

theorem passes_of_fetchKey (h : s.fetchKey = .ok s') : Passes s s' ∧ s'.depth = s.depth := by
  unfold fetchKey at h
  split at h
  · cases h
  · exact passes_of_opens rfl rfl h

theorem passes_of_fetchValue (h : s.fetchValue = .ok s') :
    Passes s s' ∧ s'.depth = s.depth := by
  unfold fetchValue at h
  split at h
  · next candidate hfind =>
    obtain rfl := Except.ok.inj h
    refine ⟨⟨rfl, ?_, fun h ↦ ?_⟩, rfl⟩
    · dsimp only [skip, emit]
      rw [landmarks_cons]
      split
      · rw [landmarks_insertAt rfl, landmarks_insertAt rfl]
        rfl
      · rw [landmarks_insertAt rfl]
        rfl
    · dsimp only [skip, emit]
      split
      · exact List.mem_cons_of_mem _ h
      · exact h
  · split at h
    · cases h
    · exact passes_of_opens rfl rfl h

/-! ### Tokens -/

/-- What the scanner does where a token begins with the character `c`, in front of `rest`. -/
inductive Fetches (s : Scanner) (c : Char) (rest : Text) (s' : Scanner) : Prop
  | sign (hc : c ∈ "[]\x7b\x7d,-?:".toList) (hpasses : Passes s s')
    (hdepth : s.depth ≤ s'.depth ∨ c = ']' ∨ c = '\x7d')
  | mark (hc : c = '-' ∨ c = '.') (hmark : atDocumentMark (c :: rest) = true)
    (hcursor : s'.cursor = s.cursor.skip 3)
    (hlandmarks : landmarks s'.tokens = .mark :: landmarks s.tokens)
  | quoted (double : Bool) (text : Text) (hc : c = closingQuote double)
    (htext : quotedScalar double s.cursor.next = .ok (text, s'.cursor))
    (hlandmarks : landmarks s'.tokens = .scalar text :: landmarks s.tokens)
    (hblocks : s'.blocks = s.blocks) (hdepth : s'.depth = s.depth)
  | plain (hc : startsPlain s.inFlow c rest = true)
    (hcursor : s'.cursor = (plainScalar s.inFlow ((s.blocks.head?.map (· + 1)).getD 0)
      s.cursor).cursor)
    (hlandmarks : landmarks s'.tokens = .scalar (plainScalar s.inFlow
      ((s.blocks.head?.map (· + 1)).getD 0) s.cursor).text :: landmarks s.tokens)
    (hblocks : s'.blocks = s.blocks) (hdepth : s'.depth = s.depth)

theorem landmarks_unwindAll (s : Scanner) :
    s.unwindAll.cursor = s.cursor ∧ landmarks s.unwindAll.tokens = landmarks s.tokens := by
  unfold unwindAll
  split
  · exact ⟨rfl, rfl⟩
  · refine ⟨rfl, ?_⟩
    have hends : landmarks (s.blocks.map fun _ ↦ Token.blockEnd) = [] := by
      induction s.blocks with
      | nil => rfl
      | cons block blocks ih => rw [List.map_cons, landmarks_cons, ih]; rfl
    rw [landmarks_append, hends, List.nil_append]

theorem fetches_mark (hc : c = '-' ∨ c = '.') (hmark : atDocumentMark (c :: rest) = true)
    (ht : t.landmark? = some .mark) (h : s.fetchDocumentMark t = .ok s') :
    Fetches s c rest s' := by
  obtain ⟨s₁, hdrop, h⟩ := bind_eq_ok_iff.1 h
  obtain rfl := Except.ok.inj h
  obtain ⟨candidates, rfl⟩ := exists_of_dropCandidate hdrop
  obtain ⟨hcursor, hlandmarks⟩ := landmarks_unwindAll s
  refine .mark hc hmark (congrArg (Cursor.skip 3) hcursor) ?_
  simp [skip, emit, landmarks_cons, ht, hlandmarks]

theorem fetches_quoted (double : Bool) (hc : c = closingQuote double)
    (h : s.fetchQuoted double = .ok s') : Fetches s c rest s' := by
  obtain ⟨s₁, hsave, h⟩ := bind_eq_ok_iff.1 h
  obtain ⟨candidates, rfl⟩ := exists_of_saveCandidate hsave
  obtain ⟨⟨text, after⟩, hquoted, h⟩ := bind_eq_ok_iff.1 h
  obtain rfl := Except.ok.inj h
  exact .quoted double text hc hquoted rfl rfl rfl

theorem fetches_plain (hc : startsPlain s.inFlow c rest = true) (h : s.fetchPlain = .ok s') :
    Fetches s c rest s' := by
  obtain ⟨s₁, hsave, h⟩ := bind_eq_ok_iff.1 h
  obtain ⟨candidates, rfl⟩ := exists_of_saveCandidate hsave
  obtain rfl := Except.ok.inj h
  exact .plain hc rfl rfl rfl rfl

/-- A sign at the same depth of brackets. -/
theorem fetches_sign (hc : c ∈ "[]\x7b\x7d,-?:".toList) (h : Passes s s' ∧ s'.depth = s.depth) :
    Fetches s c rest s' :=
  .sign hc h.1 (.inl (Nat.le_of_eq h.2.symm))

theorem fetches_opening (hc : c ∈ "[]\x7b\x7d,-?:".toList)
    (h : Passes s s' ∧ s'.depth = s.depth + 1) : Fetches s c rest s' :=
  .sign hc h.1 (.inl (by omega))

/-- **One token is one of these.** -/
theorem fetches_of_fetchToken (h : s.fetchToken c rest = .ok s') : Fetches s c rest s' := by
  unfold fetchToken at h
  simp only [Bool.and_eq_true, decide_eq_true_eq] at h
  obtain ⟨-, h⟩ | ⟨-, h⟩ := ite_eq_iff.1 h
  · cases h
  obtain ⟨⟨⟨-, hc⟩, hmark⟩, h⟩ | ⟨-, h⟩ := ite_eq_iff.1 h
  · exact fetches_mark (.inl hc) hmark rfl h
  obtain ⟨⟨⟨-, hc⟩, hmark⟩, h⟩ | ⟨-, h⟩ := ite_eq_iff.1 h
  · exact fetches_mark (.inr hc) hmark rfl h
  obtain ⟨rfl, h⟩ | ⟨-, h⟩ := ite_eq_iff.1 h
  · exact fetches_opening (by decide) (passes_of_fetchOpening rfl h)
  obtain ⟨rfl, h⟩ | ⟨-, h⟩ := ite_eq_iff.1 h
  · exact fetches_opening (by decide) (passes_of_fetchOpening rfl h)
  obtain ⟨rfl, h⟩ | ⟨-, h⟩ := ite_eq_iff.1 h
  · exact .sign (by decide) (passes_of_fetchClosing rfl h) (.inr (.inl rfl))
  obtain ⟨rfl, h⟩ | ⟨-, h⟩ := ite_eq_iff.1 h
  · exact .sign (by decide) (passes_of_fetchClosing rfl h) (.inr (.inr rfl))
  obtain ⟨rfl, h⟩ | ⟨-, h⟩ := ite_eq_iff.1 h
  · exact fetches_sign (by decide) (passes_of_fetchFlowEntry h)
  obtain ⟨⟨rfl, -⟩, hstep⟩ | ⟨-, h⟩ := ite_eq_iff.1 h
  · exact fetches_sign (by decide) (passes_of_fetchBlockEntry hstep)
  obtain ⟨⟨rfl, -⟩, hstep⟩ | ⟨-, h⟩ := ite_eq_iff.1 h
  · exact fetches_sign (by decide) (passes_of_fetchKey hstep)
  obtain ⟨⟨rfl, -⟩, hstep⟩ | ⟨-, h⟩ := ite_eq_iff.1 h
  · exact fetches_sign (by decide) (passes_of_fetchValue hstep)
  obtain ⟨hc, h⟩ | ⟨-, h⟩ := ite_eq_iff.1 h
  · exact fetches_quoted false hc h
  obtain ⟨hc, h⟩ | ⟨-, h⟩ := ite_eq_iff.1 h
  · exact fetches_quoted true hc h
  obtain ⟨hc, h⟩ | ⟨-, h⟩ := ite_eq_iff.1 h
  · exact fetches_plain hc h
  · cases h

/-- A plain scalar begins with a word, and not with a quote. -/
theorem plainWord_ne_nil_of_startsPlain {flow : Bool} (h : startsPlain flow c rest = true) :
    plainWord flow (c :: rest) ≠ [] ∧ c ≠ '"' ∧ c ≠ '\n' := by
  simp only [startsPlain, Bool.or_eq_true, Bool.not_eq_true', Bool.or_eq_false_iff,
    Bool.and_eq_true, decide_eq_true_eq] at h
  rcases h with ⟨hseparator, hindicator⟩ | ⟨hrest, rfl | ⟨rfl, rfl | rfl⟩⟩
  · have hnot : ∀ d, isIndicator d = true → c ≠ d := by
      rintro d hd rfl
      rw [hindicator] at hd
      cases hd
    refine ⟨?_, hnot _ rfl, ?_⟩
    · simp [plainWord, hseparator, isFlowIndicator, hnot ':' rfl, hnot ',' rfl, hnot '[' rfl,
        hnot ']' rfl, hnot '\x7b' rfl, hnot '\x7d' rfl, hnot '?' rfl]
    · rintro rfl
      cases hseparator
  · simp [plainWord, isSeparator, isBreak, isFlowIndicator]
  · simp [plainWord, isSeparator, isBreak]
  · cases rest with
    | nil => cases hrest
    | cons d rest =>
      have hd : isSeparator d = false := hrest
      have hcolon : isSeparator ':' = false := rfl
      simp [plainWord, endsAtColon, hcolon, hd]

/-! ### Gaps -/

/-- The place behind the blanks and the comment of a line. -/
def lineEnd (k : Cursor) : Cursor :=
  let spaces := (k.takeWhile (· = ' ')).2
  if spaces.rest.head? = some '#' then (spaces.takeWhile fun c ↦ !isBreak c).2 else spaces

/-- **What a gap is**: the rest of a line, and the gap behind it if the line ends there. -/
theorem skipGaps_eq (s : Scanner) :
    s.skipGaps =
      match (lineEnd s.cursor).lineBreak? with
      | none => { s with cursor := lineEnd s.cursor }
      | some (_, after) =>
        skipGaps { s with cursor := after, keyAllowed := s.keyAllowed || !s.inFlow } := by
  rw [skipGaps]
  have hend : lineEnd s.cursor =
      if (s.cursor.takeWhile (· = ' ')).2.rest.head? = some '#' then
        ((s.cursor.takeWhile (· = ' ')).2.takeWhile fun c ↦ !isBreak c).2
      else (s.cursor.takeWhile (· = ' ')).2 := rfl
  rw [hend]
  split <;> simp_all

/-- No gap begins where something else does. -/
theorem skipGaps_eq_self (h : ∀ c ∈ s.cursor.rest.head?, isSeparator c = false ∧ c ≠ '#') :
    s.skipGaps = s := by
  have hhead : ∀ c ∈ s.cursor.rest.head?, c ≠ ' ' ∧ isBreak c = false := by
    intro c hc
    have hseparator := (h c hc).1
    simp only [isSeparator, Bool.or_eq_false_iff, decide_eq_false_iff_not] at hseparator
    exact ⟨hseparator.1.1, hseparator.2⟩
  have hend : lineEnd s.cursor = s.cursor := by
    have hspaces : s.cursor.takeWhile (· = ' ') = ([], s.cursor) :=
      Cursor.takeWhile_of_head fun c hc ↦ by simpa using (hhead c hc).1
    have hcomment : s.cursor.rest.head? ≠ some '#' := fun hc ↦ (h '#' hc).2 rfl
    simp [lineEnd, hspaces, hcomment]
  have hnone : s.cursor.lineBreak? = none :=
    Cursor.lineBreak_eq_none_iff.2 fun c hc ↦ (hhead c hc).2
  rw [skipGaps_eq, hend, hnone]

theorem skipGaps_of_cons (hs : s.cursor.rest = c :: rest) (hseparator : isSeparator c = false)
    (hcomment : c ≠ '#') : s.skipGaps = s :=
  skipGaps_eq_self (by simpa [hs] using ⟨hseparator, hcomment⟩)

theorem rest_lineEnd_isSuffix (k : Cursor) : (lineEnd k).rest <:+ k.rest := by
  have htake : ∀ (k : Cursor) p, (k.takeWhile p).2.rest <:+ k.rest := fun k p ↦ by
    rw [Cursor.rest_takeWhile]
    exact List.dropWhile_suffix p
  unfold lineEnd
  dsimp only
  split
  · exact (htake _ _).trans (htake _ _)
  · exact htake _ _

/-- The rest of a line does not reach over a line feed. -/
theorem exists_lineEnd (hk : k.rest = x ++ '\n' :: tail) :
    ∃ y, (lineEnd k).rest = y ++ '\n' :: tail := by
  have htake : ∀ (k : Cursor) (p : Char → Bool) (x : Text), p '\n' = false →
      k.rest = x ++ '\n' :: tail → ∃ y, (k.takeWhile p).2.rest = y ++ '\n' :: tail := by
    intro k p x hp hk
    rw [Cursor.rest_takeWhile, hk]
    clear hk
    induction x with
    | nil => exact ⟨[], by simp [hp]⟩
    | cons c x ih =>
      cases hc : p c with
      | true => simpa [hc] using ih
      | false => exact ⟨c :: x, by simp [hc]⟩
  obtain ⟨y, hy⟩ := htake k (· = ' ') x rfl hk
  unfold lineEnd
  dsimp only
  split
  · exact htake _ _ y rfl hy
  · exact ⟨y, hy⟩

/-- Passing over a gap changes the place only. -/
theorem exists_skipGaps (s : Scanner) :
    ∃ cursor allowed, s.skipGaps = { s with cursor := cursor, keyAllowed := allowed } ∧
      cursor.rest <:+ s.cursor.rest := by
  induction hn : s.cursor.rest.length using Nat.strongRecOn generalizing s with
  | ind n ih =>
    rw [skipGaps_eq]
    have hend := rest_lineEnd_isSuffix s.cursor
    split
    · exact ⟨_, s.keyAllowed, rfl, hend⟩
    · next b after hb =>
      obtain ⟨breaks, hbreaks, -, -, -, -⟩ := Cursor.exists_of_lineBreak hb
      have hafter : after.rest <:+ s.cursor.rest := .trans ⟨breaks, hbreaks.symm⟩ hend
      have hless : after.rest.length < n :=
        hn ▸ Nat.lt_of_lt_of_le (Cursor.lineBreak_length hb) hend.length_le
      obtain ⟨cursor, allowed, heq, hsuffix⟩ := ih _ hless
        { s with cursor := after, keyAllowed := s.keyAllowed || !s.inFlow } rfl
      exact ⟨cursor, allowed, heq, hsuffix.trans hafter⟩

/-! ### Steps and runs -/

/-- **A step is a gap and a token behind it.** -/
theorem exists_of_fetch (h : s.fetch = .ok (some s')) :
    ∃ s₀ c rest, Alike { s with cursor := s.skipGaps.cursor } s₀ ∧ s₀.cursor.rest = c :: rest ∧
      Fetches s₀ c rest s' := by
  obtain ⟨s₁, hstale, h⟩ := bind_eq_ok_iff.1 h
  obtain ⟨candidates, rfl⟩ := exists_of_dropStale hstale
  obtain ⟨cursor, allowed, hgaps, -⟩ := exists_skipGaps s
  rw [hgaps] at h
  have halike : Alike { s with cursor := s.skipGaps.cursor }
      (unwind { s with cursor := cursor, keyAllowed := allowed, candidates := candidates }) := by
    refine .trans ?_ (alike_unwind _)
    exact ⟨by rw [hgaps], rfl, rfl, id⟩
  dsimp only at h
  split at h
  · cases h
  · next c rest hrest =>
    obtain ⟨s₂, htoken, h⟩ := bind_eq_ok_iff.1 h
    obtain rfl := Option.some.inj (Except.ok.inj h)
    exact ⟨_, c, rest, halike, hrest, fetches_of_fetchToken htoken⟩

/-- No step is left at the end of the text. -/
theorem rest_of_fetch_eq_none (h : s.fetch = .ok none) : s.skipGaps.cursor.rest = [] := by
  obtain ⟨s₁, hstale, h⟩ := bind_eq_ok_iff.1 h
  obtain ⟨candidates, rfl⟩ := exists_of_dropStale hstale
  dsimp only at h
  split at h
  · next hrest => rwa [(alike_unwind _).cursor] at hrest
  · obtain ⟨s₂, -, h⟩ := bind_eq_ok_iff.1 h
    cases h

/-- At the end, no landmark is added, and no bracket is open. -/
theorem landmarks_of_finish (h : s.finish = .ok tokens) :
    landmarks tokens = (landmarks s.tokens).reverse ∧ s.depth = 0 := by
  obtain ⟨s₁, hstale, h⟩ := bind_eq_ok_iff.1 h
  obtain ⟨candidates, rfl⟩ := exists_of_dropStale hstale
  obtain ⟨cursor, allowed, hgaps, -⟩ := exists_skipGaps s
  rw [hgaps] at h
  split at h
  · cases h
  · next hflow =>
    obtain ⟨s₂, hdrop, h⟩ := bind_eq_ok_iff.1 h
    obtain ⟨candidates, rfl⟩ := exists_of_dropCandidate hdrop
    obtain rfl := Except.ok.inj h
    refine ⟨?_, by simpa [inFlow] using hflow⟩
    rw [landmarks_reverse, (landmarks_unwindAll _).2]

/-- The landmarks of a run are those that are there and some new ones. -/
def Adds (s : Scanner) (tokens : List Token) (new : List Landmark) : Prop :=
  landmarks tokens = (landmarks s.tokens).reverse ++ new

theorem Adds.of_eq {new : List Landmark} (h : Adds s' tokens new)
    (heq : landmarks s'.tokens = landmarks s.tokens) : Adds s tokens new := by
  rw [Adds, h, heq]

theorem Adds.cons {new : List Landmark} {l : Landmark} (h : Adds s' tokens new)
    (heq : landmarks s'.tokens = l :: landmarks s.tokens) : Adds s tokens (l :: new) := by
  rw [Adds, h, heq]
  simp

theorem Adds.nil_of_finish (h : s.finish = .ok tokens) : Adds s tokens [] := by
  rw [Adds, (landmarks_of_finish h).1, List.append_nil]

/-- **A run is a step and a run behind it**, or its end. -/
theorem run_cases (h : s.run = .ok tokens) :
    s.fetch = .ok none ∧ s.finish = .ok tokens ∨
      ∃ s', s.fetch = .ok (some s') ∧ s'.cursor.rest.length < s.cursor.rest.length ∧
        s'.run = .ok tokens := by
  rw [run] at h
  split at h
  · cases h
  · next hfetch => exact .inl ⟨hfetch, h⟩
  · next s' hfetch =>
    split at h
    · next hless => exact .inr ⟨s', hfetch, hless, h⟩
    · cases h

/-- Every run adds some landmarks. -/
theorem exists_adds (h : s.run = .ok tokens) : ∃ new, Adds s tokens new := by
  induction hn : s.cursor.rest.length using Nat.strongRecOn generalizing s with
  | ind n ih =>
    rcases run_cases h with ⟨-, hfinish⟩ | ⟨s', hfetch, hless, hrun⟩
    · exact ⟨[], .nil_of_finish hfinish⟩
    · obtain ⟨new, hnew⟩ := ih _ (hn ▸ hless) hrun rfl
      obtain ⟨s₀, c, rest, halike, -, hfetches⟩ := exists_of_fetch hfetch
      cases hfetches with
      | sign _ hpasses _ => exact ⟨new, hnew.of_eq (hpasses.landmarks.trans halike.landmarks)⟩
      | mark _ _ _ hlandmarks =>
        exact ⟨_, hnew.cons (hlandmarks.trans (congrArg _ halike.landmarks))⟩
      | quoted _ _ _ _ hlandmarks _ _ =>
        exact ⟨_, hnew.cons (hlandmarks.trans (congrArg _ halike.landmarks))⟩
      | plain _ _ hlandmarks _ _ =>
        exact ⟨_, hnew.cons (hlandmarks.trans (congrArg _ halike.landmarks))⟩

end Scanner

end Yaml

end YulPlus
