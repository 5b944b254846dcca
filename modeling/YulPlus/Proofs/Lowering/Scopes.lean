import YulPlus.Lowering.Segment
import YulPlus.Proofs.Lowering.Nesting

/-!
# Scopes and places

A scope is an outermost block: any brace block in a source without objects, a block right behind the
keyword `code` in a source with objects. What is written here is a property of a place in the token
list, and no walk over it:

* a place, given by the tokens in front of it and those behind it, is `Inside` such a block;
* a block is a scope (`IsScope`) if the place in front of it is inside of no other.

The segments that lowering works on come out of one walk from the front. `Segmented` describes this
walk (`ofTokens_eq_ok_iff`), and its scopes are the scopes above: a place is inside a block if and
only if it falls into a segment that is a scope (`Segmented.inside_iff`), and the blocks that are
scopes are exactly these segments (`Segmented.isScope_iff`).

The one argument behind both is that blocks do not cross. A block that opens inside a well-nested
list closes inside of it (`WellNested.partner_inside`), so a block that begins in a list with a
block at its front is that block, or lies within it, or behind it (`block_cases`). -/

namespace YulPlus

/-! ### Places -/

/-- A block with the tokens in front of it, of the kind that scopes are made of: with objects the
keyword `code` stands before it. -/
structure IsBlock (objects : Bool) (before : List Token) (o : Token) (inner : List Token)
    (c : Token) : Prop where
  opening : o.kind = .openBrace
  wellNested : WellNested inner
  closing : c.kind = .closeBrace
  code : objects = true → ∃ k ∈ before.getLast?, k.kind = .codeWord

/-- The place between `front` and `back` lies inside a block. -/
def Inside (objects : Bool) (front back : List Token) : Prop :=
  ∃ before o inner₁ inner₂ c after, front = before ++ o :: inner₁ ∧ back = inner₂ ++ c :: after ∧
    IsBlock objects before o (inner₁ ++ inner₂) c

/-- A block that lies in no other. -/
def IsScope (objects : Bool) (before : List Token) (o : Token) (inner : List Token) (c : Token)
    (after : List Token) : Prop :=
  IsBlock objects before o inner c ∧ ¬ Inside objects before (o :: inner ++ c :: after)

/-- The place between `front` and `back` lies inside a scope. -/
def InScope (objects : Bool) (front back : List Token) : Prop :=
  ∃ before o inner₁ inner₂ c after, front = before ++ o :: inner₁ ∧ back = inner₂ ++ c :: after ∧
    IsScope objects before o (inner₁ ++ inner₂) c after

/-! ### The walk -/

/-- The tokens of some segments. -/
def Segment.tokensOf (segs : List Segment) : List Token :=
  segs.flatMap Segment.tokens

/-- Walking over a token list from the front, these segments are cut off and a rest is left. -/
inductive Walked (objects : Bool) (rest : List Token) : List Token → List Segment → Prop
  | stop : Walked objects rest rest []
  | outside {t : Token} {ts : List Token} {segs : List Segment}
      (ht : if objects then t.kind ≠ .codeWord else t.kind ≠ .openBrace)
      (hts : Walked objects rest ts segs) : Walked objects rest (t :: ts) (.outside t :: segs)
  | code {k o c : Token} {inner ts : List Token} {segs : List Segment} (hobjects : objects = true)
      (hk : k.kind = .codeWord) (ho : o.kind = .openBrace) (hinner : WellNested inner)
      (hc : c.kind = .closeBrace) (hts : Walked objects rest ts segs) :
      Walked objects rest (k :: o :: (inner ++ c :: ts)) (.outside k :: .scope o inner c :: segs)
  | block {o c : Token} {inner ts : List Token} {segs : List Segment} (hobjects : objects = false)
      (ho : o.kind = .openBrace) (hinner : WellNested inner) (hc : c.kind = .closeBrace)
      (hts : Walked objects rest ts segs) :
      Walked objects rest (o :: (inner ++ c :: ts)) (.scope o inner c :: segs)

/-- The whole token list consists of these segments. -/
abbrev Segmented (objects : Bool) (tokens : List Token) (segs : List Segment) : Prop :=
  Walked objects [] tokens segs

section Walk

variable {objects : Bool} {tokens rest : List Token} {segs : List Segment}

theorem ClosesSome.exists_block {o : Token} {ts : List Token} (h : ClosesSome (o :: ts))
    (ho : o.kind = .openBrace) : ∃ inner c after, ts = inner ++ c :: after ∧ WellNested inner ∧
      c.kind = .closeBrace ∧ ClosesSome after := by
  obtain ⟨inner, c, after, rfl, hinner, hc⟩ :=
    h.exists_partner (by simp [ho, TokenKind.isOpening])
  rw [ho, TokenKind.opening?_eq_openBrace] at hc
  exact ⟨inner, c, after, rfl, hinner, hc, h.tail.of_append.tail⟩

/-- The block that counting braces finds behind an opening brace. -/
theorem ClosesSome.of_closeBlock {o c : Token} {ts inner after : List Token}
    (h : ClosesSome (o :: ts)) (ho : o.kind = .openBrace)
    (hblock : closeBlock 0 ts = some (inner, c, after)) :
    ts = inner ++ c :: after ∧ WellNested inner ∧ c.kind = .closeBrace ∧ ClosesSome after := by
  obtain ⟨inner', c', after', rfl, hinner, hc, hafter⟩ := h.exists_block ho
  rw [closeBlock_of_wellNested hinner hc] at hblock
  obtain ⟨⟩ := hblock
  exact ⟨rfl, hinner, hc, hafter⟩

theorem segmented_of_ofTokens (h : ClosesSome tokens)
    (hsegs : Segment.ofTokens objects tokens = .ok segs) : Segmented objects tokens segs := by
  fun_induction Segment.ofTokens objects tokens generalizing segs with
  | case1 =>
    cases hsegs
    exact .stop
  | case2 | case3 | case4 | case6 | case7 | case8 | case10 => cases hsegs
  | case5 t hcode o inside ho inner c after hblock segs' hrest ih =>
    cases hsegs
    simp only [Bool.and_eq_true, decide_eq_true_eq] at hcode
    obtain ⟨rfl, hinner, hc, hafter⟩ := h.tail.of_closeBlock ho hblock
    exact .code hcode.1 hcode.2 ho hinner hc (ih hafter hrest)
  | case9 t rest _ ho inner c after hblock segs' hrest ih =>
    cases hsegs
    simp only [Bool.and_eq_true, Bool.not_eq_true', decide_eq_true_eq] at ho
    obtain ⟨rfl, hinner, hc, hafter⟩ := h.of_closeBlock ho.2 hblock
    exact .block ho.1 ho.2 hinner hc (ih hafter hrest)
  | case11 t rest hcode ho segs' hrest ih =>
    cases hsegs
    refine .outside ?_ (ih h.tail hrest)
    cases objects <;> simp_all

/-- What has been cut off stands in front of what is cut off from the rest. -/
theorem Walked.ofTokens_eq (h : Walked objects rest tokens segs) :
    Segment.ofTokens objects tokens = (Segment.ofTokens objects rest).map (segs ++ ·) := by
  induction h with
  | stop => cases Segment.ofTokens objects rest <;> rfl
  | @outside t ts segs ht _ ih =>
    rw [Segment.ofTokens.eq_def objects (t :: ts)]
    dsimp only
    rw [if_neg (by cases objects <;> simp_all), if_neg (by cases objects <;> simp_all), ih]
    cases Segment.ofTokens objects rest <;> rfl
  | @code k o c inner ts segs hobjects hk ho hinner hc _ ih =>
    have hblock : closeBlock 0 (inner ++ c :: ts) = some (inner, c, ts) :=
      closeBlock_of_wellNested hinner hc
    rw [Segment.ofTokens.eq_def objects (k :: _)]
    dsimp only
    rw [if_pos (by simp [hobjects, hk]), if_pos ho]
    split
    · simp_all
    · rename_i heq
      rw [hblock] at heq
      obtain ⟨⟩ := heq
      rw [ih]
      cases Segment.ofTokens objects rest <;> rfl
  | @block o c inner ts segs hobjects ho hinner hc _ ih =>
    have hblock : closeBlock 0 (inner ++ c :: ts) = some (inner, c, ts) :=
      closeBlock_of_wellNested hinner hc
    rw [Segment.ofTokens.eq_def objects (o :: _)]
    dsimp only
    rw [if_neg (by simp [hobjects]), if_pos (by simp [hobjects, ho])]
    split
    · simp_all
    · rename_i heq
      rw [hblock] at heq
      obtain ⟨⟩ := heq
      rw [ih]
      cases Segment.ofTokens objects rest <;> rfl

/-- **The walk** over a whole list finds exactly its segments. -/
theorem ofTokens_eq_ok_iff (h : ClosesSome tokens) :
    Segment.ofTokens objects tokens = .ok segs ↔ Segmented objects tokens segs := by
  refine ⟨segmented_of_ofTokens h, fun hsegs ↦ ?_⟩
  rw [hsegs.ofTokens_eq, Segment.ofTokens]
  simp [Except.map]

/-- The walk goes on up to the end, or up to a keyword `code` without a block. -/
theorem exists_walked (h : ClosesSome tokens) :
    ∃ rest segs, Walked objects rest tokens segs ∧ (rest = [] ∨ objects = true ∧
      ∃ k tail, rest = k :: tail ∧ k.kind = .codeWord ∧ ∀ o ∈ tail.head?, o.kind ≠ .openBrace) := by
  induction hn : tokens.length using Nat.strongRecOn generalizing tokens with
  | ind n ih =>
    subst hn
    rcases tokens with - | ⟨t, ts⟩
    · exact ⟨[], [], .stop, .inl rfl⟩
    by_cases hcode : objects = true ∧ t.kind = .codeWord
    · by_cases hbrace : ∃ o inside, ts = o :: inside ∧ o.kind = .openBrace
      · obtain ⟨o, inside, rfl, ho⟩ := hbrace
        obtain ⟨inner, c, after, rfl, hinner, hc, hafter⟩ := h.tail.exists_block ho
        obtain ⟨rest, segs, hsegs, hrest⟩ := ih after.length (by simp; omega) hafter rfl
        exact ⟨rest, _, .code hcode.1 hcode.2 ho hinner hc hsegs, hrest⟩
      · refine ⟨t :: ts, [], .stop, .inr ⟨hcode.1, t, ts, rfl, hcode.2, ?_⟩⟩
        intro o ho hkind
        obtain ⟨inside, rfl⟩ := List.head?_eq_some_iff.1 ho
        exact hbrace ⟨o, inside, rfl, hkind⟩
    · by_cases hblock : objects = false ∧ t.kind = .openBrace
      · obtain ⟨inner, c, after, rfl, hinner, hc, hafter⟩ := h.exists_block hblock.2
        obtain ⟨rest, segs, hsegs, hrest⟩ := ih after.length (by simp; omega) hafter rfl
        exact ⟨rest, _, .block hblock.1 hblock.2 hinner hc hsegs, hrest⟩
      · obtain ⟨rest, segs, hsegs, hrest⟩ := ih ts.length (by simp) h.tail rfl
        refine ⟨rest, _, .outside ?_ hsegs, hrest⟩
        cases objects <;> simp_all

end Walk

/-! ### Blocks do not cross -/

/-- A block that opens inside a well-nested list closes inside of it. -/
theorem WellNested.partner_inside {before ts after inner rest : List Token} {o c : Token}
    (h : WellNested (before ++ o :: ts)) (ho : o.kind = .openBrace) (hinner : WellNested inner)
    (hc : c.kind = .closeBrace) (heq : ts ++ rest = inner ++ c :: after) :
    ∃ a, ts = inner ++ c :: a ∧ after = a ++ rest := by
  obtain ⟨inner', c', a, rfl, hinner', hc', -⟩ := h.closesSome.of_append.exists_block ho
  rw [List.append_assoc, List.cons_append] at heq
  obtain ⟨rfl, rfl, rfl⟩ := hinner'.partner_unique hinner (by simp [hc', TokenKind.opening?])
    (by simp [hc, TokenKind.opening?]) heq
  exact ⟨a, rfl, rfl⟩

/-- A block in a list with a block at its front is that block, or lies in it, or behind it. -/
theorem block_cases {o c o' c' : Token} {inner ts before inner' after : List Token}
    (hinner : WellNested inner) (hc : c.kind = .closeBrace) (ho' : o'.kind = .openBrace)
    (hinner' : WellNested inner') (hc' : c'.kind = .closeBrace)
    (heq : o :: (inner ++ c :: ts) = before ++ o' :: (inner' ++ c' :: after)) :
    (before = [] ∧ o = o' ∧ inner = inner' ∧ c = c' ∧ ts = after) ∨
    (∃ b a, before = o :: b ∧ inner = b ++ o' :: (inner' ++ c' :: a) ∧ after = a ++ c :: ts) ∨
    (∃ b, before = o :: (inner ++ c :: b) ∧ ts = b ++ o' :: (inner' ++ c' :: after)) := by
  have hclose : c.kind.opening? ≠ none := by simp [hc, TokenKind.opening?]
  have hclose' : c'.kind.opening? ≠ none := by simp [hc', TokenKind.opening?]
  rcases before with - | ⟨b₀, b⟩
  · obtain ⟨rfl, htail⟩ := List.cons.inj heq
    obtain ⟨rfl, rfl, rfl⟩ := hinner.partner_unique hinner' hclose hclose' htail
    exact .inl ⟨rfl, rfl, rfl, rfl, rfl⟩
  · obtain ⟨rfl, htail⟩ := List.cons.inj heq
    -- the second block opens behind the first one, or in its inside
    rcases List.append_eq_append_iff.1 htail with ⟨as, rfl, has⟩ | ⟨as, rfl, has⟩
    · rcases as with - | ⟨a₀, as⟩
      · obtain ⟨rfl, -⟩ := List.cons.inj has
        rw [hc] at ho'
        cases ho'
      · obtain ⟨rfl, rfl⟩ := List.cons.inj has
        exact .inr (.inr ⟨as, rfl, rfl⟩)
    · rcases as with - | ⟨a₀, as⟩
      · obtain ⟨rfl, -⟩ := List.cons.inj has
        rw [hc] at ho'
        cases ho'
      · obtain ⟨rfl, hinside⟩ := List.cons.inj has
        obtain ⟨a, rfl, rfl⟩ := hinner.partner_inside ho' hinner' hc' hinside.symm
        exact .inr (.inl ⟨b, a, rfl, rfl, rfl⟩)

/-! ### Blocks and segments -/

section Blocks

variable {objects : Bool} {tokens rest before front back inner after : List Token} {o c t : Token}
  {segs : List Segment}

theorem Walked.tokensOf_append (h : Walked objects rest tokens segs) :
    Segment.tokensOf segs ++ rest = tokens := by
  induction h with
  | stop => rfl
  | outside _ _ ih => rw [← ih]; rfl
  | code _ _ _ _ _ _ ih | block _ _ _ _ _ ih =>
    rw [← ih]
    simp [Segment.tokensOf, Segment.tokens]

/-- Only the token right before a block tells whether it is one of the kind that scopes are. -/
theorem IsBlock.of_append_cons {a : List Token} (h : IsBlock objects (a ++ t :: before) o inner c)
    (ht : objects = true → t.kind ≠ .codeWord) : IsBlock objects before o inner c := by
  refine { h with code := fun hobjects ↦ ?_ }
  obtain ⟨k, hk, hcode⟩ := h.code hobjects
  rcases before with - | ⟨b₀, b⟩
  · simp at hk
    subst hk
    exact absurd hcode (ht hobjects)
  · exact ⟨k, by simpa [List.getLast?_cons] using hk, hcode⟩

theorem IsBlock.append_left (a : List Token) (h : IsBlock objects before o inner c) :
    IsBlock objects (a ++ before) o inner c := by
  refine { h with code := fun hobjects ↦ ?_ }
  obtain ⟨k, hk, hcode⟩ := h.code hobjects
  exact ⟨k, by simp_all, hcode⟩

/-- The block with `before` in front of it and `after` behind it is a scope among the segments, or
lies in one. -/
def Covers (segs : List Segment) (rest before : List Token) (o : Token) (inner : List Token)
    (c : Token) (after : List Token) : Prop :=
  ∃ segs₁ o₀ inner₀ c₀ segs₂, segs = segs₁ ++ .scope o₀ inner₀ c₀ :: segs₂ ∧
    ((before = Segment.tokensOf segs₁ ∧ o = o₀ ∧ inner = inner₀ ∧ c = c₀ ∧
        after = Segment.tokensOf segs₂ ++ rest) ∨
      ∃ b a, before = Segment.tokensOf segs₁ ++ o₀ :: b ∧ inner₀ = b ++ o :: (inner ++ c :: a) ∧
        after = a ++ c₀ :: (Segment.tokensOf segs₂ ++ rest))

theorem Covers.cons (seg : Segment) (h : Covers segs rest before o inner c after) :
    Covers (seg :: segs) rest (seg.tokens ++ before) o inner c after := by
  obtain ⟨segs₁, o₀, inner₀, c₀, segs₂, rfl, hcases⟩ := h
  refine ⟨seg :: segs₁, o₀, inner₀, c₀, segs₂, rfl, ?_⟩
  rcases hcases with ⟨rfl, h⟩ | ⟨b, a, rfl, h⟩
  · exact .inl ⟨rfl, h⟩
  · exact .inr ⟨b, a, by simp [Segment.tokensOf], h⟩

/-- The block that makes up a segment. -/
theorem covers_self (inner : List Token) (o c : Token) (segs : List Segment) (rest : List Token) :
    Covers (.scope o inner c :: segs) rest [] o inner c (Segment.tokensOf segs ++ rest) :=
  ⟨[], o, inner, c, segs, rfl, .inl ⟨rfl, rfl, rfl, rfl, rfl⟩⟩

/-- A block inside a segment. -/
theorem covers_inside {b a : List Token} {o₀ c₀ : Token} :
    Covers (.scope o₀ (b ++ o :: (inner ++ c :: a)) c₀ :: segs) rest (o₀ :: b) o inner c
      (a ++ c₀ :: (Segment.tokensOf segs ++ rest)) :=
  ⟨[], o₀, _, c₀, segs, rfl, .inr ⟨b, a, rfl, rfl, rfl⟩⟩

/-- Blocks in a list with a segment at its front, if those behind it are covered. -/
theorem covers_of_front {pre ts inner' : List Token} {o' c' : Token}
    (hts : Walked objects rest ts segs) (hinner' : WellNested inner') (hc' : c'.kind = .closeBrace)
    (hb : IsBlock objects (pre ++ before) o inner c)
    (heq : o' :: (inner' ++ c' :: ts) = before ++ o :: (inner ++ c :: after))
    (ih : ∀ {before}, IsBlock objects before o inner c →
      ts = before ++ o :: (inner ++ c :: after) →
      Covers segs rest before o inner c after ∨ ∃ b, before = Segment.tokensOf segs ++ b) :
    Covers (.scope o' inner' c' :: segs) rest before o inner c after ∨
      ∃ b, before = Segment.tokensOf (.scope o' inner' c' :: segs) ++ b := by
  have htokens := hts.tokensOf_append
  rcases block_cases hinner' hc' hb.opening hb.wellNested hb.closing heq with
    ⟨rfl, rfl, rfl, rfl, rfl⟩ | ⟨b, a, rfl, rfl, rfl⟩ | ⟨b, rfl, htail⟩
  · rw [← htokens]
    exact .inl (covers_self inner' o' c' segs rest)
  · rw [← htokens]
    exact .inl covers_inside
  · have hb' : IsBlock objects ((pre ++ o' :: inner') ++ c' :: b) o inner c := by simpa using hb
    rcases ih (hb'.of_append_cons fun _ ↦ by simp [hc']) htail with hcovers | ⟨b', rfl⟩
    · refine .inl ?_
      have := hcovers.cons (.scope o' inner' c')
      simpa [Segment.tokens] using this
    · exact .inr ⟨b', by simp [Segment.tokensOf, Segment.tokens]⟩

/-- **Every block is found**: it is covered by the segments that the walk has cut off, or it begins
in the rest. -/
theorem Walked.covers (h : Walked objects rest tokens segs)
    (hb : IsBlock objects before o inner c) (heq : tokens = before ++ o :: (inner ++ c :: after)) :
    Covers segs rest before o inner c after ∨ ∃ b, before = Segment.tokensOf segs ++ b := by
  induction h generalizing before with
  | stop => exact .inr ⟨before, rfl⟩
  | @outside t ts segs ht _ ih =>
    rcases before with - | ⟨b₀, b⟩
    · obtain ⟨rfl, -⟩ := List.cons.inj heq
      have hopening := hb.opening
      have hcode := hb.code
      cases objects <;> simp_all
    · obtain ⟨rfl, htail⟩ := List.cons.inj heq
      have hb' : IsBlock objects ([] ++ t :: b) o inner c := hb
      rcases ih (hb'.of_append_cons fun hobjects ↦ by simpa [hobjects] using ht) htail with
        hcovers | ⟨b', rfl⟩
      · exact .inl (hcovers.cons (.outside t))
      · exact .inr ⟨b', rfl⟩
  | @code k o' c' inner' ts segs hobjects hk ho hinner hc hts ih =>
    rcases before with - | ⟨b₀, b⟩
    · obtain ⟨k, hk, -⟩ := hb.code hobjects
      cases hk
    · obtain ⟨rfl, htail⟩ := List.cons.inj heq
      have hb' : IsBlock objects ([k] ++ b) o inner c := hb
      rcases covers_of_front hts hinner hc hb' htail ih with hcovers | ⟨b', rfl⟩
      · exact .inl (hcovers.cons (.outside k))
      · exact .inr ⟨b', rfl⟩
  | @block o' c' inner' ts segs hobjects ho hinner hc hts ih =>
    have hb' : IsBlock objects ([] ++ before) o inner c := hb
    exact covers_of_front hts hinner hc hb' heq ih

/-- The segments that are scopes are blocks. -/
theorem Walked.isBlock {segs₁ segs₂ : List Segment} (h : Walked objects rest tokens segs)
    (hsegs : segs = segs₁ ++ .scope o inner c :: segs₂) :
    IsBlock objects (Segment.tokensOf segs₁) o inner c := by
  induction h generalizing segs₁ with
  | stop => simp at hsegs
  | @outside t ts segs _ _ ih =>
    rcases segs₁ with - | ⟨seg, segs₁⟩
    · cases hsegs
    · obtain ⟨rfl, htail⟩ := List.cons.inj hsegs
      exact (ih htail).append_left [t]
  | @code k o' c' inner' ts segs hobjects hk ho hinner hc hts ih =>
    rcases segs₁ with - | ⟨seg, - | ⟨seg', segs₁⟩⟩
    · cases hsegs
    · obtain ⟨rfl, htail⟩ := List.cons.inj hsegs
      obtain ⟨⟨⟩, -⟩ := List.cons.inj htail
      exact ⟨ho, hinner, hc, fun _ ↦ ⟨k, rfl, hk⟩⟩
    · obtain ⟨rfl, htail⟩ := List.cons.inj hsegs
      obtain ⟨rfl, hlast⟩ := List.cons.inj htail
      have := (ih hlast).append_left (k :: o' :: (inner' ++ [c']))
      simpa [Segment.tokensOf, Segment.tokens] using this
  | @block o' c' inner' ts segs hobjects ho hinner hc hts ih =>
    rcases segs₁ with - | ⟨seg, segs₁⟩
    · obtain ⟨⟨⟩, -⟩ := List.cons.inj hsegs
      exact ⟨ho, hinner, hc, fun h ↦ by simp [hobjects] at h⟩
    · obtain ⟨rfl, htail⟩ := List.cons.inj hsegs
      have := (ih htail).append_left (o' :: (inner' ++ [c']))
      simpa [Segment.tokensOf, Segment.tokens] using this

/-- The place between `front` and `back` falls into a segment that is a scope. -/
def FallsInto (segs : List Segment) (rest front back : List Token) : Prop :=
  ∃ segs₁ o inner₁ inner₂ c segs₂, segs = segs₁ ++ .scope o (inner₁ ++ inner₂) c :: segs₂ ∧
    front = Segment.tokensOf segs₁ ++ o :: inner₁ ∧
    back = inner₂ ++ c :: (Segment.tokensOf segs₂ ++ rest)

/-- The place between two segments falls into none. -/
theorem not_fallsInto_append (segs₁ segs₂ : List Segment) (rest : List Token) :
    ¬ FallsInto (segs₁ ++ segs₂) rest (Segment.tokensOf segs₁) back := by
  rintro ⟨segs₁', o, inner₁, inner₂, c, segs₂', hsegs, hfront, -⟩
  induction segs₁ generalizing segs₁' with
  | nil => simp [Segment.tokensOf] at hfront
  | cons seg segs₁ ih =>
    rcases segs₁' with - | ⟨seg', segs₁'⟩
    · obtain ⟨rfl, -⟩ := List.cons.inj hsegs
      have := congrArg List.length hfront
      simp [Segment.tokensOf, Segment.tokens] at this
    · obtain ⟨rfl, htail⟩ := List.cons.inj hsegs
      exact ih segs₁' htail (by simpa [Segment.tokensOf] using hfront)

theorem Walked.fallsInto_of_inside {more : List Token}
    (h : Walked objects rest (front ++ back) segs) (hmore : Segment.tokensOf segs = front ++ more)
    (hinside : Inside objects front back) : FallsInto segs rest front back := by
  obtain ⟨before, o, inner₁, inner₂, c, after, rfl, rfl, hb⟩ := hinside
  have heq : before ++ o :: inner₁ ++ (inner₂ ++ c :: after) =
      before ++ o :: (inner₁ ++ inner₂ ++ c :: after) := by simp
  rcases h.covers hb heq with ⟨segs₁, o₀, inner₀, c₀, segs₂, rfl, hcases⟩ | ⟨b, rfl⟩
  · rcases hcases with ⟨rfl, rfl, rfl, rfl, rfl⟩ | ⟨b, a, rfl, rfl, rfl⟩
    · exact ⟨segs₁, o, inner₁, inner₂, c, segs₂, rfl, rfl, rfl⟩
    · exact ⟨segs₁, o₀, b ++ o :: inner₁, inner₂ ++ c :: a, c₀, segs₂, by simp, by simp, by simp⟩
  -- a block in the rest does not reach back to the place
  · have := congrArg List.length hmore
    simp at this

theorem Walked.inside_of_fallsInto (h : Walked objects rest tokens segs)
    (hfalls : FallsInto segs rest front back) : Inside objects front back := by
  obtain ⟨segs₁, o, inner₁, inner₂, c, segs₂, hsegs, rfl, rfl⟩ := hfalls
  exact ⟨_, o, inner₁, inner₂, c, _, rfl, rfl, h.isBlock hsegs⟩

/-- **Inside a block** is inside a segment. -/
theorem Segmented.inside_iff (h : Segmented objects tokens segs) (heq : tokens = front ++ back) :
    Inside objects front back ↔ FallsInto segs [] front back := by
  subst heq
  have hmore := h.tokensOf_append
  rw [List.append_nil] at hmore
  exact ⟨h.fallsInto_of_inside hmore, h.inside_of_fallsInto⟩

/-- **The scopes** are the segments that are scopes. -/
theorem Segmented.isScope_iff (h : Segmented objects tokens segs) :
    (tokens = before ++ o :: (inner ++ c :: after) ∧ IsScope objects before o inner c after) ↔
      ∃ segs₁ segs₂, segs = segs₁ ++ .scope o inner c :: segs₂ ∧
        before = Segment.tokensOf segs₁ ∧ after = Segment.tokensOf segs₂ := by
  have hmore := h.tokensOf_append
  rw [List.append_nil] at hmore
  constructor
  · rintro ⟨rfl, hb, hout⟩
    have hnone : ∀ {b}, before ≠ Segment.tokensOf segs ++ b := by
      rintro b rfl
      have := congrArg List.length hmore
      simp at this
    rcases h.covers hb rfl with ⟨segs₁, o₀, inner₀, c₀, segs₂, rfl, hcases⟩ | ⟨b, hb⟩
    · rcases hcases with ⟨rfl, rfl, rfl, rfl, rfl⟩ | ⟨b, a, rfl, rfl, rfl⟩
      · exact ⟨segs₁, segs₂, rfl, rfl, by simp⟩
      · refine absurd ?_ hout
        exact ⟨_, o₀, b, o :: (inner ++ c :: a), c₀, Segment.tokensOf segs₂, rfl, by simp,
          h.isBlock rfl⟩
    · exact absurd hb hnone
  · rintro ⟨segs₁, segs₂, rfl, rfl, rfl⟩
    refine ⟨by simp [← hmore, Segment.tokensOf, Segment.tokens], h.isBlock rfl, fun hinside ↦ ?_⟩
    have hback : tokens =
        Segment.tokensOf segs₁ ++ (o :: inner ++ c :: Segment.tokensOf segs₂) := by
      simp [← hmore, Segment.tokensOf, Segment.tokens]
    exact not_fallsInto_append segs₁ _ [] ((h.inside_iff hback).1 hinside)

/-- The scope that is a segment of the walk. -/
theorem isScope_of_segmented (segs₁ segs₂ : List Segment)
    (h : Segmented objects tokens (segs₁ ++ .scope o inner c :: segs₂)) :
    IsScope objects (Segment.tokensOf segs₁) o inner c (Segment.tokensOf segs₂) :=
  (h.isScope_iff.2 ⟨segs₁, segs₂, rfl, rfl, rfl⟩).2

/-- A source that is one block has it as its scope. -/
theorem isScope_block {last : Token} (ho : o.kind = .openBrace)
    (hinner : checkBrackets [] inner = .ok ()) (hc : c.kind = .closeBrace)
    (hlast : last.kind = .endOfText) : IsScope false [] o inner c [last] := by
  have hend : Segmented false [last] [.outside last] := .outside (by simp [hlast]) .stop
  exact isScope_of_segmented [] [.outside last]
    (.block rfl ho (checkBrackets_eq_ok_iff.1 hinner) hc hend)

/-- A place inside a scope is inside a segment. -/
theorem Segmented.inScope_iff (h : Segmented objects tokens segs) (heq : tokens = front ++ back) :
    InScope objects front back ↔ FallsInto segs [] front back := by
  subst heq
  constructor
  · rintro ⟨before, o, inner₁, inner₂, c, after, rfl, rfl, hscope⟩
    obtain ⟨segs₁, segs₂, rfl, rfl, rfl⟩ := h.isScope_iff.1 ⟨by simp, hscope⟩
    exact ⟨segs₁, o, inner₁, inner₂, c, segs₂, rfl, rfl, by simp⟩
  · rintro ⟨segs₁, o, inner₁, inner₂, c, segs₂, rfl, rfl, rfl⟩
    exact ⟨_, o, inner₁, inner₂, c, Segment.tokensOf segs₂, rfl, by simp,
      isScope_of_segmented segs₁ segs₂ h⟩

/-- The segment that a token belongs to. -/
theorem exists_segment_of_append (h : Segment.tokensOf segs = front ++ t :: back) :
    ∃ segs₁ seg segs₂ a b, segs = segs₁ ++ seg :: segs₂ ∧ Segment.tokens seg = a ++ t :: b ∧
      front = Segment.tokensOf segs₁ ++ a ∧ back = b ++ Segment.tokensOf segs₂ := by
  induction segs generalizing front with
  | nil => simp [Segment.tokensOf] at h
  | cons seg segs ih =>
    have hsplit : Segment.tokens seg ++ Segment.tokensOf segs = front ++ t :: back := h
    rcases List.append_eq_append_iff.1 hsplit with ⟨as, rfl, has⟩ | ⟨as, hseg, has⟩
    · obtain ⟨segs₁, seg', segs₂, a, b, rfl, htokens, rfl, rfl⟩ := ih has
      exact ⟨seg :: segs₁, seg', segs₂, a, b, rfl, htokens, by simp [Segment.tokensOf], rfl⟩
    · rcases as with - | ⟨a₀, as⟩
      · obtain ⟨segs₁, seg', segs₂, a, b, rfl, htokens, hfront, rfl⟩ :=
          ih (show _ = [] ++ _ from has.symm)
        refine ⟨seg :: segs₁, seg', segs₂, a, b, rfl, htokens, ?_, rfl⟩
        rw [List.append_nil] at hseg
        show front = Segment.tokens seg ++ Segment.tokensOf segs₁ ++ a
        rw [List.append_assoc, ← hfront, hseg, List.append_nil]
      · obtain ⟨rfl, rfl⟩ := List.cons.inj has
        exact ⟨[], seg, segs, front, as, rfl, hseg, rfl, rfl⟩

/-- **Where a token stands**: it is outside of every scope, or it is a brace of a scope, or it lies
in the body of one. -/
theorem Segmented.place_cases (h : Segmented objects tokens segs)
    (heq : tokens = front ++ t :: back) :
    (∃ segs₁ segs₂, segs = segs₁ ++ .outside t :: segs₂ ∧ front = Segment.tokensOf segs₁ ∧
      back = Segment.tokensOf segs₂) ∨
    (t.kind = .openBrace ∨ t.kind = .closeBrace) ∨
    ∃ segs₁ o inner₁ inner₂ c segs₂, segs = segs₁ ++ .scope o (inner₁ ++ t :: inner₂) c :: segs₂ ∧
      front = Segment.tokensOf segs₁ ++ o :: inner₁ ∧
      back = inner₂ ++ c :: Segment.tokensOf segs₂ := by
  subst heq
  have hmore := h.tokensOf_append
  rw [List.append_nil] at hmore
  obtain ⟨segs₁, seg, segs₂, a, b, rfl, htokens, rfl, rfl⟩ := exists_segment_of_append hmore
  cases seg with
  | outside u =>
    rcases a with - | ⟨a₀, a⟩
    · obtain ⟨rfl, rfl⟩ := List.cons.inj htokens
      exact .inl ⟨segs₁, segs₂, rfl, by simp, by simp⟩
    · simp [Segment.tokens] at htokens
  | scope o inner c =>
    have hb := h.isBlock rfl
    rcases a with - | ⟨a₀, a⟩
    · obtain ⟨rfl, -⟩ := List.cons.inj htokens
      exact .inr (.inl (.inl hb.opening))
    · obtain ⟨rfl, htail⟩ := List.cons.inj htokens
      have hinner : inner ++ [c] = a ++ t :: b := htail
      rcases List.append_eq_append_iff.1 hinner with ⟨as, -, has⟩ | ⟨as, rfl, has⟩
      · have hlen := congrArg List.length has
        rcases as with - | ⟨a₀, as⟩
        · obtain ⟨rfl, -⟩ := List.cons.inj has
          exact .inr (.inl (.inr hb.closing))
        · simp at hlen
      · rcases as with - | ⟨a₀, as⟩
        · obtain ⟨rfl, -⟩ := List.cons.inj has
          exact .inr (.inl (.inr hb.closing))
        · obtain ⟨rfl, rfl⟩ := List.cons.inj has
          exact .inr (.inr ⟨segs₁, o, a, as, c, segs₂, rfl, rfl, by simp⟩)

/-- Behind a keyword `code` outside of the scopes a scope follows. -/
theorem Walked.brace_of_code {segs₁ segs₂ : List Segment} (h : Walked objects rest tokens segs)
    (hsegs : segs = segs₁ ++ .outside t :: segs₂) (hobjects : objects = true)
    (ht : t.kind = .codeWord) : ∃ o ∈ (Segment.tokensOf segs₂).head?, o.kind = .openBrace := by
  induction h generalizing segs₁ with
  | stop => simp at hsegs
  | outside hne _ ih =>
    rcases segs₁ with - | ⟨seg, segs₁⟩
    · obtain ⟨⟨⟩, -⟩ := List.cons.inj hsegs
      simp [hobjects, ht] at hne
    · exact ih (List.cons.inj hsegs).2
  | @code k o c inner ts segs _ _ ho _ _ _ ih =>
    rcases segs₁ with - | ⟨seg, - | ⟨seg', segs₁⟩⟩
    · obtain ⟨⟨⟩, rfl⟩ := List.cons.inj hsegs
      exact ⟨o, rfl, ho⟩
    · obtain ⟨-, htail⟩ := List.cons.inj hsegs
      cases (List.cons.inj htail).1
    · obtain ⟨-, htail⟩ := List.cons.inj hsegs
      exact ih (List.cons.inj htail).2
  | block hfalse => simp [hobjects] at hfalse

/-- **There are segments** exactly when a brace follows every keyword `code` that is not inside
another code block. -/
theorem exists_segmented_iff (hnested : ClosesSome tokens) :
    (∃ segs, Segmented objects tokens segs) ↔
      (objects = true → ∀ front t back, tokens = front ++ t :: back → t.kind = .codeWord →
        ¬ Inside true front (t :: back) → ∃ o ∈ back.head?, o.kind = .openBrace) := by
  constructor
  · rintro ⟨segs, h⟩ rfl front t back rfl ht hout
    rcases h.place_cases rfl with ⟨segs₁, segs₂, hsegs, rfl, rfl⟩ | hbrace |
      ⟨segs₁, o, inner₁, inner₂, c, segs₂, hsegs, rfl, rfl⟩
    · exact h.brace_of_code hsegs rfl ht
    · simp [ht] at hbrace
    · refine absurd (h.inside_of_fallsInto ?_) hout
      exact ⟨segs₁, o, inner₁, t :: inner₂, c, segs₂, hsegs, rfl, by simp⟩
  · intro h
    obtain ⟨rest, segs, hwalked, hrest⟩ := @exists_walked objects tokens hnested
    rcases hrest with rfl | ⟨rfl, k, tail, rfl, hk, hnone⟩
    · exact ⟨segs, hwalked⟩
    -- the walk stopped at a keyword that is in no block, and a brace would have to follow it
    · have happend := hwalked.tokensOf_append
      have hout : ¬ Inside true (Segment.tokensOf segs) (k :: tail) := by
        intro hinside
        have hwalked' : Walked true (k :: tail) (Segment.tokensOf segs ++ k :: tail) segs :=
          happend ▸ hwalked
        have hfalls := hwalked'.fallsInto_of_inside (List.append_nil _).symm hinside
        rw [← List.append_nil segs] at hfalls
        simpa using not_fallsInto_append segs [] (k :: tail) (by simpa using hfalls)
      obtain ⟨o, ho, hkind⟩ := h rfl _ k tail happend.symm hk hout
      exact absurd hkind (hnone o ho)

end Blocks

end YulPlus
