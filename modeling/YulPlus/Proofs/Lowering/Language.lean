import YulPlus.Proofs.Lowering.Hashes
import YulPlus.Proofs.Lowering.Program
import YulPlus.Proofs.Lowering.Unambiguous

/-!
# The language that lowering accepts

`Admissible` collects what is asked of the tokens of a source, each condition about single places
and with no order of checks. `exists_lower_iff` says that nothing else is asked: a source is lowered
exactly when it can be cut into tokens and these are admissible.

The two sides meet in the program of the token list. That the walk over the segments never stops is
the condition on `code` keywords (`exists_segmented_iff`), and a body has parts exactly when each
declaration keyword in it begins a declaration (`exists_isBody`): no keyword is hidden inside a
declaration, since the tokens behind the keyword are never keywords or braces.
-/

namespace YulPlus

open Text

/-- The keyword `t` begins a declaration, and `back` stands behind it. -/
def BeginsDeclaration (t : Token) (back : List Token) : Prop :=
  ∃ (d : Declaration) (ds : List Token) (next : Token) (rest : List Token),
    back = ds ++ next :: rest ∧ d.Spells (t :: ds) ∧ d.EndsBefore next

/-- The conditions on the tokens of a source. -/
structure Admissible (tokens : List Token) : Prop where
  /-- Braces and parentheses are well nested together. -/
  wellNested : WellNested tokens
  /-- The text of a `sig` literal is the signature of a function. -/
  selectors : ∀ t ∈ tokens, t.kind = .selector →
    ∃ s, Signature.parse Signature.functionKind t.value = .ok s
  /-- The text of a `topic` literal is the signature of an event. -/
  topics : ∀ t ∈ tokens, t.kind = .topic →
    ∃ s, Signature.parse Signature.eventKind t.value = .ok s
  /-- With objects, a brace follows every `code` keyword outside of the other code blocks. -/
  code : (∃ t ∈ tokens, t.kind = .objectWord) → ∀ front t back, tokens = front ++ t :: back →
    t.kind = .codeWord → ¬ Inside true front (t :: back) → ∃ o ∈ back.head?, o.kind = .openBrace
  /-- Every declaration keyword lies in a scope and begins a declaration. -/
  declarations : ∀ front t back, tokens = front ++ t :: back → t.kind.isDeclaration = true →
    InScope (Segment.usesObjects tokens) front (t :: back) ∧ BeginsDeclaration t back
  /-- The names that the declarations of a scope bind are distinct. -/
  names : ∀ before o inner c after, tokens = before ++ o :: (inner ++ c :: after) →
    IsScope (Segment.usesObjects tokens) before o inner c after →
      ∀ parts, IsBody c inner parts → (namesOf parts).Nodup

/-! ### The tokens of a declaration -/

/-- The kinds of the tokens behind the keyword of a declaration. -/
def declarationKinds : List TokenKind :=
  [.openParen, .closeParen, .comma, .colon, .assign] ++ expressionKinds

theorem IsExpression.kind_mem {e : List Token} (h : IsExpression e) :
    ∀ t ∈ e, t.kind ∈ declarationKinds := by
  induction h with
  | atom ht => simp [declarationKinds, ht]
  | emptyCall hf ho hc => simp [hf, ho, hc, declarationKinds, expressionKinds]
  | @call f o c arguments ts hf ho hc hts _ ih =>
    have hinner := hts.forall_mem (fun t ht ↦ ht ▸ by decide) ih
    simp only [List.cons_append, List.mem_cons, List.mem_append, List.not_mem_nil, or_false]
    rintro t (rfl | rfl | ht | rfl)
    · rw [hf]; decide
    · rw [ho]; decide
    · exact hinner t ht
    · rw [hc]; decide

theorem kind_mem_of_member {u : List Token} {m : Text} (h : IsMember u m) :
    ∀ t ∈ u, t.kind ∈ declarationKinds := by
  obtain ⟨ht⟩ := h
  simp [ht, declarationKinds, expressionKinds]

theorem kind_mem_of_field {u : List Token} {field : Field} (h : IsField u field) :
    ∀ t ∈ u, t.kind ∈ declarationKinds := by
  obtain ⟨hname, hcolon, hnumber⟩ := h
  simp [hname, hcolon, hnumber, declarationKinds, expressionKinds]

/-- A list in parentheses behind a name. -/
theorem kind_mem_of_list {name opening closing : Token} {units : List (List Token)}
    {ts : List Token} (hname : name.kind = .identifier) (hopening : opening.kind = .openParen)
    (hts : CommaList units ts) (hunits : ∀ u ∈ units, ∀ t ∈ u, t.kind ∈ declarationKinds)
    (hclosing : closing.kind = .closeParen) :
    ∀ t ∈ name :: opening :: (ts ++ [closing]), t.kind ∈ declarationKinds := by
  simp only [List.mem_cons, List.mem_append, List.not_mem_nil, or_false]
  rintro t (rfl | rfl | ht | rfl)
  · rw [hname]; decide
  · rw [hopening]; decide
  · exact hts.forall_mem (fun t ht ↦ ht ▸ by decide) hunits t ht
  · rw [hclosing]; decide

theorem Declaration.Spells.kind_mem {d : Declaration} {t : Token} {ds : List Token}
    (h : d.Spells (t :: ds)) : ∀ u ∈ ds, u.kind ∈ declarationKinds := by
  cases h with
  | enum _ hname hopening hts hunits hclosing =>
    refine kind_mem_of_list hname hopening hts (fun u hu ↦ ?_) hclosing
    obtain ⟨m, -, hm⟩ := exists_mem_of_mem_left hunits hu
    exact kind_mem_of_member hm
  | const _ hname hassign hvalue =>
    simp only [List.mem_cons]
    rintro u (rfl | rfl | hu)
    · rw [hname]; decide
    · rw [hassign]; decide
    · exact hvalue.kind_mem u hu
  | struct _ hname hopening hts hunits _ hclosing =>
    refine kind_mem_of_list hname hopening hts (fun u hu ↦ ?_) hclosing
    obtain ⟨field, -, hfield⟩ := exists_mem_of_mem_left hunits hu
    exact kind_mem_of_field hfield

/-! ### Bodies -/

theorem not_mem_declarationKinds {k : TokenKind} (h : k.isDeclaration = true ∨ k = .closeBrace) :
    k ∉ declarationKinds := by
  revert h
  cases k <;> decide

/-- In a body each declaration keyword begins a declaration. -/
theorem IsBody.beginsDeclaration {closing t : Token} {tokens front back after : List Token}
    {parts : List Part} (h : IsBody closing tokens parts) (heq : tokens = front ++ t :: back)
    (ht : t.kind.isDeclaration = true) : BeginsDeclaration t (back ++ closing :: after) := by
  induction h generalizing front with
  | nil => simp at heq
  | @kept u ts parts hu _ ih =>
    rcases front with - | ⟨u', front⟩
    · obtain ⟨rfl, -⟩ := List.cons.inj heq
      rw [hu] at ht
      cases ht
    · exact ih (List.cons.inj heq).2
  | @declared u ds ts d parts hd hnext _ ih =>
    rcases front with - | ⟨u', front⟩
    · obtain ⟨rfl, rfl⟩ := List.cons.inj heq
      cases ts with
      | nil => exact ⟨d, ds, closing, after, by simp, hd, hnext⟩
      | cons next ts => exact ⟨d, ds, next, ts ++ closing :: after, by simp, hd, hnext⟩
    · obtain ⟨rfl, htail⟩ := List.cons.inj heq
      rcases List.append_eq_append_iff.1 htail with ⟨as, rfl, has⟩ | ⟨as, rfl, has⟩
      · exact ih has
      · rcases as with - | ⟨a, as⟩
        · have htail' : ts = [] ++ t :: back := has.symm
          exact ih htail'
        -- the keyword would be a token of the declaration before
        · obtain ⟨rfl, -⟩ := List.cons.inj has
          exact absurd (hd.kind_mem t (by simp)) (not_mem_declarationKinds (.inl ht))

/-- A declaration that begins in front of a brace ends in front of it. -/
theorem BeginsDeclaration.exists_spells {t closing : Token} {back after : List Token}
    (h : BeginsDeclaration t (back ++ closing :: after)) (hclosing : closing.kind = .closeBrace) :
    ∃ (d : Declaration) (ds rest : List Token), back = ds ++ rest ∧ d.Spells (t :: ds) ∧
      d.EndsBefore (rest.headD closing) := by
  obtain ⟨d, ds, next, rest, heq, hd, hnext⟩ := h
  rcases List.append_eq_append_iff.1 heq with ⟨as, rfl, has⟩ | ⟨as, rfl, has⟩
  · rcases as with - | ⟨a, as⟩
    · obtain ⟨rfl, -⟩ := List.cons.inj has
      exact ⟨d, back, [], by simp, by simpa using hd, hnext⟩
    · obtain ⟨rfl, -⟩ := List.cons.inj has
      exact absurd (hd.kind_mem closing (by simp)) (not_mem_declarationKinds (.inr hclosing))
  · rcases as with - | ⟨a, as⟩
    · obtain ⟨rfl, -⟩ := List.cons.inj has
      exact ⟨d, ds, [], by simp, hd, hnext⟩
    · obtain ⟨rfl, -⟩ := List.cons.inj has
      exact ⟨d, ds, next :: as, rfl, hd, hnext⟩

/-- **A body has parts** when each declaration keyword in it begins a declaration. -/
theorem exists_isBody {closing : Token} {inner after : List Token}
    (hclosing : closing.kind = .closeBrace)
    (h : ∀ front t back, inner = front ++ t :: back → t.kind.isDeclaration = true →
      BeginsDeclaration t (back ++ closing :: after)) : ∃ parts, IsBody closing inner parts := by
  -- a declaration is taken as a whole, so the induction is on the length
  induction hn : inner.length using Nat.strongRecOn generalizing inner with
  | ind n ih =>
    subst hn
    rcases inner with - | ⟨t, ts⟩
    · exact ⟨[], .nil⟩
    cases ht : t.kind.isDeclaration with
    | false =>
      obtain ⟨parts, hparts⟩ := ih ts.length (by simp)
        (fun front u back heq ↦ h (t :: front) u back (congrArg (t :: ·) heq)) rfl
      exact ⟨_, .kept ht hparts⟩
    | true =>
      obtain ⟨d, ds, rest, rfl, hd, hnext⟩ := (h [] t ts rfl ht).exists_spells hclosing
      have hlt : rest.length < (t :: (ds ++ rest)).length := by
        simp only [List.length_cons, List.length_append]
        omega
      obtain ⟨parts, hparts⟩ := ih rest.length hlt
        (fun front u back heq ↦ h (t :: ds ++ front) u back (by simp [heq])) rfl
      exact ⟨_, .declared hd hnext hparts⟩

/-! ### Programs and the language -/

section

variable {source : Text} {tokens : List Token} {program : List Section} {segs : List Segment}

theorem usesObjects_iff :
    Segment.usesObjects tokens = true ↔ ∃ t ∈ tokens, t.kind = .objectWord := by
  simp [Segment.usesObjects]

/-- The tokens of a program are admissible. -/
theorem admissible_of_isProgram (hnested : WellNested tokens)
    (hhashes : ∀ t ∈ tokens, t.kind.isHash = true → ∃ l, t.HasEntry l)
    (hprogram : IsProgram tokens program) : Admissible tokens := by
  obtain ⟨segs, hsegs, hreads⟩ := hprogram
  have hbody : ∀ {segs₁ segs₂ o inner c}, segs = segs₁ ++ .scope o inner c :: segs₂ →
      ∃ parts, IsBody c inner parts ∧ (namesOf parts).Nodup := by
    intro segs₁ segs₂ o inner c hmem
    have hseg : Segment.scope o inner c ∈ segs := by simp [hmem]
    obtain ⟨s, -, hs⟩ := exists_mem_of_mem_left hreads hseg
    cases hs with
    | scope hbody hnodup => exact ⟨_, hbody, hnodup⟩
  refine
    { wellNested := hnested
      selectors := fun t ht hk ↦ ?_
      topics := fun t ht hk ↦ ?_
      code := fun hobjects ↦ ?_
      declarations := fun front t back heq ht ↦ ?_
      names := fun before o inner c after heq hscope parts hparts ↦ ?_ }
  · obtain ⟨l, hl⟩ := hhashes t ht (by simp [hk, TokenKind.isHash])
    cases hl with
    | selector _ hs => exact ⟨_, hs⟩
    | topic ht' => simp [hk] at ht'
  · obtain ⟨l, hl⟩ := hhashes t ht (by simp [hk, TokenKind.isHash])
    cases hl with
    | selector ht' => simp [hk] at ht'
    | topic _ hs => exact ⟨_, hs⟩
  · exact (exists_segmented_iff hnested.closesSome).1 ⟨segs, hsegs⟩ (usesObjects_iff.2 hobjects)
  · rcases hsegs.place_cases heq with ⟨segs₁, segs₂, hmem, -⟩ | hbrace |
      ⟨segs₁, o, inner₁, inner₂, c, segs₂, hmem, rfl, rfl⟩
    · have houtside : Segment.outside t ∈ segs := by simp [hmem]
      rw [isDeclaration_of_readsAs hreads houtside] at ht
      cases ht
    · rcases hbrace with hk | hk <;> simp [hk, TokenKind.isDeclaration] at ht
    · obtain ⟨parts, hparts, -⟩ := hbody hmem
      refine ⟨(hsegs.inScope_iff heq).2 ?_, hparts.beginsDeclaration rfl ht⟩
      exact ⟨segs₁, o, inner₁, t :: inner₂, c, segs₂, hmem, rfl, by simp⟩
  · obtain ⟨segs₁, segs₂, hmem, -⟩ := hsegs.isScope_iff.1 ⟨heq, hscope⟩
    obtain ⟨parts', hparts', hnodup⟩ := hbody hmem
    rwa [hparts.unique hparts']

/-- Admissible tokens are those of a program. -/
theorem Admissible.exists_isProgram (h : Admissible tokens) :
    ∃ program, IsProgram tokens program := by
  obtain ⟨segs, hsegs⟩ := (exists_segmented_iff h.wellNested.closesSome).2 fun hobjects ↦
    h.code (usesObjects_iff.1 hobjects)
  have hmore := hsegs.tokensOf_append
  rw [List.append_nil] at hmore
  suffices hall : ∀ seg ∈ segs, ∃ s, Segment.ReadsAs seg s by
    obtain ⟨program, hprogram⟩ := exists_forall₂ hall
    exact ⟨program, segs, hsegs, hprogram⟩
  intro seg hseg
  obtain ⟨segs₁, segs₂, rfl⟩ := List.append_of_mem hseg
  cases seg with
  | outside t =>
    have heq : tokens = Segment.tokensOf segs₁ ++ t :: Segment.tokensOf segs₂ := by
      simp [← hmore, Segment.tokensOf, Segment.tokens]
    refine ⟨.outside t, .outside ?_⟩
    by_contra hdeclaration
    obtain ⟨hscope, -⟩ := h.declarations _ t _ heq (by simpa using hdeclaration)
    exact not_fallsInto_append segs₁ _ [] ((hsegs.inScope_iff heq).1 hscope)
  | scope o inner c =>
    obtain ⟨heq, hscope⟩ := hsegs.isScope_iff.2 ⟨segs₁, segs₂, rfl, rfl, rfl⟩
    have hbegins : ∀ front t back, inner = front ++ t :: back → t.kind.isDeclaration = true →
        BeginsDeclaration t (back ++ c :: Segment.tokensOf segs₂) := by
      rintro front t back rfl ht
      exact (h.declarations (Segment.tokensOf segs₁ ++ o :: front) t _ (by simp [heq]) ht).2
    obtain ⟨parts, hparts⟩ := exists_isBody hscope.1.closing hbegins
    exact ⟨_, .scope hparts (h.names _ o inner c _ heq hscope parts hparts)⟩

/-- Admissible tokens have readable hash literals. -/
theorem Admissible.exists_hasEntry (h : Admissible tokens) {t : Token} (ht : t ∈ tokens)
    (hhash : t.kind.isHash = true) : ∃ l, t.HasEntry l := by
  simp only [TokenKind.isHash, Bool.or_eq_true, decide_eq_true_eq] at hhash
  rcases hhash with hk | hk
  · obtain ⟨s, hs⟩ := h.selectors t ht hk
    exact ⟨_, .selector hk hs⟩
  · obtain ⟨s, hs⟩ := h.topics t ht hk
    exact ⟨_, .topic hk hs⟩

/-- **The language.** A source is lowered exactly when it can be cut into tokens and these are
admissible. -/
theorem exists_lower_iff : (∃ r, lower source = .ok r) ↔
    ∃ tokens, tokenize source = .ok tokens ∧ Admissible tokens := by
  constructor
  · rintro ⟨r, hr⟩
    obtain ⟨tokens, program, htokens, hnested, hinterface, hprogram, -⟩ := lower_eq_ok_iff.1 hr
    have hhashes := Interface.exists_ofTokens_iff.1 ⟨_, hinterface⟩
    exact ⟨tokens, htokens, admissible_of_isProgram hnested hhashes hprogram⟩
  · rintro ⟨tokens, htokens, h⟩
    obtain ⟨program, hprogram⟩ := h.exists_isProgram
    obtain ⟨interface, hinterface⟩ :=
      Interface.exists_ofTokens_iff.2 fun t ht ↦ h.exists_hasEntry ht
    let code := Edit.applyAll (program.flatMap (Section.edits source interface)) source
    exact ⟨⟨code, interface⟩, lower_eq_ok_iff.2
      ⟨tokens, program, htokens, h.wellNested, hinterface, hprogram, rfl⟩⟩

end

end YulPlus
