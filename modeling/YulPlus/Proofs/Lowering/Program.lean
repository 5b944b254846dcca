import YulPlus.Lowering.Lowered
import YulPlus.Proofs.Lowering.Reading
import YulPlus.Proofs.Lowering.Scopes

/-!
# Programs

A program is what the tokens of a source are read as: tokens outside of every scope, and scopes with
their parts. `IsProgram` relates a token list to its program, and lowering succeeds exactly when the
brackets are well nested, the hash literals can be read and there is a program
(`lowerTokens_eq_ok_iff`). The edits are then those of the program, section by section; nothing in
`Section.edits` can fail any more, so everything that is proved about edits starts from here.
-/

namespace YulPlus

open Text

/-- A section of a program: a token outside of every scope, or a scope with the parts of its body.
-/
inductive Section
  | outside (token : Token)
  | scope (opening : Token) (parts : List Part) (closing : Token)

/-- A segment is read as a section: no declaration stands outside of the scopes, and no name is
bound twice in a scope. -/
inductive Segment.ReadsAs : Segment → Section → Prop
  | outside {t : Token} (ht : t.kind.isDeclaration = false) : ReadsAs (.outside t) (.outside t)
  | scope {opening closing : Token} {body : List Token} {parts : List Part}
      (hbody : IsBody closing body parts) (hnodup : (namesOf parts).Nodup) :
      ReadsAs (.scope opening body closing) (.scope opening parts closing)

/-- The tokens are read as the program. -/
def IsProgram (tokens : List Token) (program : List Section) : Prop :=
  ∃ segs, Segmented (Segment.usesObjects tokens) tokens segs ∧
    List.Forall₂ Segment.ReadsAs segs program

/-- What the parts of a scope bind. -/
def boundBy (source : Text) (interface : Interface) (parts : List Part) : Bindings :=
  ({} : Bindings).declareAll source interface (declarationsOf parts)

namespace Section

/-- The tokens of a section. -/
def tokens : Section → List Token
  | outside t => [t]
  | scope opening parts closing => opening :: (parts.flatMap Part.tokens ++ [closing])

/-- The tokens of some sections. -/
def tokensOf (program : List Section) : List Token :=
  program.flatMap tokens

/-- The edits of a section. -/
def edits (source : Text) (interface : Interface) : Section → List Edit
  | outside t => (({} : Bindings).edit? interface t).toList
  | scope opening parts _ =>
    let b := boundBy source interface parts
    let items := parts.map Part.item
    helperEdits opening (scopeHelpers b items) ++ items.filterMap (Item.edit? b interface)

end Section

section

variable {source : Text} {interface : Interface} {segs : List Segment} {program : List Section}
  {tokens : List Token} {edits : List Edit}

theorem fresh_empty_iff {ns : List Text} : ({} : Bindings).Fresh ns ↔ ns.Nodup := by
  simp [Bindings.Fresh, Bindings.names]

/-- Reading the body of a scope, from no bindings on. -/
theorem scopeEdits_eq_ok_iff {opening closing : Token} {body : List Token} :
    scopeEdits source interface opening body closing = .ok edits ↔
      ∃ parts, IsBody closing body parts ∧ (namesOf parts).Nodup ∧
        edits = (Section.scope opening parts closing).edits source interface := by
  unfold scopeEdits
  constructor
  · intro h
    split at h
    · cases h
    · rename_i b items hread
      cases h
      obtain ⟨parts, hbody, hfresh, rfl, rfl⟩ := readBody_eq_ok_iff.1 hread
      exact ⟨parts, hbody, fresh_empty_iff.1 hfresh, rfl⟩
  · rintro ⟨parts, hbody, hnodup, rfl⟩
    rw [readBody_of_isBody hbody (fresh_empty_iff.2 hnodup)]
    rfl

theorem checkOutside_eq_ok_iff :
    Segment.checkOutside segs = .ok () ↔
      ∀ t, Segment.outside t ∈ segs → t.kind.isDeclaration = false := by
  induction segs with
  | nil => exact ⟨fun _ t ht ↦ (by cases ht), fun _ ↦ rfl⟩
  | cons seg segs ih =>
    cases seg with
    | outside t =>
      show (if t.kind.isDeclaration then
        Except.error (t.error (.declarationOutside t.value)) else .ok ()) >>=
          (fun _ ↦ Segment.checkOutside segs) = .ok () ↔ _
      rw [bind_eq_ok_iff]
      cases ht : t.kind.isDeclaration with
      | true => simp [ht]
      | false => simp [ht, ih]
    | scope opening body closing =>
      show Segment.checkOutside segs = .ok () ↔ _
      simp [ih]

theorem edits_eq_ok_iff {seg : Segment} (h : ∀ t, seg = .outside t → t.kind.isDeclaration = false) :
    seg.edits source interface = .ok edits ↔
      ∃ s, seg.ReadsAs s ∧ edits = s.edits source interface := by
  cases seg with
  | outside t =>
    constructor
    · intro hedits
      cases hedits
      exact ⟨.outside t, .outside (h t rfl), rfl⟩
    · rintro ⟨s, hs, rfl⟩
      cases hs
      rfl
  | scope opening body closing =>
    refine scopeEdits_eq_ok_iff.trans ⟨?_, ?_⟩
    · rintro ⟨parts, hbody, hnodup, rfl⟩
      exact ⟨_, .scope hbody hnodup, rfl⟩
    · rintro ⟨s, hs, rfl⟩
      cases hs with
      | scope hbody hnodup => exact ⟨_, hbody, hnodup, rfl⟩

theorem allEdits_eq_ok_iff (h : ∀ t, Segment.outside t ∈ segs → t.kind.isDeclaration = false) :
    Segment.allEdits source interface segs = .ok edits ↔
      ∃ program, List.Forall₂ Segment.ReadsAs segs program ∧
        edits = program.flatMap (Section.edits source interface) := by
  induction segs generalizing edits with
  | nil => simp [Segment.allEdits, eq_comm]
  | cons seg segs ih =>
    have hseg : ∀ t, seg = .outside t → t.kind.isDeclaration = false := by
      rintro t rfl
      exact h t (by simp)
    have hsegs := fun {edits} ↦ @ih edits fun t ht ↦ h t (by simp [ht])
    rw [Segment.allEdits]
    constructor
    · intro hedits
      split at hedits
      · cases hedits
      rename_i first hfirst
      split at hedits
      · cases hedits
      rename_i more hmore
      cases hedits
      obtain ⟨s, hs, rfl⟩ := (edits_eq_ok_iff hseg).1 hfirst
      obtain ⟨program, hprogram, rfl⟩ := hsegs.1 hmore
      exact ⟨s :: program, .cons hs hprogram, by simp⟩
    · rintro ⟨program, hprogram, rfl⟩
      obtain - | ⟨hs, hprogram⟩ := hprogram
      rw [(edits_eq_ok_iff hseg).2 ⟨_, hs, rfl⟩, hsegs.2 ⟨_, hprogram, rfl⟩]
      simp

/-- In a program no declaration stands outside of the scopes. -/
theorem isDeclaration_of_readsAs (h : List.Forall₂ Segment.ReadsAs segs program) {t : Token}
    (ht : Segment.outside t ∈ segs) : t.kind.isDeclaration = false := by
  induction h with
  | nil => cases ht
  | cons hs _ ih =>
    rcases List.mem_cons.1 ht with rfl | ht
    · cases hs
      assumption
    · exact ih ht

/-- **Lowering succeeds** exactly on the well-nested token lists with readable hash literals that
have a program, and the edits are those of the program. -/
theorem lowerTokens_eq_ok_iff :
    lowerTokens source tokens = .ok (interface, edits) ↔
      WellNested tokens ∧ Interface.ofTokens tokens = .ok interface ∧
        ∃ program, IsProgram tokens program ∧
          edits = program.flatMap (Section.edits source interface) := by
  simp only [lowerTokens, bind_eq_ok_iff, mapError_eq_ok_iff, pure, Except.pure, Except.ok.injEq,
    Prod.mk.injEq]
  constructor
  · rintro ⟨_, hbrackets, _, hinterface, segs, hsegs, _, houtside, _, hedits, rfl, rfl⟩
    have hnested := checkBrackets_eq_ok_iff.1 hbrackets
    obtain ⟨program, hprogram, rfl⟩ :=
      (allEdits_eq_ok_iff (checkOutside_eq_ok_iff.1 houtside)).1 hedits
    have hsegmented := (ofTokens_eq_ok_iff hnested.closesSome).1 hsegs
    exact ⟨hnested, hinterface, program, ⟨segs, hsegmented, hprogram⟩, rfl⟩
  · rintro ⟨hnested, hinterface, program, ⟨segs, hsegmented, hprogram⟩, rfl⟩
    have houtside : ∀ t, Segment.outside t ∈ segs → t.kind.isDeclaration = false :=
      fun t ht ↦ isDeclaration_of_readsAs hprogram ht
    exact ⟨(), checkBrackets_eq_ok_iff.2 hnested, interface, hinterface, segs,
      (ofTokens_eq_ok_iff hnested.closesSome).2 hsegmented, (), checkOutside_eq_ok_iff.2 houtside,
      _, (allEdits_eq_ok_iff houtside).2 ⟨program, hprogram, rfl⟩, rfl, rfl⟩

/-- **Lowering a source** applies the edits of its program. -/
theorem lower_eq_ok_iff {r : Lowered} :
    lower source = .ok r ↔ ∃ tokens program, tokenize source = .ok tokens ∧ WellNested tokens ∧
      Interface.ofTokens tokens = .ok r.interface ∧ IsProgram tokens program ∧
        r.code = Edit.applyAll (program.flatMap (Section.edits source r.interface)) source := by
  simp only [lower, bind_eq_ok_iff, mapError_eq_ok_iff, pure, Except.pure, Except.ok.injEq]
  constructor
  · rintro ⟨tokens, htokens, ⟨interface, edits⟩, hlower, rfl⟩
    obtain ⟨hnested, hinterface, program, hprogram, rfl⟩ := lowerTokens_eq_ok_iff.1 hlower
    exact ⟨tokens, program, htokens, hnested, hinterface, hprogram, rfl⟩
  · rintro ⟨tokens, program, htokens, hnested, hinterface, hprogram, hcode⟩
    have hlower : lowerTokens source tokens =
        .ok (r.interface, program.flatMap (Section.edits source r.interface)) :=
      lowerTokens_eq_ok_iff.2 ⟨hnested, hinterface, program, hprogram, rfl⟩
    refine ⟨tokens, htokens, _, hlower, ?_⟩
    rw [← hcode]

/-! ### Where the sections stand -/

/-- A body consists of its parts. -/
theorem IsBody.tokens_eq {closing : Token} {inner : List Token} {parts : List Part}
    (h : IsBody closing inner parts) : parts.flatMap Part.tokens = inner := by
  induction h with
  | nil => rfl
  | kept _ _ ih | declared _ _ _ ih => simp [Part.tokens, ih]

theorem Segment.ReadsAs.tokens_eq {seg : Segment} {s : Section} (h : seg.ReadsAs s) :
    s.tokens = seg.tokens := by
  cases h with
  | outside => rfl
  | scope hbody => simp [Section.tokens, Segment.tokens, hbody.tokens_eq]

theorem tokensOf_eq (h : List.Forall₂ Segment.ReadsAs segs program) :
    Section.tokensOf program = Segment.tokensOf segs := by
  induction h with
  | nil => rfl
  | cons hs _ ih =>
    show _ ++ Section.tokensOf _ = _ ++ Segment.tokensOf _
    rw [hs.tokens_eq, ih]

/-- The segment that a section was read from. -/
theorem exists_segment_of_forall₂ {p₁ p₂ : List Section} {s : Section}
    (h : List.Forall₂ Segment.ReadsAs segs (p₁ ++ s :: p₂)) :
    ∃ segs₁ seg segs₂, segs = segs₁ ++ seg :: segs₂ ∧ seg.ReadsAs s ∧
      Segment.tokensOf segs₁ = Section.tokensOf p₁ ∧
      Segment.tokensOf segs₂ = Section.tokensOf p₂ := by
  induction p₁ generalizing segs with
  | nil =>
    obtain - | ⟨hs, hrest⟩ := h
    exact ⟨[], _, _, rfl, hs, rfl, (tokensOf_eq hrest).symm⟩
  | cons s' p₁ ih =>
    obtain - | @⟨seg', _, _, _, hs', hrest⟩ := h
    obtain ⟨segs₁, seg, segs₂, rfl, hs, h₁, h₂⟩ := ih hrest
    refine ⟨seg' :: segs₁, seg, segs₂, rfl, hs, ?_, h₂⟩
    show _ ++ Segment.tokensOf _ = _ ++ Section.tokensOf _
    rw [h₁, hs'.tokens_eq]

namespace IsProgram

variable {p₁ p₂ : List Section} {t o c : Token} {parts : List Part}

theorem tokensOf_eq (h : IsProgram tokens program) : Section.tokensOf program = tokens := by
  obtain ⟨segs, hsegs, hreads⟩ := h
  have hmore := hsegs.tokensOf_append
  rw [List.append_nil] at hmore
  rw [YulPlus.tokensOf_eq hreads, hmore]

/-- A token outside of the scopes of a program lies in no scope of its tokens. -/
theorem not_inScope (h : IsProgram tokens (p₁ ++ .outside t :: p₂)) :
    ¬ InScope (Segment.usesObjects tokens) (Section.tokensOf p₁) (t :: Section.tokensOf p₂) := by
  have htokens := h.tokensOf_eq
  obtain ⟨segs, hsegs, hreads⟩ := h
  obtain ⟨segs₁, seg, segs₂, rfl, hs, h₁, h₂⟩ := exists_segment_of_forall₂ hreads
  cases hs
  have heq : tokens = Section.tokensOf p₁ ++ t :: Section.tokensOf p₂ := by
    simpa [Section.tokensOf, Section.tokens] using htokens.symm
  intro hscope
  have hfalls := (hsegs.inScope_iff heq).1 hscope
  rw [← h₁] at hfalls
  exact not_fallsInto_append segs₁ _ [] hfalls

/-- A scope of a program is a scope of its tokens, with the parts of its body. -/
theorem isScope (h : IsProgram tokens (p₁ ++ .scope o parts c :: p₂)) :
    ∃ inner, tokens = Section.tokensOf p₁ ++ o :: (inner ++ c :: Section.tokensOf p₂) ∧
      IsScope (Segment.usesObjects tokens) (Section.tokensOf p₁) o inner c (Section.tokensOf p₂) ∧
      IsBody c inner parts ∧ (namesOf parts).Nodup := by
  obtain ⟨segs, hsegs, hreads⟩ := h
  obtain ⟨segs₁, seg, segs₂, rfl, hs, h₁, h₂⟩ := exists_segment_of_forall₂ hreads
  cases hs with
  | scope hbody hnodup =>
    rw [← h₁, ← h₂]
    obtain ⟨heq, hscope⟩ := hsegs.isScope_iff.2 ⟨segs₁, segs₂, rfl, rfl, rfl⟩
    exact ⟨_, heq, hscope, hbody, hnodup⟩

end IsProgram

end

end YulPlus
