import YulPlus.Proofs.Lowering.Unambiguous
import YulPlus.Proofs.Lowering.Values

/-!
# What lowering changes

The code of a lowered source is the source with a number of changes, and everything else is kept.
`Change` lists the changes, each by the place that it is made at: the declarations of the scopes are
deleted, hash literals and bound names are replaced, and functions are inserted behind the opening
braces of the scopes that need them. `lower_changes` is the whole statement: the edits of lowering
are exactly the changes, they are in order and do not overlap, and the code is the source with these
edits made.

`Section.changes` are the changes of one section, with no interface and no bindings to look up; on
the sections of a program they are its edits (`edits_eq_changes`). That they are in order follows
from where the tokens stand (`Section.within_changes`), and which changes there are follows from
where the scopes stand. -/

namespace YulPlus

open Text

/-! ### Changes -/

/-- Is a function of this name called in the scope? -/
def Calls (parts : List Part) (name : Text) : Prop :=
  ∃ t next, .kept t next ∈ parts ∧ t.kind = .identifier ∧ t.value = name ∧ next.kind = .openParen

/-- Is a function of this name defined in the scope? -/
def Defines (parts : List Part) (name : Text) : Prop :=
  ∃ t next, .kept t next ∈ parts ∧ t.kind = .functionWord ∧ next.kind = .identifier ∧
    next.value = name

/-- Does the scope need functions? It does if it has a struct, and if it calls a library function
that it does not define, under a name that is not bound to a value. -/
def NeedsHelpers (source : Text) (parts : List Part) : Prop :=
  (∃ s, .struct s ∈ declarationsOf parts) ∨
    ∃ name ∈ [sliceName, requireName], Calls parts name ∧ ¬ Defines parts name ∧
      (boundIn source parts).value? name = none

/-- The functions that are inserted into a scope, on lines of their own. -/
def helperText (source : Text) (parts : List Part) : Text :=
  '\n' :: joinWith ['\n'] (scopeHelpers (boundIn source parts) (parts.map Part.item)) ++ ['\n']

/-- A scope of a token list with the parts of its body. -/
def IsScopeOf (tokens before : List Token) (o : Token) (parts : List Part) (c : Token)
    (after : List Token) : Prop :=
  ∃ inner, tokens = before ++ o :: (inner ++ c :: after) ∧
    IsScope (Segment.usesObjects tokens) before o inner c after ∧ IsBody c inner parts

/-- The changes that lowering makes to a source with these tokens. -/
inductive Change (source : Text) (tokens : List Token) : Edit → Prop
  /-- A declaration is deleted, from its first to its last token. -/
  | deletion {before after : List Token} {o c keyword : Token} {parts : List Part}
      {tail : List Token} {d : Declaration} (hscope : IsScopeOf tokens before o parts c after)
      (hd : .declared keyword tail d ∈ parts) :
      Change source tokens ⟨keyword.start.offset, (tail.getLastD keyword).stop, []⟩
  /-- A hash literal outside of every scope is replaced by its hash. -/
  | hashOutside {front back : List Token} {t : Token} {hash : Text}
      (ht : tokens = front ++ t :: back)
      (hout : ¬ InScope (Segment.usesObjects tokens) front (t :: back))
      (hhash : t.hash? = some hash) :
      Change source tokens ⟨t.start.offset, t.stop, hash⟩
  /-- A hash literal in a scope, but in no declaration, is replaced by its hash. -/
  | hashInside {before after : List Token} {o c t next : Token} {parts : List Part} {hash : Text}
      (hscope : IsScopeOf tokens before o parts c after) (ht : .kept t next ∈ parts)
      (hhash : t.hash? = some hash) : Change source tokens ⟨t.start.offset, t.stop, hash⟩
  /-- A name in a scope, but in no declaration, is replaced by the value that it has in the scope.
  -/
  | name {before after : List Token} {o c t next : Token} {parts : List Part} {value : Text}
      (hscope : IsScopeOf tokens before o parts c after) (ht : .kept t next ∈ parts)
      (hname : t.kind = .identifier) (hvalue : (boundIn source parts).value? t.value = some value) :
      Change source tokens ⟨t.start.offset, t.stop, value⟩
  /-- The functions that a scope needs are inserted behind its opening brace. -/
  | helpers {before after : List Token} {o c : Token} {parts : List Part}
      (hscope : IsScopeOf tokens before o parts c after) (hneeds : NeedsHelpers source parts) :
      Change source tokens ⟨o.stop, o.stop, helperText source parts⟩

/-! ### The changes of a section -/

/-- The change of a part of a scope whose names have these values. -/
def Part.change? (values : List (Text × Text)) : Part → Option Edit
  | kept t _ => t.edit? (Token.replacement? values)
  | declared keyword tail _ => some ⟨keyword.start.offset, (tail.getLastD keyword).stop, []⟩

/-- The changes of a section. -/
def Section.changes (source : Text) : Section → List Edit
  | outside t => (t.edit? Token.hash?).toList
  | scope opening parts _ =>
    helperEdits opening (scopeHelpers (boundIn source parts) (parts.map Part.item)) ++
      parts.filterMap (Part.change? (boundIn source parts).values)

/-- A scope has a body in braces, and what stands outside of the scopes declares nothing. -/
def Section.WellFormed : Section → Prop
  | outside t => t.kind.isDeclaration = false
  | scope opening parts closing =>
    opening.kind = .openBrace ∧ closing.kind = .closeBrace ∧ ∃ inner, IsBody closing inner parts

section

variable {source : Text} {interface : Interface} {tokens : List Token} {program : List Section}
  {parts : List Part} {inner : List Token} {o : Nat}

/-! ### Which functions are needed -/

theorem any_calls_iff {b : Bindings} {name : Text} :
    (parts.map Part.item).any (Item.calls b name) = true ↔
      Calls parts name ∧ b.value? name = none := by
  rw [List.any_map, List.any_eq_true]
  constructor
  · rintro ⟨p, hp, hcalls⟩
    cases p with
    | kept t next =>
      simp only [Function.comp_apply, Part.item, Item.calls, Bool.and_eq_true, decide_eq_true_eq,
        Option.isNone_iff_eq_none] at hcalls
      obtain ⟨⟨⟨hkind, hvalue⟩, hnext⟩, hnone⟩ := hcalls
      exact ⟨⟨t, next, hp, hkind, hvalue, hnext⟩, hnone⟩
    | declared => cases hcalls
  · rintro ⟨⟨t, next, hp, hkind, hvalue, hnext⟩, hnone⟩
    exact ⟨_, hp, by simp [Part.item, Item.calls, hkind, hvalue, hnext, hnone]⟩

theorem contains_definedName?_iff {name : Text} :
    ((parts.map Part.item).filterMap Item.definedName?).contains name = true ↔
      Defines parts name := by
  rw [List.contains_iff_mem, List.mem_filterMap]
  constructor
  · rintro ⟨item, hitem, hname⟩
    obtain ⟨p, hp, rfl⟩ := List.mem_map.1 hitem
    cases p with
    | kept t next =>
      simp only [Part.item, Item.definedName?, Option.ite_none_right_eq_some, Bool.and_eq_true,
        decide_eq_true_eq, Option.some.injEq] at hname
      exact ⟨t, next, hp, hname.1.1, hname.1.2, hname.2⟩
    | declared => cases hname
  · rintro ⟨t, next, hp, hkind, hnext, rfl⟩
    exact ⟨_, List.mem_map.2 ⟨_, hp, rfl⟩, by simp [Part.item, Item.definedName?, hkind, hnext]⟩

theorem structs_boundIn_eq_nil_iff :
    (boundIn source parts).structs = [] ↔ ¬ ∃ s, .struct s ∈ declarationsOf parts := by
  rw [boundIn, List.filterMap_eq_nil_iff]
  constructor
  · rintro h ⟨s, hs⟩
    simpa [Declaration.struct?] using h _ hs
  · intro h d hd
    cases d with
    | struct s => exact absurd ⟨s, hd⟩ h
    | _ => rfl

theorem accessors_ne_nil (s : Struct) : s.accessors ≠ [] := by
  unfold Struct.accessors
  cases s.fields <;> simp [Struct.accessorsFrom, Field.accessors]

/-- **Functions are inserted** exactly where they are needed. -/
theorem scopeHelpers_ne_nil_iff :
    scopeHelpers (boundIn source parts) (parts.map Part.item) ≠ [] ↔ NeedsHelpers source parts := by
  by_cases hstructs : ∃ s, .struct s ∈ declarationsOf parts
  · refine iff_of_true (fun hnil ↦ ?_) (.inl hstructs)
    have hne : (boundIn source parts).structs ≠ [] :=
      fun h ↦ structs_boundIn_eq_nil_iff.1 h hstructs
    obtain ⟨s, rest, hs⟩ := List.exists_cons_of_ne_nil hne
    rw [scopeHelpers, hs] at hnil
    simp [accessors_ne_nil] at hnil
  · have hnil : (boundIn source parts).structs = [] := structs_boundIn_eq_nil_iff.2 hstructs
    have hneeds : ∀ name, ((parts.map Part.item).any (Item.calls (boundIn source parts) name) &&
        !((parts.map Part.item).filterMap Item.definedName?).contains name) = true ↔
          Calls parts name ∧ ¬ Defines parts name ∧ (boundIn source parts).value? name = none := by
      intro name
      rw [Bool.and_eq_true, any_calls_iff, Bool.not_eq_true', ← Bool.not_eq_true,
        contains_definedName?_iff]
      tauto
    simp only [NeedsHelpers, hstructs, false_or, ← hneeds, scopeHelpers, hnil, List.mem_cons,
      List.not_mem_nil, or_false, exists_eq_or_imp, exists_eq_left, List.flatMap_nil,
      List.nil_append, List.isEmpty_nil, Bool.not_true, Bool.false_or, ne_eq,
      List.append_eq_nil_iff, ite_eq_right_iff, reduceCtorEq, imp_false, not_and_or, not_not]

/-! ### Edits and changes -/

theorem edit?_eq_of_outside {t : Token} (h : interface.hash? t = t.hash?) :
    ({} : Bindings).edit? interface t = t.edit? Token.hash? := by
  have hreplace : ({} : Bindings).replacement? interface t = t.hash? :=
    (Bindings.replacement?_eq h).trans t.replacement?_nil
  rw [Bindings.edit?_eq, Token.edit?, Token.edit?, hreplace]

theorem edits_scope {opening closing : Token} (hbody : IsBody closing inner parts)
    (hinner : Placed source o inner) (hhash : ∀ t ∈ inner, interface.hash? t = t.hash?) :
    (Section.scope opening parts closing).edits source interface =
      (Section.scope opening parts closing).changes source := by
  rw [Section.edits, Section.changes, boundBy_eq hbody hinner hhash, List.filterMap_map]
  congr 1
  refine List.filterMap_congr fun p hp ↦ ?_
  cases p with
  | kept t next =>
    have ht : t ∈ inner := by
      rw [← hbody.tokens_eq, List.mem_flatMap]
      exact ⟨_, hp, by simp [Part.tokens]⟩
    show Token.edit? ((boundIn source parts).replacement? interface) t = _
    rw [Part.change?, Token.edit?, Token.edit?, Bindings.replacement?_eq (hhash t ht)]
  | declared keyword tail d => rfl

/-! ### The changes are in order -/

theorem within_token {t : Token} (ht : t.StandsAfter source o) (text? : Token → Option Text) :
    Edit.Within o (t.edit? text?).toList t.stop := by
  have hstart := ht.le_start
  have hstop := ht.start_lt_stop
  unfold Token.edit?
  cases text? t with
  | none => exact .nil (by omega)
  | some text => exact .singleton hstart (le_of_lt hstop) (by show o < t.stop; omega) le_rfl

/-- A declaration ends behind the place where it begins. -/
theorem Placed.start_le_stop {t : Token} {ts : List Token} (h : Placed source o (t :: ts)) :
    t.start.offset ≤ (ts.getLastD t).stop := by
  obtain - | ⟨ht, hts⟩ := h
  have hstop := ht.start_lt_stop
  have hle := hts.le_stopFrom
  rw [← stopFrom_cons o, stopFrom_cons_eq] at hle
  omega

theorem within_part {p : Part} (hp : Placed source o p.tokens) (values : List (Text × Text)) :
    Edit.Within o (p.change? values).toList (stopFrom o p.tokens) := by
  cases p with
  | kept t next =>
    obtain - | ⟨ht, -⟩ := hp
    exact within_token ht _
  | declared keyword tail d =>
    obtain - | ⟨ht, htail⟩ := hp
    have hstart := ht.le_start
    have hstop := ht.start_lt_stop
    have hle : keyword.stop ≤ (tail.getLastD keyword).stop := by
      rw [← stopFrom_cons_eq o, stopFrom_cons]
      exact htail.le_stopFrom
    rw [Part.tokens, stopFrom_cons_eq]
    exact .singleton hstart
      (by show keyword.start.offset ≤ (tail.getLastD keyword).stop; omega)
      (by show o < (tail.getLastD keyword).stop; omega) le_rfl

theorem within_parts (hparts : Placed source o (parts.flatMap Part.tokens))
    (values : List (Text × Text)) :
    Edit.Within o (parts.filterMap (Part.change? values))
      (stopFrom o (parts.flatMap Part.tokens)) := by
  induction parts generalizing o with
  | nil => exact .nil le_rfl
  | cons p parts ih =>
    rw [List.flatMap_cons] at hparts ⊢
    obtain ⟨hp, hrest⟩ := Placed.append_iff.1 hparts
    rw [filterMap_cons_eq, stopFrom_append]
    exact (within_part hp values).append (ih hrest)

theorem within_helperEdits {t : Token} (ht : t.StandsAfter source o) (helpers : List Text) :
    Edit.Within o (helperEdits t helpers) t.stop := by
  have hstart := ht.le_start
  have hstop := ht.start_lt_stop
  unfold helperEdits
  split
  · exact .nil (by omega)
  · exact .singleton (by show o ≤ t.stop; omega) le_rfl (by show o < t.stop; omega) le_rfl

/-- A scope stands in a source when its braces do, with its parts between them. -/
theorem Section.placed_scope_iff {opening closing : Token} :
    Placed source o (Section.scope opening parts closing).tokens ↔
      opening.StandsAfter source o ∧ Placed source opening.stop (parts.flatMap Part.tokens) ∧
        closing.StandsAfter source (stopFrom opening.stop (parts.flatMap Part.tokens)) := by
  rw [Section.tokens]
  constructor
  · rintro (- | ⟨hopening, hinside⟩)
    obtain ⟨hparts, - | ⟨hclosing, -⟩⟩ := Placed.append_iff.1 hinside
    exact ⟨hopening, hparts, hclosing⟩
  · rintro ⟨hopening, hparts, hclosing⟩
    exact .cons hopening (Placed.append_iff.2 ⟨hparts, .cons hclosing (.nil hclosing.stop_le)⟩)

theorem IsBody.placed_inner {opening closing : Token} (hbody : IsBody closing inner parts)
    (hs : Placed source o (Section.scope opening parts closing).tokens) :
    Placed source opening.stop inner := by
  obtain ⟨-, hparts, -⟩ := Section.placed_scope_iff.1 hs
  rwa [hbody.tokens_eq] at hparts

/-- The changes of a placed section are in order. -/
theorem Section.within_changes {s : Section} (hs : Placed source o s.tokens) :
    Edit.Within o (s.changes source) (stopFrom o s.tokens) := by
  cases s with
  | outside t =>
    obtain - | ⟨ht, -⟩ := hs
    exact within_token ht _
  | scope opening parts closing =>
    obtain ⟨hopening, hparts, hclosing⟩ := Section.placed_scope_iff.1 hs
    have hle : stopFrom opening.stop (parts.flatMap Part.tokens) ≤ closing.stop :=
      hclosing.le_start.trans (le_of_lt hclosing.start_lt_stop)
    rw [Section.tokens, stopFrom_cons, stopFrom_append, stopFrom_cons]
    -- the insertion ends where the parts begin, and the closing brace has no edit
    have hhelpers := within_helperEdits hopening
      (scopeHelpers (boundIn source parts) (parts.map Part.item))
    have hall := hhelpers.append
      ((within_parts hparts (boundIn source parts).values).append (.nil hle))
    rwa [List.append_nil] at hall

theorem within_changes (hprogram : Placed source o (Section.tokensOf program)) :
    Edit.Within o (program.flatMap (Section.changes source))
      (stopFrom o (Section.tokensOf program)) := by
  induction program generalizing o with
  | nil => exact .nil le_rfl
  | cons s program ih =>
    obtain ⟨hs, hrest⟩ := Placed.append_iff.1 (show Placed source o (s.tokens ++ _) from hprogram)
    show Edit.Within o (_ ++ _) (stopFrom o (s.tokens ++ Section.tokensOf program))
    rw [stopFrom_append]
    exact (Section.within_changes hs).append (ih hrest)

/-! ### Which changes there are -/

/-- Every scope of a program has a body. -/
theorem IsProgram.exists_isBody {before inner after : List Token} {o c : Token}
    (h : IsProgram tokens program) (heq : tokens = before ++ o :: (inner ++ c :: after))
    (hscope : IsScope (Segment.usesObjects tokens) before o inner c after) :
    ∃ parts, IsBody c inner parts ∧ .scope o parts c ∈ program := by
  obtain ⟨segs, hsegs, hreads⟩ := h
  obtain ⟨segs₁, segs₂, rfl, -, -⟩ := hsegs.isScope_iff.1 ⟨heq, hscope⟩
  have hmem : Segment.scope o inner c ∈ segs₁ ++ Segment.scope o inner c :: segs₂ := by simp
  obtain ⟨s, hs, hread⟩ := exists_mem_of_mem_left hreads hmem
  cases hread with
  | scope hbody => exact ⟨_, hbody, hs⟩

theorem IsProgram.mem_of_isScopeOf {before after : List Token} {o c : Token}
    (h : IsProgram tokens program) (hscope : IsScopeOf tokens before o parts c after) :
    .scope o parts c ∈ program := by
  obtain ⟨inner, heq, hscope, hbody⟩ := hscope
  obtain ⟨parts', hbody', hmem⟩ := h.exists_isBody heq hscope
  rwa [hbody.unique hbody']

theorem IsProgram.mem_of_not_inScope {front back : List Token} {t : Token}
    (h : IsProgram tokens program) (heq : tokens = front ++ t :: back)
    (hout : ¬ InScope (Segment.usesObjects tokens) front (t :: back))
    (ht : t.kind ≠ .openBrace ∧ t.kind ≠ .closeBrace) : .outside t ∈ program := by
  obtain ⟨segs, hsegs, hreads⟩ := h
  rcases hsegs.place_cases heq with ⟨segs₁, segs₂, rfl, -, -⟩ | hbrace |
    ⟨segs₁, o, inner₁, inner₂, c, segs₂, hmem, rfl, rfl⟩
  · have hmem : Segment.outside t ∈ segs₁ ++ Segment.outside t :: segs₂ := by simp
    obtain ⟨s, hs, hread⟩ := exists_mem_of_mem_left hreads hmem
    cases hread
    exact hs
  · exact absurd hbrace (not_or.2 ht)
  · refine absurd ((hsegs.inScope_iff heq).2 ?_) hout
    exact ⟨segs₁, o, inner₁, t :: inner₂, c, segs₂, hmem, rfl, by simp⟩

/-- A section of a program that is a scope. -/
theorem IsProgram.isScopeOf {p₁ p₂ : List Section} {o c : Token}
    (h : IsProgram tokens (p₁ ++ .scope o parts c :: p₂)) :
    IsScopeOf tokens (Section.tokensOf p₁) o parts c (Section.tokensOf p₂) := by
  obtain ⟨inner, heq, hscope, hbody, -⟩ := h.isScope
  exact ⟨inner, heq, hscope, hbody⟩

/-- The sections of a program are well formed. -/
theorem IsProgram.wellFormed {s : Section} (h : IsProgram tokens program) (hs : s ∈ program) :
    s.WellFormed := by
  cases s with
  | outside t =>
    obtain ⟨segs, -, hreads⟩ := h
    obtain ⟨seg, -, hseg⟩ := exists_mem_of_mem_right hreads hs
    cases hseg
    assumption
  | scope opening parts closing =>
    obtain ⟨p₁, p₂, rfl⟩ := List.append_of_mem hs
    obtain ⟨inner, -, hscope, hbody, -⟩ := h.isScope
    exact ⟨hscope.1.opening, hscope.1.closing, inner, hbody⟩

theorem mem_edit?_iff {t : Token} {text? : Token → Option Text} {e : Edit} :
    t.edit? text? = some e ↔ ∃ text, text? t = some text ∧ e = ⟨t.start.offset, t.stop, text⟩ := by
  simp [Token.edit?, @eq_comm _ e]

theorem mem_helperEdits_iff {opening : Token} {helpers : List Text} {e : Edit} :
    e ∈ helperEdits opening helpers ↔
      helpers ≠ [] ∧
        e = ⟨opening.stop, opening.stop, '\n' :: joinWith ['\n'] helpers ++ ['\n']⟩ := by
  unfold helperEdits
  cases helpers <;> simp

theorem IsProgram.change_of_mem (h : IsProgram tokens program) {e : Edit}
    (hall : e ∈ program.flatMap (Section.changes source)) : Change source tokens e := by
  obtain ⟨s, hs, he⟩ := List.mem_flatMap.1 hall
  obtain ⟨p₁, p₂, rfl⟩ := List.append_of_mem hs
  cases s with
  | outside t =>
    obtain ⟨hash, hhash, rfl⟩ := mem_edit?_iff.1 (Option.mem_toList.1 he)
    have heq : tokens = Section.tokensOf p₁ ++ t :: Section.tokensOf p₂ := by
      simpa [Section.tokensOf, Section.tokens] using h.tokensOf_eq.symm
    exact .hashOutside heq h.not_inScope hhash
  | scope o parts c =>
    have hscope := h.isScopeOf
    rcases List.mem_append.1 he with he | he
    · obtain ⟨hne, rfl⟩ := mem_helperEdits_iff.1 he
      exact .helpers hscope (scopeHelpers_ne_nil_iff.1 hne)
    · obtain ⟨p, hp, he⟩ := List.mem_filterMap.1 he
      cases p with
      | kept t next =>
        obtain ⟨text, htext, rfl⟩ := mem_edit?_iff.1 he
        rw [Token.replacement?] at htext
        split at htext
        · rename_i hname
          exact .name hscope hp hname htext
        · exact .hashInside hscope hp htext
      | declared keyword tail d =>
        cases he
        exact .deletion hscope hp

/-- A change in a scope is a change of one of its parts, except for the insertion. -/
theorem IsProgram.mem_of_part {before after : List Token} {o c : Token} {p : Part} {e : Edit}
    (h : IsProgram tokens program) (hscope : IsScopeOf tokens before o parts c after)
    (hp : p ∈ parts) (he : p.change? (boundIn source parts).values = some e) :
    e ∈ program.flatMap (Section.changes source) := by
  refine List.mem_flatMap.2 ⟨_, h.mem_of_isScopeOf hscope, List.mem_append_right _ ?_⟩
  exact List.mem_filterMap.2 ⟨p, hp, he⟩

theorem IsProgram.mem_of_change (h : IsProgram tokens program) {e : Edit}
    (hchange : Change source tokens e) : e ∈ program.flatMap (Section.changes source) := by
  cases hchange with
  | deletion hscope hd => exact h.mem_of_part hscope hd rfl
  | @hashOutside front back t hash heq hout hhash =>
    have hk := Token.isHash_of_hash?_eq hhash
    have ht : t.kind ≠ .openBrace ∧ t.kind ≠ .closeBrace := by
      constructor <;> intro hbrace <;> simp [hbrace, TokenKind.isHash] at hk
    have hmem := h.mem_of_not_inScope heq hout ht
    refine List.mem_flatMap.2 ⟨_, hmem, Option.mem_toList.2 ?_⟩
    exact mem_edit?_iff.2 ⟨hash, hhash, rfl⟩
  | @hashInside before after o c t next parts hash hscope hkept hhash =>
    have ht := Token.isHash_of_hash?_eq hhash
    refine h.mem_of_part hscope hkept (mem_edit?_iff.2 ⟨hash, ?_, rfl⟩)
    rw [Token.replacement?, if_neg (fun hk ↦ by simp [hk, TokenKind.isHash] at ht), hhash]
  | @name before after o c t next parts value hscope hkept hname hvalue =>
    refine h.mem_of_part hscope hkept (mem_edit?_iff.2 ⟨value, ?_, rfl⟩)
    rw [Token.replacement?, if_pos hname]
    exact hvalue
  | helpers hscope hneeds =>
    refine List.mem_flatMap.2 ⟨_, h.mem_of_isScopeOf hscope, List.mem_append_left _ ?_⟩
    exact mem_helperEdits_iff.2 ⟨scopeHelpers_ne_nil_iff.2 hneeds, rfl⟩

/-- **The changes of a program** are the changes that its tokens call for. -/
theorem IsProgram.mem_changes_iff (h : IsProgram tokens program) {e : Edit} :
    e ∈ program.flatMap (Section.changes source) ↔ Change source tokens e :=
  ⟨h.change_of_mem, h.mem_of_change⟩

/-! ### The program of a source -/

/-- The sections of a source stand in it; the last one is the token that closes the list. -/
theorem IsProgram.exists_placed (h : IsProgram tokens program)
    (htokens : tokenize source = .ok tokens) :
    ∃ sections last, program = sections ++ [.outside last] ∧
      Placed source 0 (Section.tokensOf sections) ∧
      last.Closes source (stopFrom 0 (Section.tokensOf sections)) := by
  obtain ⟨front, last, rfl, hplaced, hlast⟩ := exists_placed_of_tokenize htokens
  have heq := h.tokensOf_eq
  rcases List.eq_nil_or_concat program with rfl | ⟨sections, s, rfl⟩
  · simp [Section.tokensOf] at heq
  rw [List.concat_eq_append] at h heq ⊢
  have hsplit : Section.tokensOf sections ++ s.tokens = front ++ [last] := by
    simpa [Section.tokensOf] using heq
  cases s with
  | outside t =>
    obtain ⟨rfl, hlast'⟩ := List.append_inj' hsplit rfl
    obtain rfl := List.singleton_inj.1 hlast'
    exact ⟨sections, t, rfl, hplaced, hlast⟩
  | scope o parts c =>
    -- a scope ends with a brace, and the list does not
    obtain ⟨inner, -, hscope, -⟩ := h.isScope
    have hc : c = last := by
      have hend : ((o :: parts.flatMap Part.tokens) ++ [c]).getLast? = some last := by
        simpa [Section.tokens] using congrArg List.getLast? hsplit
      rw [List.getLast?_concat] at hend
      exact Option.some.inj hend
    have hclosing := hscope.1.closing
    rw [hc, hlast.kind_eq] at hclosing
    cases hclosing

/-- **The edits of a program are its changes.** -/
theorem edits_eq_changes (h : IsProgram tokens program) (htokens : tokenize source = .ok tokens)
    (hinterface : Interface.ofTokens tokens = .ok interface) :
    program.flatMap (Section.edits source interface) =
      program.flatMap (Section.changes source) := by
  obtain ⟨sections, last, rfl, hplaced, -⟩ := h.exists_placed htokens
  have hhash : ∀ t ∈ tokens, interface.hash? t = t.hash? :=
    fun t ht ↦ Interface.hash?_eq hinterface ht
  refine List.flatMap_congr fun s hs ↦ ?_
  have hsub : ∀ t ∈ s.tokens, t ∈ tokens := by
    intro t ht
    rw [← h.tokensOf_eq]
    exact List.mem_flatMap.2 ⟨s, hs, ht⟩
  cases s with
  | outside t =>
    exact congrArg Option.toList (edit?_eq_of_outside (hhash t (hsub t (by simp [Section.tokens]))))
  | scope o parts c =>
    have hmem : Section.scope o parts c ∈ sections := by simpa using hs
    obtain ⟨p₁, p₂, rfl⟩ := List.append_of_mem hmem
    rw [List.append_assoc] at h
    obtain ⟨inner, -, -, hbody, -⟩ := h.isScope
    have hsplit : Section.tokensOf (p₁ ++ .scope o parts c :: p₂) =
        (Section.tokensOf p₁ ++ [o]) ++ (inner ++ c :: Section.tokensOf p₂) := by
      simp [Section.tokensOf, Section.tokens, hbody.tokens_eq]
    rw [hsplit] at hplaced
    obtain ⟨hinner, -⟩ := Placed.append_iff.1 (Placed.append_iff.1 hplaced).2
    refine edits_scope hbody hinner fun t ht ↦ hhash t (hsub t ?_)
    simp [Section.tokens, hbody.tokens_eq, ht]

/-! ### Around a scope -/

/-- The token that closes the list has no change. -/
theorem Token.Closes.changes_eq_nil {last : Token} (h : last.Closes source o) :
    (Section.outside last).changes source = [] := by
  have hhash : last.hash? = none := by rw [Token.hash?, h.kind_eq]
  simp [Section.changes, Token.edit?, hhash]

/-- A scope of a source, what stands in front of it and what stands behind it. -/
theorem IsProgram.exists_placed_scope {P Q : List Section} {t c : Token}
    (h : IsProgram tokens (P ++ .scope t parts c :: Q)) (htokens : tokenize source = .ok tokens) :
    ∃ Q' last, Q = Q' ++ [.outside last] ∧ Placed source 0 (Section.tokensOf P) ∧
      Placed source (stopFrom 0 (Section.tokensOf P)) (Section.scope t parts c).tokens ∧
      Placed source c.stop (Section.tokensOf Q') ∧
      last.Closes source (stopFrom c.stop (Section.tokensOf Q')) := by
  obtain ⟨sections, last, hsections, hplaced, hlast⟩ := h.exists_placed htokens
  obtain ⟨Q, rfl, rfl⟩ : ∃ Q', Q = Q' ++ [.outside last] ∧
      sections = P ++ .scope t parts c :: Q' := by
    rcases List.eq_nil_or_concat Q with rfl | ⟨Q', s, rfl⟩
    · cases (List.append_inj' hsections rfl).2
    · have hsplit : (P ++ .scope t parts c :: Q') ++ [s] = sections ++ [.outside last] := by
        simpa using hsections
      obtain ⟨rfl, hs⟩ := List.append_inj' hsplit rfl
      obtain rfl := List.singleton_inj.1 hs
      exact ⟨Q', by simp, rfl⟩
  have htokensOf : Section.tokensOf (P ++ .scope t parts c :: Q) = Section.tokensOf P ++
      ((Section.scope t parts c).tokens ++ Section.tokensOf Q) := by simp [Section.tokensOf]
  have hstop : ∀ m, stopFrom m (Section.scope t parts c).tokens = c.stop := by
    intro m
    rw [Section.tokens, stopFrom_cons, stopFrom_append, stopFrom_cons]
    rfl
  rw [htokensOf] at hplaced hlast
  obtain ⟨hP, hrest⟩ := Placed.append_iff.1 hplaced
  obtain ⟨hscope, hQ⟩ := Placed.append_iff.1 hrest
  rw [hstop] at hQ
  rw [stopFrom_append, stopFrom_append, hstop] at hlast
  exact ⟨Q, last, rfl, hP, hscope, hQ, hlast⟩

/-- The changes of a scope lie between its braces. -/
theorem Section.between_changes {t c : Token}
    (hs : Placed source o (Section.scope t parts c).tokens) :
    Edit.Between t.stop c.start.offset ((Section.scope t parts c).changes source) := by
  have hwithin := Section.within_changes hs
  obtain ⟨-, hparts, hclosing⟩ := Section.placed_scope_iff.1 hs
  have hle := hparts.le_stopFrom
  have hstop := hclosing.le_start
  refine ⟨hwithin.pairwise.imp fun hef ↦ hef.1, fun e he ↦ ?_⟩
  rcases List.mem_append.1 he with he | he
  · obtain ⟨-, rfl⟩ := mem_helperEdits_iff.1 he
    exact ⟨le_rfl, le_rfl, hle.trans hstop⟩
  · obtain ⟨hstart, hle', -, hstop'⟩ := (within_parts hparts _).bounds e he
    exact ⟨hstart, hle', hstop'.trans hstop⟩

/-- The changes in front of a scope, those of the scope, and those behind it. -/
theorem IsProgram.between_changes {P Q : List Section} {t c : Token}
    (h : IsProgram tokens (P ++ .scope t parts c :: Q)) (htokens : tokenize source = .ok tokens) :
    Edit.Between 0 t.start.offset (P.flatMap (Section.changes source)) ∧
      Edit.Between t.stop c.start.offset ((Section.scope t parts c).changes source) ∧
      Edit.Between c.stop source.length (Q.flatMap (Section.changes source)) := by
  obtain ⟨Q, last, rfl, hP, hscope, hQ, hlast⟩ := h.exists_placed_scope htokens
  have hstart : stopFrom 0 (Section.tokensOf P) ≤ t.start.offset := by
    obtain ⟨ht, -, -⟩ := Section.placed_scope_iff.1 hscope
    exact ht.le_start
  refine ⟨(within_changes hP).between hstart, Section.between_changes hscope, ?_⟩
  rw [List.flatMap_append, List.flatMap_singleton, hlast.changes_eq_nil, List.append_nil]
  exact (within_changes hQ).between hlast.le_length

/-! ### Sources without changes -/

theorem IsBody.spells_of_mem {closing keyword : Token} {tail : List Token} {d : Declaration}
    (h : IsBody closing inner parts) (hd : .declared keyword tail d ∈ parts) :
    d.Spells (keyword :: tail) := by
  induction h with
  | nil => cases hd
  | kept _ _ ih =>
    rcases List.mem_cons.1 hd with hd | hd
    · cases hd
    · exact ih hd
  | declared hspells _ _ ih =>
    rcases List.mem_cons.1 hd with hd | hd
    · cases hd
      exact hspells
    · exact ih hd

/-- Without declarations and hash literals, and where no scope needs functions, nothing changes. -/
theorem not_change (htokens : ∀ t ∈ tokens, t.kind.isDeclaration = false ∧ t.kind.isHash = false)
    (hneeds : ∀ before o parts c after, IsScopeOf tokens before o parts c after →
      ¬ NeedsHelpers source parts) (e : Edit) : ¬ Change source tokens e := by
  have hpart : ∀ {before o parts c after p}, IsScopeOf tokens before o parts c after →
      p ∈ parts → ∀ t ∈ p.tokens, t.kind.isDeclaration = false ∧ t.kind.isHash = false := by
    rintro before o parts c after p ⟨inner, rfl, -, hbody⟩ hp t ht
    have hinner : t ∈ inner := by
      rw [← hbody.tokens_eq]
      exact List.mem_flatMap.2 ⟨p, hp, ht⟩
    exact htokens t (by simp [hinner])
  have hnone : ∀ {before o parts c after keyword tail d},
      IsScopeOf tokens before o parts c after → .declared keyword tail d ∉ parts := by
    rintro before o parts c after keyword tail d hscope hd
    have hfalse := (hpart hscope hd keyword (by simp [Part.tokens])).1
    obtain ⟨inner, -, -, hbody⟩ := hscope
    rw [(hbody.spells_of_mem hd).isDeclaration] at hfalse
    cases hfalse
  have hdeclared : ∀ {before o parts c after}, IsScopeOf tokens before o parts c after →
      declarationsOf parts = [] := by
    intro before o parts c after hscope
    refine List.filterMap_eq_nil_iff.2 fun p hp ↦ ?_
    cases p with
    | kept => rfl
    | declared keyword tail d => exact absurd hp (hnone hscope)
  intro h
  cases h with
  | deletion hscope hd => exact hnone hscope hd
  | @hashOutside _ _ t _ heq _ hhash =>
    have hfalse := (htokens t (by simp [heq])).2
    rw [Token.isHash_of_hash?_eq hhash] at hfalse
    cases hfalse
  | @hashInside _ _ _ _ t _ _ _ hscope ht hhash =>
    have hfalse := (hpart hscope ht t (by simp [Part.tokens])).2
    rw [Token.isHash_of_hash?_eq hhash] at hfalse
    cases hfalse
  | name hscope _ _ hvalue =>
    rw [boundIn, hdeclared hscope] at hvalue
    cases hvalue
  | helpers hscope hn => exact hneeds _ _ _ _ _ hscope hn

/-- **A lowered source** has a program, and its code is the source with the changes of the program
made, which are in order. -/
theorem exists_program_of_lower {r : Lowered} (h : lower source = .ok r) :
    ∃ tokens program, tokenize source = .ok tokens ∧ IsProgram tokens program ∧
      Interface.ofTokens tokens = .ok r.interface ∧
      lowerTokens source tokens = .ok (r.interface, program.flatMap (Section.changes source)) ∧
      Edit.Within 0 (program.flatMap (Section.changes source)) source.length ∧
      r.code = Edit.applyAll (program.flatMap (Section.changes source)) source := by
  obtain ⟨tokens, program, htokens, hnested, hinterface, hprogram, hcode⟩ := lower_eq_ok_iff.1 h
  have hlower : lowerTokens source tokens =
      .ok (r.interface, program.flatMap (Section.edits source r.interface)) :=
    lowerTokens_eq_ok_iff.2 ⟨hnested, hinterface, program, hprogram, rfl⟩
  rw [edits_eq_changes hprogram htokens hinterface] at hcode hlower
  refine ⟨tokens, program, htokens, hprogram, hinterface, hlower, ?_, hcode⟩
  obtain ⟨sections, last, rfl, hplaced, hlast⟩ := hprogram.exists_placed htokens
  rw [List.flatMap_append, List.flatMap_singleton, hlast.changes_eq_nil]
  exact (within_changes hplaced).append (.nil hlast.le_length)

/-- **What lowering changes.** The edits are exactly the changes, they lie in the source, in order
and without overlap, and the code is the source with these edits made and everything else kept. A
source in which nothing is to be changed is its own code, and its interface is empty. -/
theorem lower_changes {r : Lowered} (h : lower source = .ok r) :
    ∃ tokens edits, tokenize source = .ok tokens ∧
      lowerTokens source tokens = .ok (r.interface, edits) ∧
      (∀ e, e ∈ edits ↔ Change source tokens e) ∧
      (∀ e ∈ edits, e.start ≤ e.stop ∧ e.stop ≤ source.length) ∧
      edits.Pairwise (fun e f ↦ e.stop ≤ f.start ∧ e.stop < f.stop) ∧
      Edit.Spliced 0 edits source r.code ∧
      ((∀ t ∈ tokens, t.kind.isDeclaration = false ∧ t.kind.isHash = false) →
        (∀ before o parts c after, IsScopeOf tokens before o parts c after →
          ¬ NeedsHelpers source parts) →
        r = ⟨source, {}⟩) := by
  obtain ⟨tokens, program, htokens, hprogram, hinterface, hlower, hwithin, hcode⟩ :=
    exists_program_of_lower h
  refine ⟨tokens, _, htokens, hlower, fun e ↦ hprogram.mem_changes_iff, fun e he ↦ ?_,
    hwithin.pairwise, ?_, fun hplain hneeds ↦ ?_⟩
  · obtain ⟨-, hle, -, hstop⟩ := hwithin.bounds e he
    exact ⟨hle, hstop⟩
  · rw [hcode]
    exact Edit.spliced_applyFrom hwithin (by simp)
  · have hnil : program.flatMap (Section.changes source) = [] :=
      List.eq_nil_iff_forall_not_mem.2 fun e he ↦
        not_change hplain hneeds e (hprogram.mem_changes_iff.1 he)
    rw [Interface.ofTokens_eq_empty fun t ht ↦ (hplain t ht).2] at hinterface
    rw [hnil] at hcode
    obtain ⟨code, interface⟩ := r
    cases hinterface
    rw [show code = source from hcode]

/-- A constant is deleted and its name is replaced. -/
theorem lower_changes_const :
    ∃ edits, edits ≠ [] ∧ Edit.Spliced 0 edits "\x7b const a := 1 let b := a \x7d".toList
      "\x7b  let b := 1 \x7d".toList := by
  have hlower : lower "\x7b const a := 1 let b := a \x7d".toList =
      .ok ⟨"\x7b  let b := 1 \x7d".toList, {}⟩ := by decide +kernel
  obtain ⟨tokens, edits, -, -, -, -, -, hspliced, -⟩ := lower_changes hlower
  refine ⟨edits, ?_, hspliced⟩
  rintro rfl
  generalize ho : "\x7b  let b := 1 \x7d".toList = out at hspliced
  cases hspliced
  exact absurd ho (by decide)

end

end YulPlus
