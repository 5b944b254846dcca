import YulPlus.Proofs.Lowering.Assembled

/-!
# Library functions are there where they are called

Where a lowered scope calls `mslice` or `require`, it also defines the function, and the definition
is inserted at most once, and never beside one that the scope has itself (`lower_provides`).

Whether a function is `Wanted` is found out from the tokens of the scope, before names are replaced
and declarations are taken out. So there are calls that come about only by lowering, and these are
`Overlooked`: a constant whose expression mentions the function, a call with declarations in front
of its parenthesis, and a definition of the scope that a constant gives another name. Then the
function is missing where it is called (`lower_forgets_const`).

The proof compares two lists of pieces. In the expansion of the scope a name with a parenthesis
behind it comes from an inserted function or from a call in the scope
(`wanted_of_infix_expansion`); and what the lexer makes of the text differs from the expansion in
ways that can neither bring such a call about nor take a definition away. -/

namespace YulPlus

open Text

/-- Among the tokens is a call of the function `name`. -/
def ReadsCall (name : Text) (tokens : List Token) : Prop :=
  [(.identifier, name), (.openParen, ['('])] <:+: tokens.map Token.reading

/-- Among the tokens is a definition of the function `name`. -/
def ReadsDefinition (name : Text) (tokens : List Token) : Prop :=
  [(.functionWord, "function".toList), (.identifier, name)] <:+: tokens.map Token.reading

instance (name : Text) (tokens : List Token) : Decidable (ReadsCall name tokens) :=
  inferInstanceAs (Decidable (_ <:+: _))

instance (name : Text) (tokens : List Token) : Decidable (ReadsDefinition name tokens) :=
  inferInstanceAs (Decidable (_ <:+: _))

/-- The text defines one function, and it is called `name`. -/
def DefinesOnly (name f : Text) : Prop :=
  ∃ ws, Lexes f ((.functionWord, "function".toList) :: (.identifier, name) :: ws) ∧
    ∀ x ∈ ws, x.1 ≠ .functionWord

/-- There is a reason to insert the function `name`: the scope calls it, under a name that stands
for nothing else, or it is `mslice` and a struct has functions that call it. -/
inductive Wanted (parts : List Part) (name : Text) : Prop
  | call (hcalls : Calls parts name) (hfree : ∀ m ∈ meaningsOf (declarationsOf parts), m.1 ≠ name)
  | struct {s : Struct} (hname : name = sliceName) (hs : .struct s ∈ declarationsOf parts)

/-- Lowering brings about a call of the function `name` that is neither wanted nor defined, or it
takes the definition away. -/
inductive Overlooked (parts : List Part) (name : Text) : Prop
  /-- A name is used that stands for an expression with the function in it. -/
  | value {t next : Token} {ws : List (TokenKind × Text)} (hwanted : ¬ Wanted parts name)
      (hdefines : ¬ Defines parts name) (ht : .kept t next ∈ parts) (hname : t.kind = .identifier)
      (hws : (t.value, ws) ∈ meaningsOf (declarationsOf parts)) (hmem : (.identifier, name) ∈ ws)
  /-- Declarations stand between the function and the parenthesis of its call. -/
  | torn {front ds back : List Part} {t next u after : Token} (hwanted : ¬ Wanted parts name)
      (hdefines : ¬ Defines parts name)
      (hparts : parts = front ++ .kept t next :: (ds ++ .kept u after :: back))
      (hne : ds ≠ []) (hds : ∀ p ∈ ds, p.declaration?.isSome = true)
      (ht : t.kind = .identifier) (hname : t.value = name) (hu : u.kind = .openParen)
  /-- The scope defines the function, and a constant of the same name replaces the name by something
  else. -/
  | renamed {ws : List (TokenKind × Text)} (hdefines : Defines parts name)
      (hws : (name, ws) ∈ meaningsOf (declarationsOf parts)) (hother : ws ≠ [(.identifier, name)])

section

variable {source name : Text} {parts front ps : List Part} {inner : List Token}
  {opening closing t next : Token} {o : Nat} {ws : List (TokenKind × Text)}
  {wss : List (List (TokenKind × Text))} {y : TokenKind × Text}
  {values : List (Text × Text)} {meanings : List (Text × List (TokenKind × Text))}

/-! ### The meanings of names -/

/-- The readings are not empty and do not begin with a parenthesis. -/
def StartsPlain (ws : List (TokenKind × Text)) : Prop :=
  ∃ x xs, ws = x :: xs ∧ x.1 ≠ .openParen

/-- A name without a meaning has no value. -/
theorem ValuesMean.value?_eq_none {R : Text → List (TokenKind × Text) → Prop}
    {structs : List Struct} (h : ValuesMean R values meanings)
    (hfree : ∀ m ∈ meanings, m.1 ≠ name) : Bindings.value? ⟨values, structs⟩ name = none := by
  rw [Bindings.value?, Option.map_eq_none_iff, List.find?_eq_none]
  intro e he
  obtain ⟨m, hm, hem, -⟩ := exists_mem_of_mem_left h he
  simpa [hem] using hfree m hm

/-- What a token becomes begins with a parenthesis only if the token is one. -/
theorem Token.exists_expansion (h : ∀ m ∈ meanings, StartsPlain m.2) (t : Token) :
    ∃ x xs, t.expansion meanings = x :: xs ∧ (x.1 = .openParen → t.kind = .openParen) := by
  have hself : ∃ x xs, [t.reading] = x :: xs ∧ (x.1 = .openParen → t.kind = .openParen) :=
    ⟨_, _, rfl, fun hx ↦ hx⟩
  unfold expansion
  split
  · cases hfind : meanings.find? fun entry ↦ entry.1 = t.value with
    | none => exact hself
    | some m =>
      obtain ⟨x, xs, hws, hx⟩ := h m (List.mem_of_find?_eq_some hfind)
      exact ⟨x, xs, hws, fun hparen ↦ absurd hparen hx⟩
  · cases hhash : t.hash? with
    | none => exact hself
    | some hash => exact ⟨_, _, rfl, nofun⟩

/-- The meanings of the names of a scope begin like expressions. -/
theorem IsBody.startsPlain (h : IsBody closing inner parts) (source : Text) :
    ValuesMean (fun _ ws ↦ StartsPlain ws) (boundIn source parts).values
      (meaningsOf (declarationsOf parts)) := by
  refine valuesMean_valuesOf (fun n ↦ ⟨_, _, rfl, nofun⟩)
    fun name value hmem values meanings hm ↦ ?_
  obtain ⟨-, ds, -, -, hspells⟩ := h.exists_append_of_mem hmem
  cases hspells with
  | const _ _ _ hvalue =>
    obtain ⟨t, ts, rfl, ht⟩ := hvalue.exists_head
    have hplain : ∀ m ∈ meanings, StartsPlain m.2 := fun m hmem ↦
      (exists_mem_of_mem_right hm hmem).elim fun _ hv ↦ hv.2.2
    obtain ⟨x, xs, hx, hparen⟩ := t.exists_expansion hplain
    refine ⟨x, xs ++ ts.flatMap (Token.expansion meanings), by simp [hx], fun hx ↦ ?_⟩
    rw [hparen hx] at ht
    exact absurd ht (by decide)

/-- A name in the expansion of a token was there, or it comes from the meaning of another name. -/
theorem Token.mem_expansion_cases (hx : (.identifier, name) ∈ t.expansion meanings) :
    t.kind = .identifier ∧ ((∃ ws, (t.value, ws) ∈ meanings ∧ (.identifier, name) ∈ ws) ∨
      t.value = name ∧ t.expansion meanings = [t.reading] ∧ ∀ m ∈ meanings, m.1 ≠ t.value) := by
  unfold expansion at hx ⊢
  split at hx
  · rename_i hkind
    refine ⟨hkind, ?_⟩
    rw [if_pos hkind]
    cases hfind : meanings.find? fun entry ↦ entry.1 = t.value with
    | none =>
      rw [hfind] at hx
      have hreading : (.identifier, name) = t.reading := by simpa using hx
      refine .inr ⟨(Prod.mk.inj hreading).2.symm, rfl, fun m hm hmt ↦ ?_⟩
      simpa [hmt] using List.find?_eq_none.1 hfind m hm
    | some m =>
      rw [hfind] at hx
      have hm : m.1 = t.value := by simpa using List.find?_some hfind
      exact .inl ⟨m.2, hm ▸ List.mem_of_find?_eq_some hfind, hx⟩
  · rename_i hkind
    cases hhash : t.hash? with
    | none =>
      rw [hhash] at hx
      have hreading : (.identifier, name) = t.reading := by simpa using hx
      exact absurd (Prod.mk.inj hreading).1.symm hkind
    | some hash =>
      rw [hhash] at hx
      simp at hx

/-! ### Calls and definitions in the expansion -/

/-- The token behind a token that is kept. -/
theorem IsBody.next_eq {back : List Part}
    (h : IsBody closing inner (front ++ .kept t next :: back)) :
    next = (back.flatMap Part.tokens).headD closing := by
  induction front generalizing inner with
  | nil =>
    cases h with
    | kept _ hts => rw [hts.tokens_eq]
  | cons p front ih =>
    cases h with
    | kept _ hts | declared _ _ hts => exact ih hts

/-- What follows begins with a parenthesis only if declarations are followed by one. -/
theorem exists_of_head?_expansion (hmeanings : ∀ m ∈ meanings, StartsPlain m.2)
    (hclosing : closing.kind = .closeBrace) (hy : y.1 = .openParen)
    (h : (ps.flatMap (Part.expansion meanings) ++ [closing.reading]).head? = some y) :
    ∃ ds u after back, ps = ds ++ .kept u after :: back ∧
      (∀ p ∈ ds, p.declaration?.isSome = true) ∧ u.kind = .openParen := by
  induction ps with
  | nil =>
    obtain rfl := Option.some.inj h
    rw [show closing.reading.1 = closing.kind from rfl, hclosing] at hy
    cases hy
  | cons p ps ih =>
    cases p with
    | declared keyword tail d =>
      obtain ⟨ds, u, after, back, rfl, hds, hu⟩ := ih h
      refine ⟨_ :: ds, u, after, back, rfl, fun q hq ↦ ?_, hu⟩
      rcases List.mem_cons.1 hq with rfl | hq
      · rfl
      · exact hds q hq
    | kept u after =>
      obtain ⟨x, xs, hx, hparen⟩ := u.exists_expansion hmeanings
      rw [List.flatMap_cons, Part.expansion, hx] at h
      obtain rfl := Option.some.inj h
      exact ⟨[], u, after, ps, rfl, by simp, hparen hy⟩

/-- **A call in the expansion** of a scope is a call in the scope, of a function whose name is not
bound, unless it is overlooked. -/
theorem wanted_of_infix_expansion (hbody : IsBody closing inner parts)
    (hclosing : closing.kind = .closeBrace) (hdefines : ¬ Defines parts name)
    (hoverlooked : ¬ Overlooked parts name)
    (h : [(.identifier, name), (.openParen, ['('])] <:+:
      parts.flatMap (Part.expansion (meaningsOf (declarationsOf parts))) ++ [closing.reading]) :
    Wanted parts name := by
  have hmeanings : ∀ m ∈ meaningsOf (declarationsOf parts), StartsPlain m.2 := fun m hm ↦
    (exists_mem_of_mem_right (hbody.startsPlain []) hm).elim fun _ hv ↦ hv.2.2
  -- the induction is on the parts that are left
  suffices ∀ front ps, parts = front ++ ps →
      [(.identifier, name), (.openParen, ['('])] <:+:
        ps.flatMap (Part.expansion (meaningsOf (declarationsOf parts))) ++ [closing.reading] →
      Wanted parts name from
    this [] parts rfl h
  intro front ps hparts h
  induction ps generalizing front with
  | nil => simpa using h.length_le
  | cons p ps ih =>
    have hlater := ih (front ++ [p]) (by rw [hparts, List.append_assoc]; rfl)
    cases p with
    | declared keyword tail d => exact hlater h
    | kept t next =>
      rw [List.flatMap_cons, List.append_assoc] at h
      by_cases hmem : (.identifier, name) ∈ t.expansion (meaningsOf (declarationsOf parts))
      · have ht : .kept t next ∈ parts := by simp [hparts]
        obtain ⟨hkind, ⟨ws, hws, hmem⟩ | ⟨hname, hself, hfree⟩⟩ := Token.mem_expansion_cases hmem
        · exact by_contra fun hwanted ↦
            hoverlooked (.value hwanted hdefines ht hkind hws hmem)
        rw [Part.expansion, hself] at h
        rcases pair_infix_cons_iff.1 h with ⟨-, hhead⟩ | h
        · obtain ⟨ds, u, after, back, rfl, hds, hu⟩ :=
            exists_of_head?_expansion hmeanings hclosing rfl hhead
          cases ds with
          | nil =>
            refine .call ⟨t, next, ht, hkind, hname, ?_⟩ (hname ▸ hfree)
            rw [hparts] at hbody
            rw [hbody.next_eq]
            exact hu
          | cons d ds =>
            exact by_contra fun hwanted ↦
              hoverlooked (.torn hwanted hdefines hparts (by simp) hds hkind hname hu)
        · exact hlater h
      · exact hlater (infix_of_notMem h hmem)

/-- Only one word is the keyword of functions. -/
theorem Spelling.value_of_functionWord {v u r : Text}
    (h : Spelling (.token .functionWord v) u r) : v = "function".toList := by
  generalize hl : Lexeme.token .functionWord v = l at h
  cases h with
  | symbol hk =>
    obtain ⟨rfl, -⟩ := Lexeme.token.inj hl
    cases hk
  | @word c tail =>
    obtain ⟨hkind, rfl⟩ := Lexeme.token.inj hl
    rw [TokenKind.ofWord] at hkind
    repeat' split at hkind
    all_goals first | assumption | cases hkind
  | hash hframe =>
    obtain ⟨rfl, -⟩ := Lexeme.token.inj hl
    cases (TokenKind.frame?_of_ofFrame? hframe).2
  | _ => cases hl

/-- **A definition in the scope** is one in its expansion, if its name does not stand for something
else. -/
theorem infix_expansion_of_defines (hbody : IsBody closing inner parts)
    (hclosing : closing.kind = .closeBrace) (hinner : Placed source o inner)
    (hdefines : Defines parts name)
    (hself : ∀ ws, (name, ws) ∈ meaningsOf (declarationsOf parts) → ws = [(.identifier, name)]) :
    [(.functionWord, "function".toList), (.identifier, name)] <:+:
      parts.flatMap (Part.expansion (meaningsOf (declarationsOf parts))) := by
  obtain ⟨t, next, ht, hkind, hnext, rfl⟩ := hdefines
  generalize meaningsOf (declarationsOf parts) = meanings at hself
  obtain ⟨front, back, rfl⟩ := List.append_of_mem ht
  have heq := hbody.next_eq
  have hvalue : t.value = "function".toList := by
    have hmem : t ∈ inner := by
      rw [← hbody.tokens_eq]
      exact List.mem_flatMap.2 ⟨_, ht, by simp [Part.tokens]⟩
    obtain ⟨a, -, hstands, -⟩ := hinner.exists_standsAfter hmem
    obtain ⟨r, hr⟩ := hstands.spelling
    rw [hkind] at hr
    exact hr.value_of_functionWord
  have hfirst : t.expansion meanings = [(.functionWord, "function".toList)] := by
    simp [Token.expansion, Token.hash?, hkind, Token.reading, hvalue]
  have hsecond : next.expansion meanings = [(.identifier, next.value)] := by
    rw [Token.expansion, if_pos hnext]
    cases hfind : meanings.find? fun entry ↦ entry.1 = next.value with
    | none => simp [Token.reading, hnext]
    | some m =>
      have hm : m.1 = next.value := by simpa using List.find?_some hfind
      exact hself m.2 (hm ▸ List.mem_of_find?_eq_some hfind)
  -- the name is the next part, since it is no brace and no keyword
  cases back with
  | nil =>
    rw [show next = closing from heq, hclosing] at hnext
    cases hnext
  | cons p back =>
    cases p with
    | declared keyword tail d =>
      have hkeyword := (hbody.spells_of_mem
        (show .declared keyword tail d ∈ front ++ _ :: _ by simp)).isDeclaration
      rw [← show next = keyword from heq, hnext] at hkeyword
      cases hkeyword
    | kept u after =>
      obtain rfl : next = u := heq
      refine ⟨front.flatMap (Part.expansion meanings), back.flatMap (Part.expansion meanings), ?_⟩
      simp [Part.expansion, hfirst, hsecond]

/-! ### The inserted functions -/

theorem IsFunction.definesOnly {names : List Text} {n f : Text} (h : IsFunction names n f) :
    DefinesOnly n f := by
  obtain ⟨ws, hlex, hall⟩ := h
  exact ⟨ws, hlex, fun x hx ↦ (hall x hx).1.1⟩

/-- A name in a function is that of the function, or it is among those that the function uses. -/
theorem IsFunction.mem_cases {names : List Text} {n f : Text} (h : IsFunction names n f)
    (hf : Lexes f ws) (hx : (.identifier, name) ∈ ws) : n = name ∨ '.' ∈ name ∨ name ∈ names := by
  obtain ⟨vs, hvs, hall⟩ := h
  obtain rfl := hf.unique hvs
  simp only [List.mem_cons, Prod.mk.injEq, reduceCtorEq, false_and, false_or] at hx
  rcases hx with ⟨-, rfl⟩ | hx
  · exact .inl rfl
  · exact .inr ((hall _ hx).2 rfl)

/-- When the two library functions are inserted. -/
theorem exists_scopeHelpers_eq (source : Text) (parts : List Part) :
    ∃ slice require : Bool,
      scopeHelpers (boundIn source parts) (parts.map Part.item) =
        (boundIn source parts).structs.flatMap Struct.accessors ++
          (if slice then [sliceHelper] else []) ++ (if require then [requireHelper] else []) ∧
      (slice = true ↔ ((boundIn source parts).structs ≠ [] ∨
        Calls parts sliceName ∧ (boundIn source parts).value? sliceName = none) ∧
          ¬ Defines parts sliceName) ∧
      (require = true ↔
        (Calls parts requireName ∧ (boundIn source parts).value? requireName = none) ∧
          ¬ Defines parts requireName) := by
  refine ⟨_, _, rfl, ?_, ?_⟩
  · rw [Bool.and_eq_true, Bool.or_eq_true, any_calls_iff, Bool.not_eq_true', Bool.not_eq_true',
      ← Bool.not_eq_true (List.contains _ _), contains_definedName?_iff, List.isEmpty_eq_false_iff]
  · rw [Bool.and_eq_true, any_calls_iff, Bool.not_eq_true', ← Bool.not_eq_true,
      contains_definedName?_iff]

/-- The functions of a struct have a dot in their names. -/
theorem Struct.dot_mem_of_mem_accessorNames {s : Struct} {n : Text} (h : n ∈ s.accessorNames) :
    '.' ∈ n := by
  simp only [accessorNames, List.mem_append, List.mem_flatMap, List.mem_singleton] at h
  rcases h with ⟨field, -, h⟩ | rfl
  · simp only [Field.accessorNames, List.mem_cons, List.not_mem_nil, or_false] at h
    rcases h with rfl | rfl | rfl <;> simp
  · simp

/-- The functions of structs define one function each. -/
theorem definesOnly_accessors {structs : List Struct} (h : ∀ s ∈ structs, s.HasNames) :
    List.Forall₂ DefinesOnly (structs.flatMap Struct.accessorNames)
      (structs.flatMap Struct.accessors) := by
  induction structs with
  | nil => exact .nil
  | cons s structs ih =>
    exact List.rel_append ((Struct.isFunction_accessors (h s (by simp))).imp
      fun _ _ hfunction ↦ hfunction.definesOnly) (ih fun s' hs' ↦ h s' (by simp [hs']))

/-- The names of the library functions, as far as they are inserted. -/
def libraryNames (slice require : Bool) : List Text :=
  (if slice then [sliceName] else []) ++ (if require then [requireName] else [])

theorem count_libraryNames_le_one : ∀ slice require : Bool, ∀ name ∈ [sliceName, requireName],
    (libraryNames slice require).count name ≤ 1 := by
  decide

theorem eq_true_of_mem_libraryNames : ∀ slice require : Bool,
    (sliceName ∈ libraryNames slice require → slice = true) ∧
      (requireName ∈ libraryNames slice require → require = true) := by
  decide

/-- **Each inserted function** defines one function: those of the structs come first, and then the
library functions, none of which the scope defines itself. -/
theorem exists_definesOnly_scopeHelpers
    (hstructs : ∀ s ∈ (boundIn source parts).structs, s.HasNames) :
    ∃ slice require : Bool,
      List.Forall₂ DefinesOnly
        ((boundIn source parts).structs.flatMap Struct.accessorNames ++ libraryNames slice require)
        (scopeHelpers (boundIn source parts) (parts.map Part.item)) ∧
      (slice = true → ¬ Defines parts sliceName) ∧
      (require = true → ¬ Defines parts requireName) := by
  obtain ⟨slice, require, heq, hslice, hrequire⟩ := exists_scopeHelpers_eq source parts
  rw [heq, List.append_assoc]
  refine ⟨slice, require,
    List.rel_append (definesOnly_accessors hstructs) (List.rel_append ?_ ?_),
    fun h ↦ (hslice.1 h).2, fun h ↦ (hrequire.1 h).2⟩
  · cases slice with
    | false => exact .nil
    | true => exact .cons isFunction_sliceHelper.definesOnly .nil
  · cases require with
    | false => exact .nil
    | true => exact .cons isFunction_requireHelper.definesOnly .nil

/-- The library functions have no dot in their names. -/
theorem dot_notMem_of_mem_libraryNames : ∀ slice require : Bool,
    ∀ n ∈ libraryNames slice require, '.' ∉ n := by
  decide

/-- A library function is inserted at most once, and not at all beside a definition in the scope. -/
theorem exists_names_scopeHelpers (hstructs : ∀ s ∈ (boundIn source parts).structs, s.HasNames) :
    ∃ names, List.Forall₂ DefinesOnly names
        (scopeHelpers (boundIn source parts) (parts.map Part.item)) ∧
      ∀ name ∈ [sliceName, requireName],
        names.count name ≤ 1 ∧ (Defines parts name → name ∉ names) := by
  obtain ⟨slice, require, hnames, hslice, hrequire⟩ := exists_definesOnly_scopeHelpers hstructs
  refine ⟨_, hnames, fun name hname ↦ ?_⟩
  have hnot : name ∉ (boundIn source parts).structs.flatMap Struct.accessorNames := by
    intro hmem
    obtain ⟨s, -, hmem⟩ := List.mem_flatMap.1 hmem
    exact (show ∀ n ∈ [sliceName, requireName], '.' ∉ n by decide) name hname
      (s.dot_mem_of_mem_accessorNames hmem)
  rw [List.count_append, List.count_eq_zero.2 hnot, Nat.zero_add, List.mem_append]
  refine ⟨count_libraryNames_le_one slice require name hname, fun hdefines hmem ↦ ?_⟩
  have hlibrary := hmem.resolve_left hnot
  simp only [List.mem_cons, List.not_mem_nil, or_false] at hname
  rcases hname with rfl | rfl
  · exact hslice ((eq_true_of_mem_libraryNames slice require).1 hlibrary) hdefines
  · exact hrequire ((eq_true_of_mem_libraryNames slice require).2 hlibrary) hdefines

/-- **A library function that the scope does not define** is inserted if it is wanted, and if
another inserted function mentions it. -/
theorem exists_helper (hname : name ∈ [sliceName, requireName]) (hdefines : ¬ Defines parts name)
    (hbody : IsBody closing inner parts) (hinner : Placed source o inner) :
    ∃ names helper, IsFunction names name helper ∧
      (Wanted parts name → helper ∈ scopeHelpers (boundIn source parts) (parts.map Part.item)) ∧
      ∀ f ∈ scopeHelpers (boundIn source parts) (parts.map Part.item), ∀ ws, Lexes f ws →
        (.identifier, name) ∈ ws →
          helper ∈ scopeHelpers (boundIn source parts) (parts.map Part.item) := by
  obtain ⟨slice, require, heq, hslice, hrequire⟩ := exists_scopeHelpers_eq source parts
  have hvalues := hbody.startsPlain source
  simp only [List.mem_cons, List.not_mem_nil, or_false] at hname
  rcases hname with rfl | rfl
  · have hinsert : (boundIn source parts).structs ≠ [] ∨
        Calls parts sliceName ∧ (boundIn source parts).value? sliceName = none →
          sliceHelper ∈ scopeHelpers (boundIn source parts) (parts.map Part.item) :=
      fun h ↦ by simp [heq, hslice.2 ⟨h, hdefines⟩]
    refine ⟨_, sliceHelper, isFunction_sliceHelper, fun hwanted ↦ ?_, fun f hf ws hlex hmem ↦ ?_⟩
    · cases hwanted with
      | call hcalls hfree => exact hinsert (.inr ⟨hcalls, hvalues.value?_eq_none hfree⟩)
      | struct _ hs => exact hinsert (.inl fun hnil ↦ structs_boundIn_eq_nil_iff.1 hnil ⟨_, hs⟩)
    rcases mem_scopeHelpers_cases hf with ⟨s, hs, -⟩ | hf' | hf'
    · exact hinsert (.inl (List.ne_nil_of_mem hs))
    · rwa [← hf']
    · exact absurd ((hf' ▸ isFunction_requireHelper).mem_cases hlex hmem) (by decide)
  · refine ⟨_, requireHelper, isFunction_requireHelper, fun hwanted ↦ ?_,
      fun f hf ws hlex hmem ↦ ?_⟩
    · cases hwanted with
      | call hcalls hfree =>
        simp [heq, hrequire.2 ⟨⟨hcalls, hvalues.value?_eq_none hfree⟩, hdefines⟩]
      | struct hname => exact absurd hname (by decide)
    rcases mem_scopeHelpers_cases hf with ⟨s, hs, hf'⟩ | hf' | hf'
    · obtain ⟨n, hn, hfunction⟩ :=
        exists_mem_of_mem_right (Struct.isFunction_accessors (hbody.hasNames hinner s hs)) hf'
      rcases hfunction.mem_cases hlex hmem with rfl | hother
      · exact absurd (s.dot_mem_of_mem_accessorNames hn) (by decide)
      · exact absurd hother (by decide)
    · exact absurd ((hf' ▸ isFunction_sliceHelper).mem_cases hlex hmem) (by decide)
    · rwa [← hf']

/-! ### Scopes -/

/-- **In the expansion of a scope** a library function that is called is also defined. -/
theorem definition_of_call (hname : name ∈ [sliceName, requireName])
    (hbody : IsBody closing inner parts) (hopening : opening.kind = .openBrace)
    (hclosing : closing.kind = .closeBrace) (hinner : Placed source o inner)
    (hfunctions : List.Forall₂ Lexes (scopeHelpers (boundIn source parts) (parts.map Part.item))
      wss)
    (hoverlooked : ¬ Overlooked parts name)
    (h : [(.identifier, name), (.openParen, ['('])] <:+: opening.reading :: (wss.flatten ++
      (parts.flatMap (Part.expansion (meaningsOf (declarationsOf parts))) ++ [closing.reading]))) :
    [(.functionWord, "function".toList), (.identifier, name)] <:+:
      opening.reading :: (wss.flatten ++
        (parts.flatMap (Part.expansion (meaningsOf (declarationsOf parts))) ++
          [closing.reading])) := by
  by_cases hdefines : Defines parts name
  · have hself : ∀ ws, (name, ws) ∈ meaningsOf (declarationsOf parts) →
        ws = [(.identifier, name)] :=
      fun ws hws ↦ by_contra fun hother ↦ hoverlooked (.renamed hdefines hws hother)
    have hinfix := infix_expansion_of_defines hbody hclosing hinner hdefines hself
    exact hinfix.trans (List.infix_cons
      ((List.infix_append' wss.flatten _ [closing.reading]).trans (by simp)))
  · obtain ⟨names, helper, hfunction, hwanted, hmentioned⟩ :=
      exists_helper hname hdefines hbody hinner
    suffices hhelper : helper ∈ scopeHelpers (boundIn source parts) (parts.map Part.item) by
      obtain ⟨ws, hws, hlex⟩ := exists_mem_of_mem_left hfunctions hhelper
      obtain ⟨vs, hvs, -⟩ := hfunction
      obtain rfl := hlex.unique hvs
      have hinfix : [(.functionWord, "function".toList), (.identifier, name)] <:+:
          (.functionWord, "function".toList) :: (.identifier, name) :: vs :=
        ⟨[], vs, rfl⟩
      exact hinfix.trans (List.infix_cons (((List.infix_of_mem_flatten hws)).trans
        (List.infix_append [] _ _)))
    rcases pair_infix_cons_iff.1 h with ⟨hopen, -⟩ | h
    · have hkind := (Prod.mk.inj hopen).1
      rw [hopening] at hkind
      cases hkind
    · by_cases hmem : (.identifier, name) ∈ wss.flatten
      · obtain ⟨ws, hws, hmem⟩ := List.mem_flatten.1 hmem
        obtain ⟨f, hf, hlex⟩ := exists_mem_of_mem_right hfunctions hws
        exact hmentioned f hf ws hlex hmem
      · exact hwanted (wanted_of_infix_expansion hbody hclosing hdefines hoverlooked
          (infix_of_notMem h hmem))

/-- **Library functions are there where they are called.** In what a scope becomes, a call of
`mslice` or of `require` comes with a definition of the function, unless the call is overlooked. Of
the functions that are inserted into the scope at most one has that name, and none has it if the
scope defines the function itself. -/
theorem lower_provides {tokens before after : List Token} {r : Lowered}
    (htokens : tokenize source = .ok tokens) (h : lower source = .ok r)
    (heq : tokens = before ++ opening :: (inner ++ closing :: after))
    (hscope : IsScope (Segment.usesObjects tokens) before opening inner closing after)
    (hname : name ∈ [sliceName, requireName]) :
    ∃ parts, IsBody closing inner parts ∧
      LowersSlice source r opening.start.offset closing.stop
        (scopeText source opening parts closing) ∧
      (¬ Overlooked parts name → ∀ out,
        tokenize (scopeText source opening parts closing) = .ok out →
          ReadsCall name out → ReadsDefinition name out) ∧
      ∃ names, List.Forall₂ DefinesOnly names
          (scopeHelpers (boundIn source parts) (parts.map Part.item)) ∧
        names.count name ≤ 1 ∧ (Defines parts name → name ∉ names) := by
  obtain ⟨parts, o, hbody, -, hplaced, hinner, hends⟩ := exists_parts_of_lower htokens h heq hscope
  have hslice := lowersSlice_scopeText htokens h ⟨inner, heq, hscope, hbody⟩
  obtain ⟨names, hnames, hcount⟩ := exists_names_scopeHelpers (hbody.hasNames hinner)
  refine ⟨parts, hbody, hslice, fun hoverlooked out hout hcall ↦ ?_, names, hnames,
    hcount name hname⟩
  obtain ⟨wss, hfunctions⟩ := hbody.exists_lexes hinner
  have hpieced := pieced_scopeText hbody hplaced hends hscope.1.opening hscope.1.closing hfunctions
  obtain ⟨vs, hvs, hreadings⟩ := (tokenized_of_tokenizeFrom hout).exists_lexes
  have hcoarsens := hpieced.coarsens hvs
  have hnoframe : TokenKind.ofFrame? name = none :=
    (show ∀ n ∈ [sliceName, requireName], TokenKind.ofFrame? n = none by decide) name hname
  rw [ReadsCall, hreadings] at hcall
  rw [ReadsDefinition, hreadings]
  have hcall := infix_of_append_singleton hcall (by simp [endReading])
  have hcall := hcoarsens.infix_left rfl rfl hcall
  have hdefinition := definition_of_call hname hbody hscope.1.opening hscope.1.closing hinner
    hfunctions hoverlooked hcall
  have hread := hcoarsens.infix_right rfl ⟨'u', by decide, by decide⟩ rfl hnoframe hdefinition
  exact hread.trans (List.infix_append [] vs [endReading])

/-- A call whose argument is a constant. -/
theorem lower_provides_const :
    ∃ source tokens before opening inner closing after r parts out,
      source = "\x7b const n := 4 require(n) \x7d".toList ∧ tokenize source = .ok tokens ∧
      lower source = .ok r ∧ tokens = before ++ opening :: (inner ++ closing :: after) ∧
      IsScope (Segment.usesObjects tokens) before opening inner closing after ∧
      requireName ∈ [sliceName, requireName] ∧ ¬ Overlooked parts requireName ∧
      tokenize (scopeText source opening parts closing) = .ok out ∧ ReadsCall requireName out ∧
      IsBody closing inner parts ∧
      LowersSlice source r opening.start.offset closing.stop
        (scopeText source opening parts closing) ∧
      ReadsDefinition requireName out ∧
      ∃ names, List.Forall₂ DefinesOnly names
          (scopeHelpers (boundIn source parts) (parts.map Part.item)) ∧
        names.count requireName ≤ 1 ∧ (Defines parts requireName → requireName ∉ names) := by
  let opening : Token := ⟨.openBrace, "\x7b".toList, ⟨1, 1, 0⟩, 1⟩
  let keyword : Token := ⟨.constWord, "const".toList, ⟨1, 3, 2⟩, 7⟩
  let name : Token := ⟨.identifier, "n".toList, ⟨1, 9, 8⟩, 9⟩
  let assign : Token := ⟨.assign, ":=".toList, ⟨1, 11, 10⟩, 12⟩
  let value : Token := ⟨.number, "4".toList, ⟨1, 14, 13⟩, 14⟩
  let call : Token := ⟨.identifier, "require".toList, ⟨1, 16, 15⟩, 22⟩
  let paren : Token := ⟨.openParen, "(".toList, ⟨1, 23, 22⟩, 23⟩
  let argument : Token := ⟨.identifier, "n".toList, ⟨1, 24, 23⟩, 24⟩
  let unparen : Token := ⟨.closeParen, ")".toList, ⟨1, 25, 24⟩, 25⟩
  let closing : Token := ⟨.closeBrace, "\x7d".toList, ⟨1, 27, 26⟩, 27⟩
  let last : Token := ⟨.endOfText, [], ⟨1, 28, 27⟩, 27⟩
  let inner : List Token := [keyword, name, assign, value, call, paren, argument, unparen]
  let parts : List Part := [.declared keyword [name, assign, value] (.const "n".toList [value]),
    .kept call paren, .kept paren argument, .kept argument unparen, .kept unparen closing]
  let source : Text := "\x7b const n := 4 require(n) \x7d".toList
  have htokens : tokenize source = .ok (opening :: (inner ++ [closing, last])) := by
    decide +kernel
  have hlower : lower source =
      .ok ⟨"\x7b\n".toList ++ requireHelper ++ "\n  require(4) \x7d".toList, {}⟩ := by
    decide +kernel
  have hscope : IsScope false [] opening inner closing [last] :=
    isScope_block rfl (by decide) rfl rfl
  have hbody : IsBody closing inner parts :=
    .declared (.const rfl rfl rfl (.atom (by decide))) nofun
      (.kept rfl (.kept rfl (.kept rfl (.kept rfl .nil))))
  have hwanted : Wanted parts requireName :=
    .call ⟨call, paren, by simp [parts], rfl, rfl, rfl⟩ (by decide)
  have hoverlooked : ¬ Overlooked parts requireName := by
    rintro (⟨hnot, -⟩ | ⟨hnot, -⟩ | ⟨-, hws, -⟩)
    · exact hnot hwanted
    · exact hnot hwanted
    · have hname : ∀ m ∈ meaningsOf (declarationsOf parts), m.1 ≠ requireName := by decide
      exact hname _ hws rfl
  have hmem : requireName ∈ [sliceName, requireName] := by simp
  obtain ⟨parts', hbody', hslice, hprovides, hnames⟩ :=
    lower_provides htokens hlower rfl hscope hmem
  obtain rfl := hbody.unique hbody'
  obtain ⟨out, hout, hcall⟩ := exists_of_map_eq_ok
    (show (tokenize (scopeText source opening parts closing)).map (fun out ↦
        decide (ReadsCall requireName out)) = .ok true by
      decide +kernel)
  have hcall := of_decide_eq_true hcall
  exact ⟨source, _, _, _, _, _, _, _, parts, out, rfl, htokens, hlower, rfl, hscope, hmem,
    hoverlooked, hout, hcall, hbody, hslice, hprovides hoverlooked out hout hcall, hnames⟩

/-- **A call that is overlooked.** It stands in a constant, and only the name of the constant stands
in the scope. -/
theorem lower_forgets_const :
    ∃ source tokens before opening inner closing after r parts out,
      source = "\x7b const f := mslice(0, 4) let x := f \x7d".toList ∧
      tokenize source = .ok tokens ∧ lower source = .ok r ∧
      tokens = before ++ opening :: (inner ++ closing :: after) ∧
      IsScope (Segment.usesObjects tokens) before opening inner closing after ∧
      IsBody closing inner parts ∧
      LowersSlice source r opening.start.offset closing.stop
        (scopeText source opening parts closing) ∧
      tokenize (scopeText source opening parts closing) = .ok out ∧
      ReadsCall sliceName out ∧ ¬ ReadsDefinition sliceName out := by
  let source : Text := "\x7b const f := mslice(0, 4) let x := f \x7d".toList
  let opening : Token := ⟨.openBrace, "\x7b".toList, ⟨1, 1, 0⟩, 1⟩
  let keyword : Token := ⟨.constWord, "const".toList, ⟨1, 3, 2⟩, 7⟩
  let name : Token := ⟨.identifier, "f".toList, ⟨1, 9, 8⟩, 9⟩
  let assign : Token := ⟨.assign, ":=".toList, ⟨1, 11, 10⟩, 12⟩
  let call : Token := ⟨.identifier, "mslice".toList, ⟨1, 14, 13⟩, 19⟩
  let paren : Token := ⟨.openParen, "(".toList, ⟨1, 20, 19⟩, 20⟩
  let first : Token := ⟨.number, "0".toList, ⟨1, 21, 20⟩, 21⟩
  let comma : Token := ⟨.comma, ",".toList, ⟨1, 22, 21⟩, 22⟩
  let second : Token := ⟨.number, "4".toList, ⟨1, 24, 23⟩, 24⟩
  let unparen : Token := ⟨.closeParen, ")".toList, ⟨1, 25, 24⟩, 25⟩
  let word : Token := ⟨.letWord, "let".toList, ⟨1, 27, 26⟩, 29⟩
  let target : Token := ⟨.identifier, "x".toList, ⟨1, 31, 30⟩, 31⟩
  let assigned : Token := ⟨.assign, ":=".toList, ⟨1, 33, 32⟩, 34⟩
  let used : Token := ⟨.identifier, "f".toList, ⟨1, 36, 35⟩, 36⟩
  let closing : Token := ⟨.closeBrace, "\x7d".toList, ⟨1, 38, 37⟩, 38⟩
  let last : Token := ⟨.endOfText, [], ⟨1, 39, 38⟩, 38⟩
  let value : List Token := [call, paren, first, comma, second, unparen]
  let inner : List Token := keyword :: name :: assign :: (value ++ [word, target, assigned, used])
  let parts : List Part := [.declared keyword (name :: assign :: value) (.const "f".toList value),
    .kept word target, .kept target assigned, .kept assigned used, .kept used closing]
  have htokens : tokenize source = .ok (opening :: (inner ++ [closing, last])) := by
    decide +kernel
  have hlower : lower source = .ok ⟨"\x7b  let x := mslice(0, 4) \x7d".toList, {}⟩ := by
    decide +kernel
  have harguments : CommaList [[first], [second]] [first, comma, second] := .cons rfl .single
  have hvalue : IsExpression value := by
    refine .call rfl rfl rfl harguments fun a ha ↦ ?_
    rcases List.mem_pair.1 ha with rfl | rfl <;> exact .atom (by decide)
  have hscope : IsScope false [] opening inner closing [last] :=
    isScope_block rfl (by decide) rfl rfl
  have hbody : IsBody closing inner parts :=
    .declared (.const rfl rfl rfl hvalue) trivial
      (.kept rfl (.kept rfl (.kept rfl (.kept rfl .nil))))
  obtain ⟨out, hout, hmissing⟩ := exists_of_map_eq_ok
    (show (tokenize (scopeText source opening parts closing)).map (fun out ↦
        decide (ReadsCall sliceName out ∧ ¬ ReadsDefinition sliceName out)) = .ok true by
      decide +kernel)
  exact ⟨source, _, _, _, _, _, _, _, parts, out, rfl, htokens, hlower, rfl, hscope, hbody,
    lowersSlice_scopeText htokens hlower ⟨inner, rfl, hscope, hbody⟩, hout,
    of_decide_eq_true hmissing⟩

-- a call that a declaration tears apart is overlooked as well
example : (lower "\x7b mslice const x := 1 (0, 4) \x7d".toList).map Lowered.code =
    .ok "\x7b mslice  (0, 4) \x7d".toList := by
  decide +kernel

end

end YulPlus
