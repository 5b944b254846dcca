import YulPlus.Proofs.Signature.Written

/-!
# Canonical signatures

What parsing returns, whatever the text was: a name, and types of which each is spelled in the
grammar of canonical types (`IsCanonicalType`), with short names expanded and no blank anywhere. The
canonical text is itself a signature, and parsing it changes nothing
(`Signature.parse_canonical`); so it determines the name and the types.

The argument is one induction. A type that was read may be written as its own canonical spelling
(`declares_of_readParameter`): the reader is more lenient than `Declares`, but what it returns is
not. Everything else is known of written parameters already. -/

namespace YulPlus

open Text

/-- The texts that are canonical types: a name that is not one of the short ones, or canonical types
in parentheses with a comma between each two, and array suffixes behind it. -/
inductive IsCanonicalType : Text → Prop
  | elementary {name : Text} {dimensions : List Text} (hname : IsTypeName name)
      (hfull : name ∉ ["uint".toList, "int".toList, "byte".toList])
      (hdimensions : AreDimensions dimensions) :
      IsCanonicalType (name ++ ParameterType.renderDimensions dimensions)
  | tuple {components dimensions : List Text} (hcomponents : ∀ c ∈ components, IsCanonicalType c)
      (hdimensions : AreDimensions dimensions) :
      IsCanonicalType
        ('(' :: joinWith [','] components ++ ')' :: ParameterType.renderDimensions dimensions)

section

variable {name s t : Text} {dimensions : List Text} {type : ParameterType}
  {types : List ParameterType}

/-! ### What a reader returns -/

theorem areDimensions_of_dimensionsFrom {digits? : Option Text}
    (hdigits : ∀ digits ∈ digits?, ∀ c ∈ digits, isAsciiDigit c = true)
    (h : dimensionsFrom digits? s = some dimensions) : AreDimensions dimensions := by
  fun_induction dimensionsFrom digits? s generalizing dimensions with
  | case1 =>
    cases h
    simp [AreDimensions]
  | case2 rest ih => exact ih (by simp) h
  | case3 => cases h
  | case4 => cases h
  | case5 digits rest ih =>
    obtain ⟨more, hmore, rfl⟩ := Option.map_eq_some_iff.1 h
    refine List.forall_mem_cons.2 ⟨fun c hc ↦ ?_, ih (by simp) hmore⟩
    exact hdigits digits rfl c (List.mem_reverse.1 hc)
  | case6 digits c rest _ hc ih =>
    refine ih (fun more hmore ↦ ?_) h
    cases hmore
    exact List.forall_mem_cons.2 ⟨hc, hdigits digits rfl⟩
  | case7 => cases h

/-- Only digits stand between the brackets that are read. -/
theorem areDimensions_of_dimensions? (h : dimensions? s = some dimensions) :
    AreDimensions dimensions :=
  areDimensions_of_dimensionsFrom (by simp) h

theorem areDimensions_tupleSuffix (ws : List Text) : AreDimensions (tupleSuffix ws).1 := by
  unfold tupleSuffix
  split
  · simp [AreDimensions]
  · split
    · rename_i hdimensions
      exact areDimensions_of_dimensions? hdimensions
    · simp [AreDimensions]

/-- A full name has no other spelling. -/
theorem expandAlias_not_mem : expandAlias name ∉ ["uint".toList, "int".toList, "byte".toList] := by
  unfold expandAlias
  split_ifs with huint hint hbyte
  iterate 3 decide
  simp only [List.mem_cons, List.not_mem_nil, or_false, not_or]
  exact ⟨huint, hint, hbyte⟩

theorem expandAlias_eq_self (h : name ∉ ["uint".toList, "int".toList, "byte".toList]) :
    expandAlias name = name := by
  simp only [List.mem_cons, List.not_mem_nil, or_false, not_or] at h
  rw [expandAlias, if_neg h.1, if_neg h.2.1, if_neg h.2.2]

theorem IsTypeName.expandAlias (h : IsTypeName name) : IsTypeName (expandAlias name) := by
  unfold YulPlus.expandAlias
  split_ifs
  · exact ⟨'u', "int256".toList, rfl, by decide, by decide⟩
  · exact ⟨'i', "nt256".toList, rfl, by decide, by decide⟩
  · exact ⟨'b', "ytes1".toList, rfl, by decide, by decide⟩
  · exact h

/-! ### What was read can be written -/

theorem renderList_eq : ParameterType.renderList types =
    joinWith [','] (types.map ParameterType.render) := by
  induction types with
  | nil => rfl
  | cons type types ih =>
    cases types with
    | nil => rfl
    | cons next types =>
      rw [ParameterType.renderList, ih]
      simp [joinWith]

theorem qualifies_nil : Qualifies [] :=
  ⟨by simp, [], .nil (by decide), [], [], none, rfl, by simp, by simp⟩

/-- Canonical types with commas between them are a list of them. -/
theorem isListOf_renderList :
    IsListOf ((types.map fun type ↦ (type, type.render)).map Prod.snd)
      (ParameterType.renderList types) := by
  have hparts : (types.map fun type ↦ (type, type.render)).map Prod.snd =
      types.map ParameterType.render := by
    rw [List.map_map]
    rfl
  rw [hparts, IsListOf, renderList_eq]
  split
  · rename_i hnil
    rw [hnil]
    exact fun c hc ↦ by cases hc
  · rfl

theorem declares_elementary (hname : IsTypeName name) (hdimensions : AreDimensions dimensions) :
    Declares (.elementary (expandAlias name) dimensions)
      (ParameterType.elementary (expandAlias name) dimensions).render := by
  have hwritten := @Declares.elementary (expandAlias name) [] [] dimensions (by decide)
    hname.expandAlias hdimensions qualifies_nil
  rw [expandAlias_eq_self expandAlias_not_mem] at hwritten
  simpa [ParameterType.render] using hwritten

theorem declares_tuple (htypes : ∀ type ∈ types, Declares type type.render)
    (hdimensions : AreDimensions dimensions) :
    Declares (.tuple types dimensions) (ParameterType.tuple types dimensions).render := by
  have hcomponents : ∀ c ∈ types.map fun type ↦ (type, type.render), Declares c.1 c.2 := by
    intro c hc
    obtain ⟨type, htype, rfl⟩ := List.mem_map.1 hc
    exact htypes type htype
  have hwritten := @Declares.tuple _ dimensions [] [] _ [] [] (by decide) (.inl rfl) hcomponents
    isListOf_renderList (by decide) hdimensions qualifies_nil
  simpa [ParameterType.render, List.map_map, Function.comp_def] using hwritten

theorem declares_of_readElementary (h : readElementary s = .ok type) :
    Declares type type.render := by
  unfold readElementary at h
  split at h
  · cases h
  · rename_i word qualifiers _
    split at h
    · cases h
    · rename_i c rest _
      split at h
      · rename_i dimensions hc hdimensions
        obtain ⟨-, -, h⟩ := bind_eq_ok_iff.1 h
        cases h
        refine declares_elementary ⟨c, _, rfl, hc, fun d hd ↦ ?_⟩
          (areDimensions_of_dimensions? hdimensions)
        exact List.mem_takeWhile_imp hd
      · cases h

/-- **What was read can be written canonically**: whatever was lenient in the text, the type that
was read from it is declared by its own spelling. -/
theorem declares_of_readParameter (h : readParameter s = .ok type) : Declares type type.render := by
  induction hn : s.length using Nat.strong_induction_on generalizing s type with
  | _ n ih =>
    subst hn
    rw [readParameter] at h
    split at h
    · rename_i tail hbare
      split at h
      · cases h
      · rename_i inner after hclose
        split at h
        · cases h
        · rename_i parts hparts
          obtain ⟨components, hcomponents, h⟩ := bind_eq_ok_iff.1 h
          obtain ⟨-, -, h⟩ := bind_eq_ok_iff.1 h
          cases h
          refine declares_tuple (fun component hmem ↦ ?_) (areDimensions_tupleSuffix _)
          obtain ⟨⟨part, hpart⟩, -, hread⟩ := exists_mem_of_mapM hcomponents hmem
          exact ih _ (length_lt_of_component hbare hclose hparts hpart) hread rfl
    · exact declares_of_readElementary h

/-! ### Canonical types -/

/-- A type that can be written is spelled canonically. -/
theorem Declares.isCanonicalType (h : Declares type s) : IsCanonicalType type.render := by
  induction h with
  | elementary _ hname hdimensions _ =>
    exact .elementary hname.expandAlias expandAlias_not_mem hdimensions
  | @tuple components dimensions _ _ _ _ _ _ _ _ _ _ hdimensions _ ih =>
    rw [ParameterType.render, renderList_eq]
    refine .tuple (fun component hmem ↦ ?_) hdimensions
    rw [List.map_map] at hmem
    obtain ⟨c, hc, rfl⟩ := List.mem_map.1 hmem
    exact ih c hc

theorem mem_of_mem_joinWith {separator : Text} {parts : List Text} {c : Char}
    (h : c ∈ joinWith separator parts) : c ∈ separator ∨ ∃ part ∈ parts, c ∈ part := by
  induction parts with
  | nil => cases h
  | cons part parts ih =>
    cases parts with
    | nil => exact .inr ⟨part, by simp, h⟩
    | cons next parts =>
      simp only [joinWith_cons_cons, List.mem_append] at h
      rcases h with (h | h) | h
      · exact .inr ⟨part, by simp, h⟩
      · exact .inl h
      · refine (ih h).imp id ?_
        rintro ⟨p, hp, hc⟩
        exact ⟨p, by simp [hp], hc⟩

/-- **A canonical type holds no blank.** -/
theorem IsCanonicalType.isBlank_eq_false (h : IsCanonicalType s) : ∀ c ∈ s, isBlank c = false := by
  have hsuffix : ∀ {dimensions}, AreDimensions dimensions →
      ∀ c ∈ ParameterType.renderDimensions dimensions, isBlank c = false := by
    intro dimensions hdimensions c hc
    rcases hdimensions.mem_renderDimensions c hc with hc | rfl | rfl
    · exact (ne_of_isNamePart hc).2.2.2.2
    · decide
    · decide
  induction h with
  | elementary hname _ hdimensions =>
    intro c hc
    rcases List.mem_append.1 hc with hc | hc
    · exact (ne_of_isNamePart (hname.isNamePart c hc)).2.2.2.2
    · exact hsuffix hdimensions c hc
  | tuple _ hdimensions ih =>
    intro c hc
    simp only [List.cons_append, List.mem_cons, List.mem_append] at hc
    rcases hc with rfl | hc | rfl | hc
    · decide
    · rcases mem_of_mem_joinWith hc with hc | ⟨part, hpart, hc⟩
      · obtain rfl := List.mem_singleton.1 hc
        decide
      · exact ih part hpart c hc
    · decide
    · exact hsuffix hdimensions c hc

end

namespace Signature

variable {kind text : Text} {s : Signature}

/-! ### What parsing does -/

/-- **What parsing does**: a name, a list in parentheses, and something behind it are found, and the
parts of the list are read. -/
theorem parse_eq_ok_iff :
    parse kind text = .ok s ↔ s.kind = kind ∧ isName s.name = true ∧
      ∃ rest tail list trailer parts, dropKeyword kind (strip text) = s.name ++ rest ∧
        (∀ c ∈ rest.head?, isNamePart c = false) ∧ stripLeft rest = '(' :: tail ∧
        closeParen 0 tail = some (list, trailer) ∧ checkTrailer kind (strip trailer) = .ok () ∧
        parameterParts list = .ok parts ∧ parts.mapM readParameter = .ok s.inputTypes := by
  unfold parse
  dsimp only
  constructor
  · intro h
    split at h
    · cases h
    · rename_i c rest hdrop
      split_ifs at h with hc
      · split at h
        · rename_i tail hparen
          split at h
          · cases h
          · rename_i list trailer hclose
            obtain ⟨⟨⟩, htrailer, h⟩ := bind_eq_ok_iff.1 h
            obtain ⟨parts, hparts, h⟩ := bind_eq_ok_iff.1 h
            obtain ⟨types, htypes, h⟩ := bind_eq_ok_iff.1 h
            cases h
            have hname : isName (c :: rest.takeWhile isNamePart) = true := by
              simp only [isName, hc, Bool.true_and, List.all_eq_true]
              exact fun d hd ↦ List.mem_takeWhile_imp hd
            have hsplit : c :: rest =
                (c :: rest.takeWhile isNamePart) ++ rest.dropWhile isNamePart := by
              rw [List.cons_append, List.takeWhile_append_dropWhile]
            exact ⟨rfl, hname, rest.dropWhile isNamePart, tail, list, trailer, parts,
              hdrop.trans hsplit, mem_head?_dropWhile, hparen, hclose, htrailer,
              hparts, htypes⟩
        · cases h
  · obtain ⟨kind', name, types⟩ := s
    rintro ⟨rfl, hname, rest, tail, list, trailer, parts, hdrop, hhead, hparen, hclose, htrailer,
      hparts, htypes⟩
    cases name with
    | nil => cases hname
    | cons c more =>
      simp only [isName, Bool.and_eq_true, List.all_eq_true] at hname
      obtain ⟨htake, hbehind⟩ := takeWhile_append_head? hname.2 hhead
      simp only [List.cons_append] at hdrop
      simp only [hdrop, if_pos hname.1, htake, hbehind, hparen, hclose, htrailer, hparts]
      show (parts.mapM readParameter >>= fun types ↦ pure _) = _
      rw [htypes]
      rfl

/-! ### The canonical text -/

/-- What was parsed can be written canonically. -/
theorem declares_of_parse (h : parse kind text = .ok s) :
    ∀ type ∈ s.inputTypes, Declares type type.render := by
  obtain ⟨-, -, -, -, -, -, parts, -, -, -, -, -, -, htypes⟩ := parse_eq_ok_iff.1 h
  intro type htype
  obtain ⟨part, -, hread⟩ := exists_mem_of_mapM htypes htype
  exact declares_of_readParameter hread

/-- **The canonical text of a signature is parsed** as its name and its types, whether it is put
behind its own keyword or behind another. -/
theorem parse_keyword_canonical {keyword : Text} (hkeyword : isName keyword = true)
    (h : parse kind text = .ok s) :
    parse keyword (keyword ++ ' ' :: s.canonical) = .ok ⟨keyword, s.name, s.inputTypes⟩ := by
  have hname := (parse_eq_ok_iff.1 h).2.1
  have hdeclares : ∀ p ∈ s.inputTypes.map fun type ↦ (type, type.render), Declares p.1 p.2 := by
    intro p hp
    obtain ⟨type, htype, rfl⟩ := List.mem_map.1 hp
    exact declares_of_parse h type htype
  have hlist := @isListOf_renderList s.inputTypes
  have hbalanced := hlist.balanced fun part hpart ↦ by
    obtain ⟨p, hp, rfl⟩ := List.mem_map.1 hpart
    exact (hdeclares p hp).balanced
  have hdrop := @dropKeyword_strip keyword s.name [] [] (keyword ++ [' ']) []
    (ParameterType.renderList s.inputTypes) (by decide) (.inl ⟨[], by decide, rfl⟩) hkeyword hname
    (by decide)
  have htypes := mapM_map_snd fun p hp ↦ (hdeclares p hp).readParameter_eq
  refine parse_eq_ok_iff.2 ⟨rfl, hname, '(' :: (ParameterType.renderList s.inputTypes ++ [')']),
    ParameterType.renderList s.inputTypes ++ [')'], ParameterType.renderList s.inputTypes, [],
    (s.inputTypes.map fun type ↦ (type, type.render)).map Prod.snd, ?_, ?_, ?_, ?_, ?_, ?_, ?_⟩
  · simpa [canonical, stripRight] using hdrop
  · exact fun c hc ↦ by cases hc; decide
  · exact stripLeft_cons (by decide) _
  · exact hbalanced.closeParen_eq []
  · rfl
  · exact hlist.parameterParts_eq hdeclares
  · simpa [List.map_map, Function.comp_def] using htypes

/-- **Canonical signatures are well formed and determine what they name.** Whatever text was parsed,
the name is a name, each type is spelled in the grammar of canonical types without any blank, and
the canonical text behind the keyword is parsed as the same signature. No other name and no other
types have this canonical text. -/
theorem parse_canonical (hkind : kind ∈ [functionKind, eventKind])
    (h : parse kind text = .ok s) :
    isName s.name = true ∧
      (∀ type ∈ s.inputTypes,
        IsCanonicalType type.render ∧ ∀ c ∈ type.render, isBlank c = false) ∧
      parse kind (kind ++ ' ' :: s.canonical) = .ok s ∧
      ∀ kind' text' s', parse kind' text' = .ok s' → s'.canonical = s.canonical →
        s'.name = s.name ∧ s'.inputTypes = s.inputTypes := by
  obtain ⟨hkeyword, hname, -⟩ := parse_eq_ok_iff.1 h
  have hnames : ∀ kind ∈ [functionKind, eventKind], isName kind = true := by decide
  refine ⟨hname, fun type htype ↦ ?_, ?_, ?_⟩
  · have hcanonical := (declares_of_parse h type htype).isCanonicalType
    exact ⟨hcanonical, hcanonical.isBlank_eq_false⟩
  · obtain ⟨kind', name, types⟩ := s
    cases hkeyword
    exact parse_keyword_canonical (hnames _ hkind) h
  · intro kind' text' s' h' hcanonical
    -- behind a keyword of its own choice each of the two is parsed from the same text
    have hfunction : isName functionKind = true := by decide
    have hparse := parse_keyword_canonical hfunction h
    have hparse' := parse_keyword_canonical hfunction h'
    rw [hcanonical, hparse] at hparse'
    obtain ⟨-, hname', htypes'⟩ := Signature.mk.inj (Except.ok.inj hparse')
    exact ⟨hname'.symm, htypes'.symm⟩

/-- An empty tuple with a gap in front of its suffixes, a short name, and a type with the name of a
keyword. -/
theorem parse_canonical_tuple :
    parse functionKind "f( () [2][] memory x,uint, tuple )view".toList =
        .ok ⟨functionKind, "f".toList,
          [.tuple [] ["2".toList, []], .elementary "uint256".toList [],
            .elementary "tuple".toList []]⟩ ∧
      parse functionKind "function f(()[2][],uint256,tuple)".toList =
        .ok ⟨functionKind, "f".toList,
          [.tuple [] ["2".toList, []], .elementary "uint256".toList [],
            .elementary "tuple".toList []]⟩ := by
  have hunit : readParameter " () [2][] memory x".toList = .ok (.tuple [] ["2".toList, []]) := by
    rw [readParameter]
    rfl
  have huint : readParameter "uint".toList = .ok (.elementary "uint256".toList []) := by
    rw [readParameter]
    rfl
  have htuple : readParameter " tuple ".toList = .ok (.elementary "tuple".toList []) := by
    rw [readParameter]
    rfl
  have hparse : parse functionKind "f( () [2][] memory x,uint, tuple )view".toList =
      .ok ⟨functionKind, "f".toList,
        [.tuple [] ["2".toList, []], .elementary "uint256".toList [],
          .elementary "tuple".toList []]⟩ := by
    refine parse_eq_ok_iff.2 ⟨rfl, by decide, "( () [2][] memory x,uint, tuple )view".toList,
      " () [2][] memory x,uint, tuple )view".toList, " () [2][] memory x,uint, tuple ".toList,
      "view".toList, [" () [2][] memory x".toList, "uint".toList, " tuple ".toList],
      rfl, by decide, rfl, rfl, rfl, rfl, ?_⟩
    rw [List.mapM_cons, hunit, List.mapM_cons, huint, List.mapM_cons, htuple]
    rfl
  exact ⟨hparse, (parse_canonical (by decide) hparse).2.2.1⟩

end Signature

end YulPlus
