import YulPlus.Proofs.Outcome
import YulPlus.Proofs.Signature.Parts

/-!
# Written parameters

`Declares type s` says how a parameter may be written: the name of its type or a parenthesised list
of parameters, array suffixes, modifiers and at most one name, with free spacing in between and with
or without the word `tuple` and the full spelling of short names. `Declares.readParameter_eq` is
that every such text is read as the type.

The induction follows the nesting of the tuples. Everything in a parameter outside of its own
parentheses is free of parentheses and commas, so a parameter is balanced, and a list of parameters
is cut into them.
-/

namespace YulPlus

open Text

/-- A name that a type may have. -/
def IsTypeName (name : Text) : Prop :=
  ∃ c rest, name = c :: rest ∧ isWordStart c = true ∧ ∀ d ∈ rest, isWordPart d = true

/-- Between the brackets of array suffixes stand digits only. -/
def AreDimensions (dimensions : List Text) : Prop :=
  ∀ digits ∈ dimensions, ∀ c ∈ digits, isAsciiDigit c = true

instance : DecidablePred AreDimensions := fun dimensions ↦
  inferInstanceAs (Decidable (∀ digits ∈ dimensions, ∀ c ∈ digits, isAsciiDigit c = true))

/-- Any modifiers and at most one name. -/
def AreQualifiers (ws : List Text) : Prop :=
  ∃ (front back : List Text) (name? : Option Text), ws = front ++ name?.toList ++ back ∧
    (∀ w ∈ front ++ back, w ∈ parameterModifiers) ∧ ∀ name ∈ name?, isName name = true

/-- What may follow a type: qualifiers, each behind a blank. -/
def Qualifies (s : Text) : Prop :=
  (∀ c ∈ s.head?, isBlank c = true) ∧ ∃ ws, Wording ws s ∧ AreQualifiers ws

/-- The list of these parts: it is blank if there are none, else there are commas between them. -/
def IsListOf (parts : List Text) (list : Text) : Prop :=
  if parts = [] then AllBlank list else list = joinWith [','] parts

/-- The text declares a parameter of this type. -/
inductive Declares : ParameterType → Text → Prop
  | elementary {name before after : Text} {dimensions : List Text} (hbefore : AllBlank before)
      (hname : IsTypeName name) (hdimensions : AreDimensions dimensions)
      (hafter : Qualifies after) :
      Declares (.elementary (expandAlias name) dimensions)
        (before ++ (name ++ ParameterType.renderDimensions dimensions) ++ after)
  | tuple {components : List (ParameterType × Text)} {dimensions : List Text}
      {before word list gap after : Text} (hbefore : AllBlank before)
      (hword : word = [] ∨ word = "tuple".toList)
      (hcomponents : ∀ c ∈ components, Declares c.1 c.2)
      (hlist : IsListOf (components.map Prod.snd) list) (hgap : AllBlank gap)
      (hdimensions : AreDimensions dimensions) (hafter : Qualifies after) :
      Declares (.tuple (components.map Prod.fst) dimensions)
        (before ++ word ++ '(' :: (list ++ ')' ::
          (gap ++ ParameterType.renderDimensions dimensions ++ after)))

/-! ### Characters -/

theorem toNat_of_isNamePart {c : Char} (h : isNamePart c = true) :
    (0x30 ≤ c.toNat ∧ c.toNat ≤ 0x39) ∨ (0x41 ≤ c.toNat ∧ c.toNat ≤ 0x5a) ∨
      (0x61 ≤ c.toNat ∧ c.toNat ≤ 0x7a) ∨ c = '_' ∨ c = '$' := by
  simp only [isNamePart, isWordPart, isWordStart, isAsciiDigit, Bool.or_eq_true, Bool.and_eq_true,
    decide_eq_true_eq, Char.le_def, UInt32.le_iff_toNat_le] at h
  rcases h with (((h | h) | h) | h) | h
  · exact .inr (.inl h)
  · exact .inr (.inr (.inl h))
  · exact .inr (.inr (.inr (.inl h)))
  · exact .inl h
  · exact .inr (.inr (.inr (.inr h)))

/-- No blank lies between the space and the letters beyond ASCII. -/
theorem isBlank_eq_false {c : Char} (hlow : 0x20 < c.toNat) (hhigh : c.toNat < 0x85) :
    isBlank c = false := by
  simp only [isBlank, blankRanges, inRanges]
  rw [if_neg (by omega), if_neg (by omega), if_neg (by omega), if_neg (by omega),
    if_pos (by omega)]

/-- What may stand in a name is no mark and no blank. -/
theorem ne_of_isNamePart {c : Char} (h : isNamePart c = true) :
    c ≠ '(' ∧ c ≠ ')' ∧ c ≠ ',' ∧ c ≠ '[' ∧ isBlank c = false := by
  refine ⟨?_, ?_, ?_, ?_, ?_⟩
  -- the four marks are refuted by their codes, a blank by the ranges of blanks
  iterate 4
    rintro rfl
    exact absurd h (by decide)
  rcases toNat_of_isNamePart h with h | h | h | rfl | rfl
  iterate 3 exact isBlank_eq_false (by omega) (by omega)
  iterate 2 decide

/-- A text with neither parentheses nor commas. -/
def IsPlain (s : Text) : Prop :=
  ∀ c ∈ s, c ≠ '(' ∧ c ≠ ')' ∧ c ≠ ','

section

variable {s : Text} {ws dimensions : List Text} {type : ParameterType}

/-! ### Array suffixes -/

theorem dimensionsFrom_digits {digits : Text} (h : ∀ c ∈ digits, isAsciiDigit c = true)
    (read rest : Text) :
    dimensionsFrom (some read) (digits ++ ']' :: rest) =
      (dimensionsFrom none rest).map ((read.reverse ++ digits) :: ·) := by
  induction digits generalizing read with
  | nil =>
    rw [List.nil_append, dimensionsFrom, List.append_nil]
  | cons c digits ih =>
    have hc := h c (by simp)
    have hne : c ≠ ']' := by
      rintro rfl
      exact absurd hc (by decide)
    have hrest := ih (fun d hd ↦ h d (by simp [hd])) (c :: read)
    rw [List.cons_append, dimensionsFrom, if_pos hc, hrest, List.reverse_cons, List.append_assoc]
    · rfl
    · exact hne

/-- Array suffixes are read as they are written. -/
theorem dimensions?_renderDimensions (h : AreDimensions dimensions) :
    dimensions? (ParameterType.renderDimensions dimensions) = some dimensions := by
  unfold dimensions? ParameterType.renderDimensions
  induction dimensions with
  | nil => rfl
  | cons digits dimensions ih =>
    have hrest := ih fun d hd ↦ h d (by simp [hd])
    rw [List.flatMap_cons, List.append_assoc, List.cons_append, dimensionsFrom,
      List.singleton_append, dimensionsFrom_digits (h digits (by simp)), hrest]
    rfl

/-- A suffix begins with a bracket. -/
theorem head?_renderDimensions :
    ∀ c ∈ (ParameterType.renderDimensions dimensions).head?, c = '[' := by
  cases dimensions <;> simp [ParameterType.renderDimensions]

theorem dimensions?_eq_none {c : Char} (hc : c ≠ '[') (rest : Text) :
    dimensions? (c :: rest) = none := by
  unfold dimensions?
  rw [dimensionsFrom]
  exact fun h ↦ hc h

/-! ### Qualifiers -/

theorem isName_of_mem_parameterModifiers {w : Text} (h : w ∈ parameterModifiers) :
    isName w = true := by
  revert w
  decide

/-- Every qualifier is a name. -/
theorem AreQualifiers.isName (h : AreQualifiers ws) : ∀ w ∈ ws, isName w = true := by
  obtain ⟨front, back, name?, rfl, hmodifiers, hname⟩ := h
  intro w hw
  rw [List.append_assoc, List.mem_append, List.mem_append, Option.mem_toList] at hw
  rcases hw with hw | hw | hw
  · exact isName_of_mem_parameterModifiers (hmodifiers w (List.mem_append_left _ hw))
  · exact hname w hw
  · exact isName_of_mem_parameterModifiers (hmodifiers w (List.mem_append_right _ hw))

/-- **Qualifiers are accepted.** -/
theorem AreQualifiers.checkQualifiers_eq (h : AreQualifiers ws) (parameter : Text) :
    checkQualifiers parameter ws = .ok () := by
  have hnames := h.isName
  obtain ⟨front, back, name?, rfl, hmodifiers, -⟩ := h
  have hnone : ∀ {ts : List Text}, (∀ w ∈ ts, w ∈ parameterModifiers) →
      (ts.filter fun word ↦ !parameterModifiers.contains word) = [] := by
    intro ts hts
    refine List.filter_eq_nil_iff.2 fun w hw ↦ ?_
    simpa using hts w hw
  have hfilter : ((front ++ name?.toList ++ back).filter
      fun word ↦ !parameterModifiers.contains word) =
        name?.toList.filter fun word ↦ !parameterModifiers.contains word := by
    rw [List.filter_append, List.filter_append,
      hnone fun w hw ↦ hmodifiers w (List.mem_append_left _ hw),
      hnone fun w hw ↦ hmodifiers w (List.mem_append_right _ hw), List.nil_append, List.append_nil]
  have hlength : (name?.toList.filter fun word ↦ !parameterModifiers.contains word).length ≤ 1 := by
    refine (List.length_filter_le _ _).trans ?_
    cases name? <;> simp
  unfold checkQualifiers
  dsimp only
  rw [hfilter, if_neg]
  rw [Bool.or_eq_true, not_or]
  refine ⟨by simpa using hlength, ?_⟩
  simp only [List.any_eq_true, Bool.not_eq_true', not_exists, not_and, Bool.not_eq_false]
  intro w hw
  exact hnames w (by simp [(List.mem_filter.1 hw).1])

/-! ### Reading one parameter -/

/-- A component of a tuple is shorter than the tuple. -/
theorem length_lt_of_component {tail inner after part : Text} {parts : List Text}
    (hbare : bareParameter s = '(' :: tail) (hclose : closeParen 0 tail = some (inner, after))
    (hparts : parameterParts inner = .ok parts) (hpart : part ∈ parts) :
    part.length < s.length := by
  have hpartLength := length_le_of_mem_parameterParts hparts part hpart
  have hinnerLength := length_lt_of_closeParen hclose
  have hbareLength := length_bareParameter_le s
  rw [hbare, List.length_cons] at hbareLength
  omega

/-- A parameter without parentheses is read as a plain word. -/
theorem readParameter_of_isPlain (h : IsPlain s) : readParameter s = readElementary (strip s) := by
  have hstrip : ∀ c ∈ strip s, c ≠ '(' := by
    intro c hc
    have hmem : c ∈ s := by
      obtain ⟨b, -, hs⟩ := exists_stripLeft s
      obtain ⟨b', -, hs'⟩ := exists_stripRight (stripLeft s)
      rw [hs, hs']
      exact List.mem_append_right _ (List.mem_append_left _ hc)
    exact (h c hmem).1
  have hbare : bareParameter s = strip s := by
    refine if_neg fun hbegins ↦ ?_
    have hmem := (List.isPrefixOf_iff_prefix.1 hbegins).subset
      (show '(' ∈ "tuple(".toList by decide)
    exact hstrip '(' hmem rfl
  rw [readParameter]
  split
  · rename_i tail hp
    rw [hbare] at hp
    exact absurd rfl (hstrip '(' (by simp [hp]))
  · rw [hbare]

/-- A parameter in parentheses is read as a tuple. -/
theorem readParameter_of_tuple {list after : Text} {parts : List Text}
    {types : List ParameterType} (hbare : bareParameter s = '(' :: (list ++ ')' :: after))
    (hlist : Balanced true list) (hparts : parameterParts list = .ok parts)
    (htypes : parts.mapM readParameter = .ok types)
    (hsuffix : tupleSuffix (words after) = (dimensions, ws)) (hws : AreQualifiers ws) :
    readParameter s = .ok (.tuple types dimensions) := by
  rw [readParameter]
  split
  · rename_i tail hp
    obtain rfl : list ++ ')' :: after = tail := (List.cons.inj (hbare.symm.trans hp)).2
    split
    · rename_i hclose
      rw [hlist.closeParen_eq] at hclose
      cases hclose
    · rename_i inner rest hclose
      rw [hlist.closeParen_eq] at hclose
      cases hclose
      split
      · rename_i hfault
        rw [hparts] at hfault
        cases hfault
      · rename_i parts' hparts'
        obtain rfl : parts = parts' := Except.ok.inj (hparts.symm.trans hparts')
        rw [List.mapM_subtype (g := readParameter) fun _ _ ↦ rfl, List.unattach_attach, htypes,
          hsuffix]
        show (checkQualifiers _ ws >>= fun _ ↦ pure _) = _
        rw [hws.checkQualifiers_eq]
        rfl
  · rename_i hp
    exact absurd hbare (hp _)

/-! ### Words of a parameter -/

theorem isNamePart_of_isWordPart {c : Char} (h : isWordPart c = true) : isNamePart c = true := by
  rw [isNamePart, h, Bool.true_or]

theorem isWordPart_of_isWordStart {c : Char} (h : isWordStart c = true) : isWordPart c = true := by
  rw [isWordPart, h, Bool.true_or]

theorem isNamePart_of_isNameStart {c : Char} (h : isNameStart c = true) : isNamePart c = true := by
  simp only [isNameStart, Bool.or_eq_true, decide_eq_true_eq] at h
  rcases h with h | rfl
  · exact isNamePart_of_isWordPart (isWordPart_of_isWordStart h)
  · decide

/-- The characters of a name. -/
theorem isNamePart_of_isName {w : Text} (h : isName w = true) : ∀ c ∈ w, isNamePart c = true := by
  cases w with
  | nil => simp
  | cons c rest =>
    simp only [isName, Bool.and_eq_true, List.all_eq_true] at h
    simp only [List.mem_cons, forall_eq_or_imp]
    exact ⟨isNamePart_of_isNameStart h.1, h.2⟩

theorem IsTypeName.isNamePart {name : Text} (h : IsTypeName name) :
    ∀ c ∈ name, isNamePart c = true := by
  obtain ⟨c, rest, rfl, hc, hrest⟩ := h
  simp only [List.mem_cons, forall_eq_or_imp]
  exact ⟨isNamePart_of_isWordPart (isWordPart_of_isWordStart hc),
    fun d hd ↦ isNamePart_of_isWordPart (hrest d hd)⟩

/-- The characters of array suffixes. -/
theorem AreDimensions.mem_renderDimensions (h : AreDimensions dimensions) :
    ∀ c ∈ ParameterType.renderDimensions dimensions, isNamePart c = true ∨ c = '[' ∨ c = ']' := by
  intro c hc
  obtain ⟨digits, hdigits, hc⟩ := List.mem_flatMap.1 hc
  simp only [List.cons_append, List.mem_cons, List.mem_append, List.not_mem_nil, or_false] at hc
  rcases hc with rfl | hc | rfl
  · exact .inr (.inl rfl)
  · refine .inl (isNamePart_of_isWordPart ?_)
    rw [isWordPart, h digits hdigits c hc, Bool.or_true]
  · exact .inr (.inr rfl)

/-- A name with array suffixes is one word. -/
theorem isWord_append_renderDimensions {name : Text} (hname : ∀ c ∈ name, isNamePart c = true)
    (hdimensions : AreDimensions dimensions)
    (hne : name ++ ParameterType.renderDimensions dimensions ≠ []) :
    IsWord (name ++ ParameterType.renderDimensions dimensions) := by
  refine ⟨hne, fun c hc ↦ ?_⟩
  rcases List.mem_append.1 hc with hc | hc
  · exact (ne_of_isNamePart (hname c hc)).2.2.2.2
  · rcases hdimensions.mem_renderDimensions c hc with hc | rfl | rfl
    · exact (ne_of_isNamePart hc).2.2.2.2
    · decide
    · decide

/-- An elementary type with qualifiers behind it is read. -/
theorem readElementary_eq {name : Text} (hname : IsTypeName name)
    (hdimensions : AreDimensions dimensions) (hws : AreQualifiers ws)
    (hwords : words s = (name ++ ParameterType.renderDimensions dimensions) :: ws) :
    readElementary s = .ok (.elementary (expandAlias name) dimensions) := by
  obtain ⟨c, rest, rfl, hc, hrest⟩ := hname
  obtain ⟨htake, hdrop⟩ := takeWhile_append_head? hrest
    (r := ParameterType.renderDimensions dimensions) fun d hd ↦ by
      rw [head?_renderDimensions d hd]
      decide
  rw [readElementary, hwords, List.cons_append]
  simp only [hc, htake, hdrop, dimensions?_renderDimensions hdimensions]
  show (checkQualifiers s ws >>= fun _ ↦ pure _) = _
  rw [hws.checkQualifiers_eq]
  rfl

/-- The array suffixes behind a tuple are told from the qualifiers. -/
theorem tupleSuffix_words {gap after : Text} (hgap : AllBlank gap)
    (hdimensions : AreDimensions dimensions) (hafter : Wording ws after)
    (hhead : ∀ c ∈ after.head?, isBlank c = true) (hws : AreQualifiers ws) :
    tupleSuffix (words (gap ++ ParameterType.renderDimensions dimensions ++ after)) =
      (dimensions, ws) := by
  -- without suffixes the first word is a qualifier, and no qualifier looks like a suffix
  by_cases hnil : dimensions = []
  · subst hnil
    rw [ParameterType.renderDimensions, List.flatMap_nil, List.append_nil, words_append_left hgap,
      hafter.words_eq]
    cases ws with
    | nil => rfl
    | cons w ws =>
      have hname := hws.isName w (by simp)
      cases w with
      | nil => cases hname
      | cons c rest =>
        have hc := isNamePart_of_isName hname c (by simp)
        rw [tupleSuffix, dimensions?_eq_none (ne_of_isNamePart hc).2.2.2.1]
  · have hne : [] ++ ParameterType.renderDimensions dimensions ≠ [] := by
      obtain ⟨digits, rest, rfl⟩ := List.exists_cons_of_ne_nil hnil
      simp [ParameterType.renderDimensions]
    have hword := isWord_append_renderDimensions (by simp) hdimensions hne
    rw [List.nil_append] at hword
    rw [(Wording.cons hgap hword hhead hafter).words_eq, tupleSuffix,
      dimensions?_renderDimensions hdimensions]

/-! ### Parentheses and commas -/

theorem Text.AllBlank.isPlain (h : AllBlank s) : IsPlain s := by
  refine fun c hc ↦ ⟨?_, ?_, ?_⟩
  iterate 3
    rintro rfl
    exact absurd (h _ hc) (by decide)

theorem isPlain_of_isNamePart (h : ∀ c ∈ s, isNamePart c = true) : IsPlain s := by
  intro c hc
  obtain ⟨h₁, h₂, h₃, -⟩ := ne_of_isNamePart (h c hc)
  exact ⟨h₁, h₂, h₃⟩

theorem AreDimensions.isPlain (h : AreDimensions dimensions) :
    IsPlain (ParameterType.renderDimensions dimensions) := by
  intro c hc
  rcases h.mem_renderDimensions c hc with hc | rfl | rfl
  · obtain ⟨h₁, h₂, h₃, -⟩ := ne_of_isNamePart hc
    exact ⟨h₁, h₂, h₃⟩
  · decide
  · decide

theorem IsPlain.append {t : Text} (hs : IsPlain s) (ht : IsPlain t) : IsPlain (s ++ t) :=
  fun c hc ↦ (List.mem_append.1 hc).elim (hs c) (ht c)

theorem Text.Wording.isPlain (h : Wording ws s) (hws : ∀ w ∈ ws, isName w = true) : IsPlain s := by
  induction h with
  | nil hb => exact hb.isPlain
  | @cons b w s ws hb _ _ _ ih =>
    have hw : IsPlain w := isPlain_of_isNamePart (isNamePart_of_isName (hws w (by simp)))
    exact (hb.isPlain.append hw).append (ih fun v hv ↦ hws v (by simp [hv]))

theorem Qualifies.isPlain (h : Qualifies s) : IsPlain s := by
  obtain ⟨-, ws, hwording, hws⟩ := h
  exact hwording.isPlain hws.isName

/-- A list of balanced parts is balanced. -/
theorem IsListOf.balanced {parts : List Text} (h : IsListOf parts s)
    (hparts : ∀ part ∈ parts, Balanced false part) : Balanced true s := by
  unfold IsListOf at h
  split at h
  · exact .of_forall h.isPlain
  · rw [h]
    exact balanced_joinWith hparts

theorem isPlain_elementary {before name after : Text} (hbefore : AllBlank before)
    (hname : IsTypeName name) (hdimensions : AreDimensions dimensions) (hafter : Qualifies after) :
    IsPlain (before ++ (name ++ ParameterType.renderDimensions dimensions) ++ after) := by
  have hword := (isPlain_of_isNamePart hname.isNamePart).append hdimensions.isPlain
  exact (hbefore.isPlain.append hword).append hafter.isPlain

/-- **A parameter is balanced**, and no comma stands outside of its parentheses. -/
theorem Declares.balanced (h : Declares type s) : Balanced false s := by
  induction h with
  | elementary hbefore hname hdimensions hafter =>
    exact .of_forall (isPlain_elementary hbefore hname hdimensions hafter)
  | @tuple components dimensions before word list gap after hbefore hword _ hlist hgap hdimensions
      hafter ih =>
    have hwordPlain : IsPlain word := by
      rcases hword with rfl | rfl
      · exact fun c hc ↦ by cases hc
      · exact isPlain_of_isNamePart (by decide)
    have hlist : Balanced true list := by
      refine hlist.balanced fun part hpart ↦ ?_
      obtain ⟨c, hc, rfl⟩ := List.mem_map.1 hpart
      exact ih c hc
    have hbehind := (hgap.isPlain.append hdimensions.isPlain).append hafter.isPlain
    exact (Balanced.of_forall (hbefore.isPlain.append hwordPlain)).append
      (.parens hlist (.of_forall hbehind))

/-- A parameter is not blank. -/
theorem Declares.not_allBlank (h : Declares type s) : ¬ AllBlank s := by
  intro hblank
  cases h with
  | elementary _ hname =>
    obtain ⟨c, rest, rfl, hc, -⟩ := hname
    have hpart := isNamePart_of_isWordPart (isWordPart_of_isWordStart hc)
    have hfalse := (ne_of_isNamePart hpart).2.2.2.2
    rw [hblank c (by simp)] at hfalse
    cases hfalse
  | tuple => exact absurd (hblank '(' (by simp)) (by decide)

theorem mem_joinWith {separator part : Text} {parts : List Text} {c : Char} (hc : c ∈ part) :
    c ∈ joinWith separator (part :: parts) := by
  cases parts with
  | nil => exact hc
  | cons next parts => simp [joinWith_cons_cons, hc]

/-- **A list is taken apart** into its parts. -/
theorem IsListOf.parameterParts_eq {components : List (ParameterType × Text)}
    (h : IsListOf (components.map Prod.snd) s) (hcomponents : ∀ c ∈ components, Declares c.1 c.2) :
    parameterParts s = .ok (components.map Prod.snd) := by
  have hparts : ∀ part ∈ components.map Prod.snd, Balanced false part ∧ ¬ AllBlank part := by
    intro part hpart
    obtain ⟨c, hc, rfl⟩ := List.mem_map.1 hpart
    exact ⟨(hcomponents c hc).balanced, (hcomponents c hc).not_allBlank⟩
  unfold IsListOf at h
  split at h
  · rename_i hnil
    exact parameterParts_eq_ok_iff.2 (.inl ⟨h, hnil⟩)
  · rename_i hne
    have hcut := cutCommas_joinWith hne fun part hpart ↦ (hparts part hpart).1
    subst h
    refine parameterParts_eq_ok_iff.2
      (.inr ⟨fun hall ↦ ?_, hcut.symm, fun part hpart ↦ (hparts part hpart).2⟩)
    obtain ⟨part, rest, heq⟩ := List.exists_cons_of_ne_nil hne
    refine (hparts part (by simp [heq])).2 fun c hc ↦ hall c ?_
    rw [heq]
    exact mem_joinWith hc

/-! ### Every written parameter is read -/

/-- The blanks around a tuple and the word in front of it are dropped. -/
theorem bareParameter_eq {before word list behind : Text} (hbefore : AllBlank before)
    (hword : word = [] ∨ word = "tuple".toList) :
    bareParameter (before ++ word ++ '(' :: (list ++ ')' :: behind)) =
      '(' :: (list ++ ')' :: stripRight behind) := by
  have hleft : stripLeft (before ++ word ++ '(' :: (list ++ ')' :: behind)) =
      word ++ '(' :: list ++ ')' :: behind := by
    rw [List.append_assoc, stripLeft_append hbefore]
    rcases hword with rfl | rfl
    · exact stripLeft_cons (by decide) _
    · exact stripLeft_cons (by decide) _
  have hstrip : strip (before ++ word ++ '(' :: (list ++ ')' :: behind)) =
      word ++ '(' :: list ++ ')' :: stripRight behind := by
    rw [strip, hleft, stripRight_append_cons (by decide)]
  unfold bareParameter
  dsimp only
  rw [hstrip]
  rcases hword with rfl | rfl
  · exact if_neg (by simp)
  · exact if_pos (by simp)

/-- **Every written parameter is read** as the type that it declares. -/
theorem Declares.readParameter_eq (h : Declares type s) : readParameter s = .ok type := by
  induction h with
  | @elementary name before after dimensions hbefore hname hdimensions hafter =>
    obtain ⟨hhead, ws, hwording, hws⟩ := hafter
    have hplain := isPlain_elementary hbefore hname hdimensions ⟨hhead, ws, hwording, hws⟩
    have hne : name ++ ParameterType.renderDimensions dimensions ≠ [] := by
      obtain ⟨c, rest, rfl, -⟩ := hname
      simp
    have hword := isWord_append_renderDimensions hname.isNamePart hdimensions hne
    rw [readParameter_of_isPlain hplain]
    refine readElementary_eq hname hdimensions hws ?_
    rw [words_strip, (Wording.cons hbefore hword hhead hwording).words_eq]
  | @tuple components dimensions before word list gap after hbefore hword hcomponents hlist hgap
      hdimensions hafter ih =>
    obtain ⟨hhead, ws, hwording, hws⟩ := hafter
    have hparts := hlist.parameterParts_eq hcomponents
    have hbalanced := hlist.balanced fun part hpart ↦ by
      obtain ⟨c, hc, rfl⟩ := List.mem_map.1 hpart
      exact (hcomponents c hc).balanced
    have htypes := mapM_map_snd fun c hc ↦ ih c hc
    refine readParameter_of_tuple (bareParameter_eq hbefore hword) hbalanced hparts htypes ?_ hws
    rw [words_stripRight, tupleSuffix_words hgap hdimensions hwording hhead hws]

end

end YulPlus
