import YulPlus.Proofs.Signature.Declared
import YulPlus.Signature.Parser

/-!
# Written signatures

`Signature.IsWritten s text` says how a signature may be written: with or without its keyword, with
free spacing, with parameters in any of their forms, and with the words that may stand behind them.
`parse_eq_of_isWritten` is that every such text is parsed, as the signature itself.

Two places need an argument of their own. A missing keyword is not found in front of the name, since
a name that begins like the keyword goes on behind it (`dropKeyword_eq`). And the word `returns` is
searched for by its characters, so the words in front of the clause must not contain it, not even
together with its beginning (`Text.Wording.cutAt?_append`). -/

namespace YulPlus

open Text

namespace Signature

/-- Words that say how a function may be called. -/
def IsMutability (s : Text) : Prop :=
  ∃ ws, Wording ws s ∧ ∀ w ∈ ws, w ∈ mutabilityWords

/-- What may stand behind the parameters of a signature of this kind. -/
inductive IsTrailer : Text → Text → Prop
  | function {mutability : Text} (hwords : IsMutability mutability) :
      IsTrailer functionKind mutability
  | returns {mutability gap list after : Text} {outputs : List (ParameterType × Text)}
      (hwords : IsMutability mutability) (hsep : ∀ c ∈ mutability.getLast?, isBlank c = true)
      (hgap : AllBlank gap) (houtputs : ∀ o ∈ outputs, Declares o.1 o.2)
      (hlist : IsListOf (outputs.map Prod.snd) list) (hafter : AllBlank after) :
      IsTrailer functionKind
        (mutability ++ ("returns".toList ++ (gap ++ '(' :: (list ++ ')' :: after))))
  | event {after : Text} (hafter : AllBlank after) : IsTrailer eventKind after
  | anonymous {before after : Text} (hbefore : AllBlank before) (hafter : AllBlank after) :
      IsTrailer eventKind (before ++ "anonymous".toList ++ after)

/-- The keyword and blanks behind it, or nothing in front of a name that is not the keyword. -/
def IsKeyword (kind name keyword : Text) : Prop :=
  (∃ gap, AllBlank gap ∧ keyword = kind ++ ' ' :: gap) ∨ (keyword = [] ∧ name ≠ kind)

/-- The signature may be written like this. -/
inductive IsWritten : Signature → Text → Prop
  | mk {kind name before keyword gap list trailer : Text}
      {parameters : List (ParameterType × Text)} (hbefore : AllBlank before)
      (hkeyword : IsKeyword kind name keyword) (hname : isName name = true) (hgap : AllBlank gap)
      (hparameters : ∀ p ∈ parameters, Declares p.1 p.2)
      (hlist : IsListOf (parameters.map Prod.snd) list) (htrailer : IsTrailer kind trailer) :
      IsWritten ⟨kind, name, parameters.map Prod.fst⟩
        (before ++ (keyword ++ (name ++ (gap ++ '(' :: (list ++ ')' :: trailer)))))

variable {kind name mutability trailer text : Text} {ws : List Text} {s : Signature}

/-! ### Behind the parameters -/

/-- The word `returns` is searched for behind the words of mutability. -/
theorem cutAt?_returns (hwords : Wording ws mutability) (hws : ∀ w ∈ ws, w ∈ mutabilityWords)
    {r : Text} (hr : r = [] ∨ ∀ c ∈ mutability.getLast?, isBlank c = true) :
    cutAt? "returns".toList (mutability ++ r) =
      (cutAt? "returns".toList r).map fun (before, after) ↦ (mutability ++ before, after) := by
  have hnone : ∀ w ∈ mutabilityWords, ¬ "returns".toList <:+: w := by decide +kernel
  exact hwords.cutAt?_append (by decide) (by decide) (fun w hw ↦ hnone w (hws w hw)) hr

theorem find?_mutability (hws : ∀ w ∈ ws, w ∈ mutabilityWords) :
    (ws.find? fun word ↦ !mutabilityWords.contains word) = none := by
  refine List.find?_eq_none.2 fun w hw ↦ ?_
  simpa using hws w hw

/-- A list of parameters is a return clause. -/
theorem checkReturns_eq {gap list : Text} {outputs : List (ParameterType × Text)}
    (hgap : AllBlank gap) (houtputs : ∀ o ∈ outputs, Declares o.1 o.2)
    (hlist : IsListOf (outputs.map Prod.snd) list) :
    checkReturns trailer (gap ++ '(' :: (list ++ [')'])) = .ok () := by
  have hstrip : strip (gap ++ '(' :: (list ++ [')'])) = '(' :: (list ++ [')']) := by
    have hright := stripRight_append_cons (show isBlank ')' = false by decide) ('(' :: list) []
    rw [strip, stripLeft_append hgap, stripLeft_cons (by decide)]
    exact hright
  have hbalanced := hlist.balanced fun part hpart ↦ by
    obtain ⟨o, ho, rfl⟩ := List.mem_map.1 hpart
    exact (houtputs o ho).balanced
  have hparts := hlist.parameterParts_eq houtputs
  have hread : (outputs.map Prod.snd).forM (fun part ↦ do let _ ← readParameter part) =
      (.ok () : Except SignatureFault Unit) := by
    clear hlist hbalanced hparts
    induction outputs with
    | nil => rfl
    | cons o outputs ih =>
      show ((readParameter o.2 >>= fun _ ↦ pure ()) >>= fun _ ↦ (outputs.map Prod.snd).forM _) = _
      rw [(houtputs o (by simp)).readParameter_eq]
      exact ih fun o' ho ↦ houtputs o' (by simp [ho])
  unfold checkReturns
  rw [hstrip]
  simp only [hbalanced.closeParen_eq]
  show (parameterParts list >>= fun parts ↦ parts.forM _) = _
  rw [hparts]
  exact hread

/-- Behind a function stand words of mutability. -/
theorem checkTrailer_function (hwords : Wording ws trailer)
    (hws : ∀ w ∈ ws, w ∈ mutabilityWords) : checkTrailer functionKind (strip trailer) = .ok () := by
  have hcut := cutAt?_returns hwords.strip hws (.inl rfl)
  rw [List.append_nil] at hcut
  have hnone : cutAt? "returns".toList (strip trailer) = none := hcut
  unfold checkTrailer
  split
  · rfl
  · rw [if_neg (by decide), hnone]
    dsimp only
    rw [hwords.strip.words_eq, find?_mutability hws]

/-- Behind these words may stand a return clause. -/
theorem checkTrailer_returns {gap list after : Text} {outputs : List (ParameterType × Text)}
    (hwords : Wording ws mutability) (hws : ∀ w ∈ ws, w ∈ mutabilityWords)
    (hsep : ∀ c ∈ mutability.getLast?, isBlank c = true) (hgap : AllBlank gap)
    (houtputs : ∀ o ∈ outputs, Declares o.1 o.2) (hlist : IsListOf (outputs.map Prod.snd) list)
    (hafter : AllBlank after) :
    checkTrailer functionKind (strip (mutability ++
      ("returns".toList ++ (gap ++ '(' :: (list ++ ')' :: after))))) = .ok () := by
  have hleft : stripLeft (mutability ++
      ("returns".toList ++ (gap ++ '(' :: (list ++ ')' :: after)))) =
        stripLeft mutability ++ ("returns".toList ++ (gap ++ '(' :: (list ++ ')' :: after))) :=
    stripLeft_append_cons (show isBlank 'r' = false by decide) _ _
  have hstrip : strip (mutability ++ ("returns".toList ++ (gap ++ '(' :: (list ++ ')' :: after)))) =
      stripLeft mutability ++ ("returns".toList ++ (gap ++ '(' :: (list ++ [')']))) := by
    have hright := stripRight_append_cons (show isBlank ')' = false by decide)
      (stripLeft mutability ++ ("returns".toList ++ (gap ++ '(' :: list))) after
    rw [stripRight_eq_nil hafter] at hright
    rw [strip, hleft]
    simpa using hright
  have hlast : ∀ c ∈ (stripLeft mutability).getLast?, isBlank c = true := by
    intro c hc
    obtain ⟨b, -, hb⟩ := exists_stripLeft mutability
    refine hsep c ?_
    rw [hb, List.getLast?_append, Option.mem_def.1 hc]
    rfl
  have hcut : cutAt? "returns".toList (stripLeft mutability ++
      ("returns".toList ++ (gap ++ '(' :: (list ++ [')'])))) =
        some (stripLeft mutability, gap ++ '(' :: (list ++ [')'])) := by
    rw [cutAt?_returns hwords.stripLeft hws (.inr hlast), cutAt?_self (by decide)]
    simp
  rw [hstrip]
  unfold checkTrailer
  rw [if_neg (by simp), if_neg (by decide), hcut]
  dsimp only
  rw [words_stripLeft, hwords.words_eq, find?_mutability hws]
  exact checkReturns_eq hgap houtputs hlist

/-- **What may stand behind the parameters** is accepted. -/
theorem checkTrailer_eq (h : IsTrailer kind trailer) :
    checkTrailer kind (strip trailer) = .ok () := by
  cases h with
  | function hwords =>
    obtain ⟨ws, hwording, hws⟩ := hwords
    exact checkTrailer_function hwording hws
  | returns hwords hsep hgap houtputs hlist hafter =>
    obtain ⟨ws, hwording, hws⟩ := hwords
    exact checkTrailer_returns hwording hws hsep hgap houtputs hlist hafter
  | event hafter =>
    have hstrip : strip trailer = [] := strip_append_right hafter []
    rw [hstrip]
    rfl
  | @anonymous before after hbefore hafter =>
    have hstrip : strip (before ++ "anonymous".toList ++ after) = "anonymous".toList := by
      rw [strip_append_right hafter, strip_append_left hbefore]
      decide
    rw [hstrip]
    decide

/-! ### The whole signature -/

theorem isNamePart_eq_false_of_isBlank {c : Char} (hc : isBlank c = true) :
    isNamePart c = false := by
  cases hname : isNamePart c with
  | false => rfl
  | true =>
    rw [(ne_of_isNamePart hname).2.2.2.2] at hc
    cases hc

/-- What stands between a name and its parameters does not go on with the name. -/
theorem head?_gap {gap r : Text} (hgap : AllBlank gap) :
    ∀ c ∈ (gap ++ '(' :: r).head?, isNamePart c = false := by
  intro c hc
  cases gap with
  | nil =>
    cases hc
    decide
  | cons d gap =>
    cases hc
    exact isNamePart_eq_false_of_isBlank (hgap c (by simp))

theorem stripLeft_of_isName (hname : isName name = true) (r : Text) :
    stripLeft (name ++ r) = name ++ r := by
  cases name with
  | nil => cases hname
  | cons c rest =>
    have hc := isNamePart_of_isName hname c (by simp)
    exact stripLeft_cons (ne_of_isNamePart hc).2.2.2.2 _

/-- A name in front of something else is told from every other name. -/
theorem eq_of_append_eq {d : Char} {r behind : Text} (hkind : isName kind = true)
    (hname : isName name = true) (hd : isNamePart d = false)
    (hbehind : ∀ c ∈ behind.head?, isNamePart c = false) (h : kind ++ d :: r = name ++ behind) :
    kind = name := by
  -- both are the longest run of name characters at the front
  have htake := congrArg (List.takeWhile isNamePart) h
  have hkind' := (takeWhile_append_head? (isNamePart_of_isName hkind)
    (r := d :: r) fun c hc ↦ by cases hc; exact hd).1
  have hname' := (takeWhile_append_head? (isNamePart_of_isName hname) hbehind).1
  rw [hkind', hname'] at htake
  exact htake

/-- **The keyword is dropped**, and nothing else is. -/
theorem dropKeyword_eq {keyword behind : Text} (hkeyword : IsKeyword kind name keyword)
    (hkind : isName kind = true) (hname : isName name = true)
    (hbehind : ∀ c ∈ behind.head?, isNamePart c = false) :
    dropKeyword kind (keyword ++ (name ++ behind)) = name ++ behind := by
  rcases hkeyword with ⟨gap, hgap, rfl⟩ | ⟨rfl, hne⟩
  · have hbegins : (kind ++ [' ']).isPrefixOf (kind ++ ' ' :: gap ++ (name ++ behind)) = true :=
      List.isPrefixOf_iff_prefix.2 ⟨gap ++ (name ++ behind), by simp⟩
    have hblank : AllBlank (' ' :: gap) := by
      intro c hc
      rcases List.mem_cons.1 hc with rfl | hc
      · decide
      · exact hgap c hc
    unfold dropKeyword
    rw [if_pos (by rw [hbegins, Bool.true_or]), List.append_assoc, List.drop_left,
      stripLeft_append hblank, stripLeft_of_isName hname]
  · rw [List.nil_append]
    refine if_neg ?_
    rw [Bool.or_eq_true, List.isPrefixOf_iff_prefix, List.isPrefixOf_iff_prefix]
    rintro (⟨r, hr⟩ | ⟨r, hr⟩)
    · rw [List.append_assoc] at hr
      exact hne (eq_of_append_eq hkind hname (by decide) hbehind hr).symm
    · rw [List.append_assoc] at hr
      exact hne (eq_of_append_eq hkind hname (by decide) hbehind hr).symm

theorem IsTrailer.isName_kind (h : IsTrailer kind trailer) : isName kind = true := by
  cases h <;> decide

/-- The text without the blanks around it and without the keyword. -/
theorem dropKeyword_strip {before keyword gap list : Text} (hbefore : AllBlank before)
    (hkeyword : IsKeyword kind name keyword) (hkind : isName kind = true)
    (hname : isName name = true) (hgap : AllBlank gap) :
    dropKeyword kind
        (strip (before ++ (keyword ++ (name ++ (gap ++ '(' :: (list ++ ')' :: trailer)))))) =
      name ++ (gap ++ '(' :: (list ++ ')' :: stripRight trailer)) := by
  have hleft : stripLeft (keyword ++ (name ++ (gap ++ '(' :: (list ++ ')' :: trailer)))) =
      keyword ++ (name ++ (gap ++ '(' :: (list ++ ')' :: trailer))) := by
    rcases hkeyword with ⟨b, -, rfl⟩ | ⟨rfl, -⟩
    · rw [List.append_assoc, stripLeft_of_isName hkind]
    · rw [List.nil_append, stripLeft_of_isName hname]
  have hstrip : strip (before ++ (keyword ++ (name ++ (gap ++ '(' :: (list ++ ')' :: trailer))))) =
      keyword ++ (name ++ (gap ++ '(' :: (list ++ ')' :: stripRight trailer))) := by
    have hright := stripRight_append_cons (show isBlank ')' = false by decide)
      (keyword ++ (name ++ (gap ++ '(' :: list))) trailer
    rw [strip, stripLeft_append hbefore, hleft]
    simpa using hright
  rw [hstrip, dropKeyword_eq hkeyword hkind hname (head?_gap hgap)]

/-- **Parsing inverts writing.** A signature is parsed from each text that it may be written as. -/
theorem parse_eq_of_isWritten (h : IsWritten s text) : parse s.kind text = .ok s := by
  obtain @⟨kind, name, before, keyword, gap, list, trailer, parameters, hbefore, hkeyword, hname,
    hgap, hparameters, hlist, htrailer⟩ := h
  have hdrop := @dropKeyword_strip kind name trailer before keyword gap list hbefore hkeyword
    htrailer.isName_kind hname hgap
  have hparts := hlist.parameterParts_eq hparameters
  have htypes := mapM_map_snd fun p hp ↦ (hparameters p hp).readParameter_eq
  have hbalanced := hlist.balanced fun part hpart ↦ by
    obtain ⟨p, hp, rfl⟩ := List.mem_map.1 hpart
    exact (hparameters p hp).balanced
  have hparen : stripLeft (gap ++ '(' :: (list ++ ')' :: stripRight trailer)) =
      '(' :: (list ++ ')' :: stripRight trailer) := by
    rw [stripLeft_append hgap, stripLeft_cons (by decide)]
  cases name with
  | nil => cases hname
  | cons c rest =>
    simp only [isName, Bool.and_eq_true, List.all_eq_true] at hname
    obtain ⟨htake, hrest⟩ := takeWhile_append_head? hname.2
      (head?_gap (r := list ++ ')' :: stripRight trailer) hgap)
    unfold parse
    dsimp only
    rw [hdrop, List.cons_append]
    dsimp only
    rw [if_pos hname.1, htake, hrest, hparen]
    simp only [hbalanced.closeParen_eq]
    show (checkTrailer kind (strip (stripRight trailer)) >>= fun _ ↦ parameterParts list >>=
      fun parts ↦ parts.mapM readParameter >>= fun types ↦ pure _) = _
    rw [strip_stripRight, checkTrailer_eq htrailer, hparts]
    show ((parameters.map Prod.snd).mapM readParameter >>= fun types ↦ pure _) = _
    rw [htypes]
    rfl

/-- A function without its keyword, with a tuple and a return clause. -/
theorem parse_eq_of_isWritten_returns :
    IsWritten
      ⟨functionKind, "pay".toList,
        [.tuple [.elementary "uint256".toList []] ["2".toList], .elementary "bytes1".toList []]⟩
      "pay( tuple(uint a)[2] memory ps,byte )view returns (int )".toList ∧
    parse functionKind "pay( tuple(uint a)[2] memory ps,byte )view returns (int )".toList =
      .ok
        ⟨functionKind, "pay".toList,
          [.tuple [.elementary "uint256".toList []] ["2".toList],
            .elementary "bytes1".toList []]⟩ := by
  have hnone : Wording [] [] := .nil (by decide)
  have hblank : Wording [] " ".toList := .nil (by decide)
  have ha : Qualifies " a".toList :=
    ⟨by decide, _,
      .cons (b := " ".toList) (w := "a".toList) (by decide) (by decide) (by decide) hnone,
      [], [], some "a".toList, rfl, by simp, by decide⟩
  have hps : Qualifies " memory ps".toList :=
    ⟨by decide, _,
      .cons (b := " ".toList) (w := "memory".toList) (by decide) (by decide) (by decide)
        (.cons (b := " ".toList) (w := "ps".toList) (by decide) (by decide) (by decide) hnone),
      ["memory".toList], [], some "ps".toList, rfl, by decide, by decide⟩
  have hspace : Qualifies " ".toList := ⟨by decide, [], hblank, [], [], none, rfl, by simp, by simp⟩
  have huint : Declares (.elementary "uint256".toList []) "uint a".toList :=
    @Declares.elementary "uint".toList [] " a".toList [] (by decide)
      ⟨'u', "int".toList, rfl, by decide, by decide⟩ (by decide) ha
  have hbyte : Declares (.elementary "bytes1".toList []) "byte ".toList :=
    @Declares.elementary "byte".toList [] " ".toList [] (by decide)
      ⟨'b', "yte".toList, rfl, by decide, by decide⟩ (by decide) hspace
  have hint : Declares (.elementary "int256".toList []) "int ".toList :=
    @Declares.elementary "int".toList [] " ".toList [] (by decide)
      ⟨'i', "nt".toList, rfl, by decide, by decide⟩ (by decide) hspace
  have htuple : Declares (.tuple [.elementary "uint256".toList []] ["2".toList])
      " tuple(uint a)[2] memory ps".toList :=
    @Declares.tuple [(_, "uint a".toList)] ["2".toList] " ".toList "tuple".toList "uint a".toList []
      " memory ps".toList (by decide) (.inr rfl) (by simpa using huint) rfl (by decide)
      (by decide) hps
  have htrailer : IsTrailer functionKind "view returns (int )".toList :=
    @IsTrailer.returns "view ".toList " ".toList "int ".toList [] [(_, "int ".toList)]
      ⟨_, .cons (b := []) (w := "view".toList) (by decide) (by decide) (by decide) hblank,
        by decide⟩
      (by decide) (by decide) (by simpa using hint) rfl (by decide)
  have hwritten : IsWritten
      ⟨functionKind, "pay".toList,
        [.tuple [.elementary "uint256".toList []] ["2".toList], .elementary "bytes1".toList []]⟩
      "pay( tuple(uint a)[2] memory ps,byte )view returns (int )".toList :=
    @IsWritten.mk functionKind "pay".toList [] [] [] " tuple(uint a)[2] memory ps,byte ".toList
      "view returns (int )".toList
      [(_, " tuple(uint a)[2] memory ps".toList), (_, "byte ".toList)] (by decide)
      (.inr ⟨rfl, by decide⟩) (by decide) (by decide) (by simpa using ⟨htuple, hbyte⟩) rfl htrailer
  exact ⟨hwritten, parse_eq_of_isWritten hwritten⟩

end Signature

end YulPlus
