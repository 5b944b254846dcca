import Mathlib.Data.List.Chain
import YulPlus.Proofs.Lowering.Generated
import YulPlus.Proofs.Lowering.Values

/-!
# What names mean

In the tokens of the lowered code a bound name is replaced by tokens, not by a text. `meaningsOf`
are the readings that the names of a scope stand for: a member of an enum for its number, a constant
for its expression, in which the names declared earlier are already replaced. That the texts of
`valuesOf` read as these meanings (`reads_valuesOf`) needs tokens that do not touch: `Spaced`.

Texts are put together from the back. `Behind o ts s ws` is what every step keeps, where `s` is the
text behind the offset `o` of a source and `ts` are the tokens that stood there. It reads as `ws`,
and it is soft unless a word came first and touched the place. So whatever ends at `o` may be put in
front of it, if the tokens were spaced.
-/

namespace YulPlus

open Text

/-- Between two neighbouring tokens that are words, numbers or in quotes there is a gap. -/
def Spaced (tokens : List Token) : Prop :=
  tokens.IsChain fun t u ↦
    t.kind.isWordLike = true → u.kind.isWordLike = true → t.stop < u.start.offset

/-- The readings of the tokens that a token becomes, where `meanings` says what names stand for. -/
def Token.expansion (meanings : List (Text × List (TokenKind × Text))) (t : Token) :
    List (TokenKind × Text) :=
  if t.kind = .identifier then
    ((meanings.find? fun entry ↦ entry.1 = t.value).map (·.2)).getD [t.reading]
  else
    match t.hash? with
    | some hash => [(.number, hash)]
    | none => [t.reading]

/-- What the names that a declaration binds stand for, if `meanings` are those of the names before:
a member of an enum for its number, a constant for its expression. -/
def Declaration.meanings (meanings : List (Text × List (TokenKind × Text))) :
    Declaration → List (Text × List (TokenKind × Text))
  | enum name members =>
    (Bindings.entries name 0 members).map fun (member, number) ↦ (member, [(.number, number)])
  | const name value => [(name, value.flatMap (Token.expansion meanings))]
  | struct _ => []

/-- What the names that some declarations bind stand for, one declaration after the other. -/
def meaningsOf (ds : List Declaration) : List (Text × List (TokenKind × Text)) :=
  ds.foldl (fun meanings d ↦ meanings ++ d.meanings meanings) []

/-- The names that a declaration binds to values: the qualified members of an enum, a constant. -/
def Declaration.valueNames : Declaration → List Text
  | struct _ => []
  | d => d.names

/-- The names that some declarations bind to values. -/
def boundNames (ds : List Declaration) : List Text :=
  ds.flatMap Declaration.valueNames

/-- A text behind the offset `o`, where the tokens `ts` stood: it reads as `ws`, and if no word
began at `o` itself, then every token may end in front of it. -/
structure Behind (o : Nat) (ts : List Token) (s : Text) (ws : List (TokenKind × Text)) : Prop where
  lexes : Lexes s ws
  soft : (∀ t ∈ ts.head?, t.kind.isWordLike = true → o < t.start.offset) → Soft s

/-- The text that stands for a token reads as `ws`; only a word may be replaced. -/
def Token.Renders (t : Token) (text? : Option Text) (ws : List (TokenKind × Text)) : Prop :=
  match text? with
  | some u => t.kind.isWordLike = true ∧ Reads u ws
  | none => ws = [t.reading]

/-- The names of the two lists are the same, and their values have their meanings, where `R` says
what a text has for a meaning. -/
def ValuesMean (R : Text → List (TokenKind × Text) → Prop) (values : List (Text × Text))
    (meanings : List (Text × List (TokenKind × Text))) : Prop :=
  List.Forall₂ (fun e m ↦ e.1 = m.1 ∧ R e.2 m.2) values meanings

section

variable {source s u : Text} {t : Token} {ts us : List Token} {o : Nat}
  {ws vs : List (TokenKind × Text)} {values : List (Text × Text)}
  {meanings : List (Text × List (TokenKind × Text))}
  {R : Text → List (TokenKind × Text) → Prop}

/-! ### One token more -/

/-- A gap that is not empty separates. -/
theorem Token.StandsAfter.soft_gap (ht : t.StandsAfter source o) (h : o < t.start.offset) :
    Soft (slice source o t.start.offset ++ s) := by
  refine ht.gap.soft.append (fun hnil ↦ ?_) s
  have hlength := congrArg List.length hnil
  have hstop := ht.start_lt_stop
  have hle := ht.stop_le
  rw [length_slice (by omega)] at hlength
  simp at hlength
  omega

/-- A text that can be read behind a symbol, and the symbol with the gap in front of it. -/
theorem Behind.symbol (ht : t.StandsAfter source o) (hsymbol : t.kind.isWordLike = false)
    (h : Behind t.stop ts s ws) :
    Behind o (t :: ts) (slice source o t.start.offset ++ t.text ++ s) (t.reading :: ws) := by
  obtain ⟨r, hr⟩ := ht.spelling
  have hspell := hr.of_not_wordLike hsymbol h.lexes.head?_ne_equals
  rw [List.append_assoc]
  refine ⟨ht.gap.lexes_append (.cons hspell h.lexes), fun _ ↦ ?_⟩
  -- without a gap the text begins with the symbol itself
  by_cases hgap : o < t.start.offset
  · exact ht.soft_gap hgap
  · have hstart : t.start.offset = o := Nat.le_antisymm (Nat.le_of_not_lt hgap) ht.le_start
    rw [hstart, slice_self, List.nil_append]
    exact (hr.soft hsymbol).append hr.text_ne_nil s

/-- A text that may stand in the place of a word, in front of more. -/
theorem Behind.word (ht : t.StandsAfter source o) (hword : t.kind.isWordLike = true)
    (hspaced : Spaced (t :: ts)) (hu : Reads u vs) (h : Behind t.stop ts s ws) :
    Behind o (t :: ts) (slice source o t.start.offset ++ u ++ s) (vs ++ ws) := by
  have hsoft : Soft s := h.soft fun v hv hv' ↦ (List.isChain_cons.1 hspaced).1 v hv hword hv'
  rw [List.append_assoc]
  exact ⟨ht.gap.lexes_append (hu hsoft h.lexes), fun hgap ↦ ht.soft_gap (hgap t rfl hword)⟩

/-- **One token more**: the token itself or what stands for it, in front of more. -/
theorem Behind.token {text? : Option Text} (ht : t.StandsAfter source o)
    (hspaced : Spaced (t :: ts)) (hrenders : t.Renders text? vs) (h : Behind t.stop ts s ws) :
    Behind o (t :: ts) (slice source o t.start.offset ++ text?.getD t.text ++ s) (vs ++ ws) := by
  cases text? with
  | some u => exact .word ht hrenders.1 hspaced hrenders.2 h
  | none =>
    obtain rfl : vs = [t.reading] := hrenders
    cases hword : t.kind.isWordLike with
    | false => exact .symbol ht hword h
    | true =>
      obtain ⟨r, hr⟩ := ht.spelling
      exact .word ht hword hspaced hr.reads h

/-- **Tokens that are left out**, of which the first is a word. -/
theorem Behind.deleted {stop : Nat} (ht : t.StandsAfter source o)
    (hword : t.kind.isWordLike = true) (h : Behind stop us s ws) :
    Behind o (t :: ts) (slice source o t.start.offset ++ s) ws :=
  ⟨ht.gap.lexes_append h.lexes, fun hgap ↦ ht.soft_gap (hgap t rfl hword)⟩

/-! ### The names of a scope -/

/-- A name is bound to a value that has its meaning, or it stands for itself. -/
theorem ValuesMean.value?_cases (h : ValuesMean R values meanings) (hname : t.kind = .identifier) :
    (∃ u, t.replacement? values = some u ∧ R u (t.expansion meanings)) ∨
      t.replacement? values = none ∧ t.expansion meanings = [t.reading] := by
  simp only [Token.replacement?, Token.expansion, if_pos hname]
  induction h with
  | nil => exact .inr ⟨rfl, rfl⟩
  | @cons e m values meanings hem _ ih =>
    obtain ⟨e, value⟩ := e
    obtain ⟨m, meaning⟩ := m
    obtain ⟨rfl, hmeans⟩ : e = m ∧ R value meaning := hem
    by_cases he : e = t.value
    · simp only [Bindings.value?, List.find?_cons, he, decide_true, Option.map_some,
        Option.getD_some]
      exact .inl ⟨_, rfl, hmeans⟩
    · simp only [Bindings.value?, List.find?_cons, he, decide_false]
      exact ih

/-- **A token** is a name with a value, a literal with a hash, or it stands for itself. -/
theorem ValuesMean.replacement?_cases (h : ValuesMean R values meanings) (t : Token) :
    (∃ u, t.kind = .identifier ∧ t.replacement? values = some u ∧ R u (t.expansion meanings)) ∨
      (∃ hash, t.hash? = some hash ∧ t.replacement? values = some hash ∧
        t.expansion meanings = [(.number, hash)]) ∨
      t.hash? = none ∧ t.replacement? values = none ∧ t.expansion meanings = [t.reading] := by
  by_cases hname : t.kind = .identifier
  · have hnone : t.hash? = none := by rw [Token.hash?, hname]
    rcases h.value?_cases hname with ⟨u, hu, hmeans⟩ | hkept
    · exact .inl ⟨u, hname, hu, hmeans⟩
    · exact .inr (.inr ⟨hnone, hkept⟩)
  · rw [Token.replacement?, Token.expansion, if_neg hname, if_neg hname]
    cases hhash : t.hash? with
    | none => exact .inr (.inr ⟨rfl, rfl, rfl⟩)
    | some hash => exact .inr (.inl ⟨hash, rfl, rfl, rfl⟩)

/-- What a token is replaced by reads as its expansion, if the values read as the meanings. -/
theorem Token.renders_replacement? (h : ValuesMean Reads values meanings) :
    t.Renders (t.replacement? values) (t.expansion meanings) := by
  rcases h.replacement?_cases t with ⟨u, hname, hu, hreads⟩ | ⟨hash, hhash, hu, hmeans⟩ |
    ⟨-, hu, hself⟩
  · rw [hu]
    exact ⟨by rw [hname]; rfl, hreads⟩
  · rw [hu, hmeans]
    exact ⟨TokenKind.isWordLike_of_isHash (isHash_of_hash?_eq hhash), reads_hash hhash⟩
  · rw [hu]
    exact hself

/-- **Some tokens of a source**, with names and hashes replaced, in front of a soft text. -/
theorem Behind.rendered (hts : Placed source o ts) (hspaced : Spaced ts)
    (hvalues : ValuesMean Reads values meanings) (hs : Soft s) (hlex : Lexes s ws) :
    Behind o ts (rendered source (Token.replacement? values) o ts ++ s)
      (ts.flatMap (Token.expansion meanings) ++ ws) := by
  induction hts with
  | nil => exact ⟨hlex, fun _ ↦ hs⟩
  | @cons o t ts ht _ ih =>
    have hrest := ih (List.isChain_cons.1 hspaced).2
    have hall := Behind.token ht hspaced (Token.renders_replacement? hvalues) hrest
    simpa [YulPlus.rendered] using hall

/-- **The values of a scope have the meanings of its names**, if this holds of decimal numbers and
is kept by every constant. -/
theorem valuesMean_valuesOf {ds : List Declaration}
    (hdecimal : ∀ n, R (decimal n) [(.number, decimal n)])
    (hconst : ∀ name value, .const name value ∈ ds → ∀ values meanings,
      ValuesMean R values meanings →
        R (rendered source (Token.replacement? values) (startOf value) value)
          (value.flatMap (Token.expansion meanings))) :
    ValuesMean R (valuesOf source ds) (meaningsOf ds) := by
  have hfold : ∀ {values meanings}, ValuesMean R values meanings →
      ValuesMean R (ds.foldl (fun values d ↦ values ++ d.values source values) values)
        (ds.foldl (fun meanings d ↦ meanings ++ d.meanings meanings) meanings) := by
    induction ds with
    | nil => exact fun h ↦ h
    | cons d ds ih =>
      intro values meanings h
      have hd : ValuesMean R (d.values source values) (d.meanings meanings) := by
        cases d with
        | enum name members =>
          refine List.forall₂_map_right_iff.2 (List.forall₂_same.2 fun e he ↦ ⟨rfl, ?_⟩)
          obtain ⟨⟨member, i⟩, -, rfl⟩ := List.mem_map.1 he
          exact hdecimal i
        | const name value => exact .cons ⟨rfl, hconst name value (by simp) _ _ h⟩ .nil
        | struct => exact .nil
      exact ih (fun name value hmem ↦ hconst name value (by simp [hmem])) (List.rel_append h hd)
  exact hfold .nil

theorem meaningsOf_append_singleton (ds : List Declaration) (d : Declaration) :
    meaningsOf (ds ++ [d]) = meaningsOf ds ++ d.meanings (meaningsOf ds) := by
  rw [meaningsOf, List.foldl_append]
  rfl

theorem Declaration.map_fst_meanings (meanings : List (Text × List (TokenKind × Text)))
    (d : Declaration) : (d.meanings meanings).map Prod.fst = d.valueNames := by
  cases d with
  | enum name members =>
    show ((Bindings.entries name 0 members).map _).map Prod.fst = _
    rw [List.map_map]
    exact Bindings.map_fst_entries
  | const name value => rfl
  | struct s => rfl

/-- **The names with a meaning** are those that are bound to values. -/
theorem map_fst_meaningsOf (ds : List Declaration) :
    (meaningsOf ds).map Prod.fst = boundNames ds := by
  induction ds using List.reverseRecOn with
  | nil => rfl
  | append_singleton ds d ih =>
    rw [meaningsOf_append_singleton, List.map_append, ih, d.map_fst_meanings, boundNames,
      boundNames, List.flatMap_append, List.flatMap_singleton]

/-- **The names with a value** are the same. -/
theorem map_fst_valuesOf (source : Text) (ds : List Declaration) :
    (valuesOf source ds).map Prod.fst = boundNames ds := by
  have hvalues : ValuesMean (fun _ _ ↦ True) (valuesOf source ds) (meaningsOf ds) :=
    valuesMean_valuesOf (fun _ ↦ trivial) fun _ _ _ _ _ _ ↦ trivial
  rw [← map_fst_meaningsOf]
  generalize valuesOf source ds = values, meaningsOf ds = meanings at hvalues
  induction hvalues with
  | nil => rfl
  | cons hem _ ih => rw [List.map_cons, List.map_cons, hem.1, ih]

/-- The value of a constant stands in the source, and its tokens do not touch. -/
def Declaration.IsSpaced (source : Text) : Declaration → Prop
  | const _ value => Placed source (startOf value) value ∧ Spaced value
  | _ => True

/-- If the tokens of constants do not touch, then the values of a scope read as its meanings. -/
theorem reads_valuesOf {ds : List Declaration} (hds : ∀ d ∈ ds, d.IsSpaced source) :
    ValuesMean Reads (valuesOf source ds) (meaningsOf ds) := by
  refine valuesMean_valuesOf reads_decimal fun name value hmem values meanings hvalues ↦ ?_
  obtain ⟨hplaced, hspaced⟩ : Placed source (startOf value) value ∧ Spaced value := hds _ hmem
  exact fun s vs hs hlex ↦ (Behind.rendered hplaced hspaced hvalues hs hlex).lexes

end

end YulPlus
