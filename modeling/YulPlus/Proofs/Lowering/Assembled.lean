import YulPlus.Proofs.Lowering.Expansion
import YulPlus.Proofs.Source.Pieced

/-!
# What a scope becomes

`scopeText` is the text that stands for a scope in the lowered code, from its opening to its closing
brace (`lowersSlice_scopeText`): the brace, the functions that are inserted, and the parts of the
scope with names and hash literals replaced and with the declarations left out.

This text is made of pieces, and the pieces are the expansions of the tokens (`pieced_scopeText`).
Here nothing is asked of the tokens: they may touch, and so may what they are replaced by. The
reason is that words do not touch in a source, and that a text takes over from the source that
nothing runs on into it. `Follows` states this, and it is kept by every step from the back: a token
that is kept or replaced, a declaration that is left out. -/

namespace YulPlus

open Text

/-! ### The text -/

/-- In the code that a source is lowered to, the text `s` stands for the source from offset `m` to
offset `n`: no edit reaches across one of the two, and those between them make `s`. -/
def LowersSlice (source : Text) (r : Lowered) (m n : Nat) (s : Text) : Prop :=
  ∃ tokens front inside back, tokenize source = .ok tokens ∧
    lowerTokens source tokens = .ok (r.interface, front ++ (inside ++ back)) ∧
    (∀ e ∈ front, e.stop ≤ m) ∧ (∀ e ∈ inside, m ≤ e.start ∧ e.stop ≤ n) ∧
    (∀ e ∈ back, n ≤ e.start) ∧
    s = Edit.applySlice m n inside source ∧
    r.code = Edit.applySlice 0 m front source ++
      (s ++ Edit.applySlice n source.length back source)

/-- The functions that are inserted behind the opening brace of a scope, if there are any. -/
def insertedText (source : Text) (parts : List Part) : Text :=
  if (scopeHelpers (boundIn source parts) (parts.map Part.item)).isEmpty then []
  else helperText source parts

/-- The source from the offset `o` up to the end of some parts of a scope, with some tokens replaced
and with the declarations left out. -/
def renderedParts (source : Text) (text? : Token → Option Text) (o : Nat) : List Part → Text
  | [] => []
  | .kept t _ :: parts =>
    slice source o t.start.offset ++ (text? t).getD t.text ++
      renderedParts source text? t.stop parts
  | .declared keyword tail _ :: parts =>
    slice source o keyword.start.offset ++
      renderedParts source text? (tail.getLastD keyword).stop parts

/-- What a scope becomes, from behind the inserted functions on. -/
def bodyText (source : Text) (opening : Token) (parts : List Part) (closing : Token) : Text :=
  renderedParts source (Token.replacement? (boundIn source parts).values) opening.stop parts ++
    (slice source (stopFrom opening.stop (parts.flatMap Part.tokens)) closing.start.offset ++
      closing.text)

/-- What a scope becomes. -/
def scopeText (source : Text) (opening : Token) (parts : List Part) (closing : Token) : Text :=
  opening.text ++ (insertedText source parts ++
    (renderedParts source (Token.replacement? (boundIn source parts).values) opening.stop parts ++
      (slice source (stopFrom opening.stop (parts.flatMap Part.tokens)) closing.start.offset ++
        closing.text)))

/-! ### Pieces in the place of the source -/

/-- The token is spelled in front of what stands behind it in the source. -/
def Token.EndsIn (source : Text) (t : Token) : Prop :=
  Spelling (.token t.kind t.value) t.text (source.drop t.stop)

/-- In front of every firm text, `u` consists of the pieces `ws`. -/
def Joins (u : Text) (ws : List (TokenKind × Text)) : Prop :=
  ∀ ⦃s : Text⦄ ⦃vs : List (TokenKind × Text)⦄, Firm s → Pieced s vs → Pieced (u ++ s) (ws ++ vs)

/-- A text in the place of the source behind the offset `o`: it consists of the pieces `ws`, and it
is firm if the source is. -/
structure Follows (source : Text) (o : Nat) (s : Text) (ws : List (TokenKind × Text)) : Prop where
  pieced : Pieced s ws
  firm : Firm (source.drop o) → Firm s

section

variable {source s u : Text} {tokens inner ts before after : List Token} {parts : List Part}
  {program : List Section} {opening closing t : Token} {o n : Nat} {es : List Edit}
  {ws vs : List (TokenKind × Text)} {wss : List (List (TokenKind × Text))}
  {values : List (Text × Text)} {meanings : List (Text × List (TokenKind × Text))}

/-! ### Making the edits of a scope -/

theorem applyFrom_helperEdits {functions : List Text} (ho : o ≤ t.stop)
    (hes : Edit.Within t.stop es n) :
    Edit.applyFrom o (source.drop o) (helperEdits t functions ++ es) =
      slice source o t.stop ++
        ((if functions.isEmpty then [] else '\n' :: joinWith ['\n'] functions ++ ['\n']) ++
          Edit.applyFrom t.stop (source.drop t.stop) es) := by
  unfold helperEdits
  split
  · exact Edit.applyFrom_drop_skip ho hes
  · rw [List.singleton_append, Edit.applyFrom_drop_cons ho le_rfl, List.append_assoc]

/-- The walk over the parts of a scope renders them. -/
theorem applyFrom_parts (hparts : Placed source o (parts.flatMap Part.tokens))
    (values : List (Text × Text)) :
    Edit.applyFrom o (source.drop o) (parts.filterMap (Part.change? values)) =
      renderedParts source (Token.replacement? values) o parts ++
        source.drop (stopFrom o (parts.flatMap Part.tokens)) := by
  induction parts generalizing o with
  | nil => rfl
  | cons p parts ih =>
    rw [List.flatMap_cons] at hparts ⊢
    obtain ⟨hp, hrest⟩ := Placed.append_iff.1 hparts
    have hwithin := within_parts hrest values
    have hwalk := ih hrest
    rw [filterMap_cons_eq, stopFrom_append]
    cases p with
    | kept t next =>
      obtain - | ⟨ht, -⟩ := hp
      show Edit.applyFrom o (source.drop o) ((t.edit? _).toList ++ _) = _
      rw [ht.applyFrom_eq hwithin, renderedParts]
      simpa [Part.tokens, stopFrom] using hwalk
    | declared keyword tail d =>
      have hle := Placed.start_le_stop hp
      obtain - | ⟨hkeyword, -⟩ := hp
      rw [Part.tokens, stopFrom_cons_eq] at hwalk ⊢
      show Edit.applyFrom o (source.drop o) (⟨_, _, []⟩ :: _) = _
      rw [Edit.applyFrom_drop_cons hkeyword.le_start hle, renderedParts, List.append_nil,
        List.append_assoc]
      exact congrArg _ hwalk

/-- **Making the edits of a scope** gives its text. -/
theorem applySlice_changes
    (hs : Placed source o (Section.scope opening parts closing).tokens) :
    Edit.applySlice opening.start.offset closing.stop
      ((Section.scope opening parts closing).changes source) source =
        scopeText source opening parts closing := by
  have hbetween := Section.between_changes hs
  obtain ⟨hopening, hparts, hclosing⟩ := Section.placed_scope_iff.1 hs
  have hopen := hopening.start_lt_stop
  have hclose := hclosing.start_lt_stop
  have hle := hparts.le_stopFrom
  have hstart := hclosing.le_start
  -- the walk up to the closing brace, and the same walk with the rest of the source behind it
  have hslice := Edit.applyFrom_drop_append (by omega) hclosing.stop_le
    (hbetween.mono (le_of_lt hopen) (le_of_lt hclose)) (List.forall_mem_nil _)
  have hend : source.drop (stopFrom opening.stop (parts.flatMap Part.tokens)) =
      slice source (stopFrom opening.stop (parts.flatMap Part.tokens)) closing.start.offset ++
        (closing.text ++ source.drop closing.stop) := by
    rw [← hclosing.slice_eq, slice_append_drop (le_of_lt hclose), slice_append_drop hstart]
  have hwalk : Edit.applyFrom opening.start.offset (source.drop opening.start.offset)
      ((Section.scope opening parts closing).changes source ++ []) =
        scopeText source opening parts closing ++ source.drop closing.stop := by
    rw [List.append_nil, Section.changes, applyFrom_helperEdits (le_of_lt hopen)
      (within_parts hparts _), applyFrom_parts hparts, hend, hopening.slice_eq, scopeText,
      insertedText, helperText]
    simp only [List.append_assoc]
  exact List.append_cancel_right (hslice.symm.trans hwalk)

/-- **What stands for a scope** in the lowered code. -/
theorem lowersSlice_scopeText {r : Lowered} (htokens : tokenize source = .ok tokens)
    (h : lower source = .ok r) (hscope : IsScopeOf tokens before opening parts closing after) :
    LowersSlice source r opening.start.offset closing.stop
      (scopeText source opening parts closing) := by
  obtain ⟨tokens', program, htokens', hprogram, -, hlower, -, hcode⟩ := exists_program_of_lower h
  obtain rfl : tokens = tokens' := Except.ok.inj (htokens.symm.trans htokens')
  obtain ⟨P, Q, rfl⟩ := List.append_of_mem (hprogram.mem_of_isScopeOf hscope)
  obtain ⟨hfront, hinside, hback⟩ := hprogram.between_changes htokens
  obtain ⟨-, -, -, -, hplaced, -⟩ := hprogram.exists_placed_scope htokens
  have hslice := applySlice_changes hplaced
  obtain ⟨hopening, hparts, hclosing⟩ := Section.placed_scope_iff.1 hplaced
  have hopen := hopening.start_lt_stop
  have hclose := hclosing.start_lt_stop
  have hle := hparts.le_stopFrom.trans hclosing.le_start
  have hinside := hinside.mono (le_of_lt hopen) (le_of_lt hclose)
  rw [List.flatMap_append, List.flatMap_cons] at hcode hlower
  refine ⟨tokens, _, _, _, htokens, hlower, fun e he ↦ (hfront.bounds e he).2.2, fun e he ↦ ?_,
    fun e he ↦ (hback.bounds e he).1, hslice.symm, ?_⟩
  · obtain ⟨hstart, -, hstop⟩ := hinside.bounds e he
    exact ⟨hstart, hstop⟩
  · rw [hcode, ← hslice]
    exact Edit.applyAll_slices (by omega) hclosing.stop_le hfront hinside hback

/-! ### One step backwards -/

/-- A word does not begin firmly. -/
theorem Spelling.not_firm {k : TokenKind} {v r : Text} (h : Spelling (.token k v) u r)
    (hword : k.isWordLike = true) (hstring : k ≠ .string) (s : Text) : ¬ Firm (u ++ s) := by
  intro hfirm
  cases h with
  | symbol hk => revert hword hk; cases k <;> decide
  | string => exact hstring rfl
  | hexNumber => exact absurd (firm_cons_iff.1 hfirm) (by decide)
  | number hne hdigits =>
    obtain ⟨d, u, rfl⟩ := List.exists_cons_of_ne_nil hne
    have hd := isIdentifierPart_of_isDigit (hdigits d (by simp))
    rw [firm_cons_iff.1 hfirm] at hd
    cases hd
  | word hc =>
    have hc := isIdentifierPart_of_isIdentifierStart hc
    rw [firm_cons_iff.1 hfirm] at hc
    cases hc
  | hash hframe =>
    rcases TokenKind.eq_of_ofFrame? hframe with ⟨rfl, -⟩ | ⟨rfl, -⟩
    · exact absurd (firm_cons_iff.1 hfirm) (by decide)
    · exact absurd (firm_cons_iff.1 hfirm) (by decide)

theorem TokenKind.ne_string {k : TokenKind} (h : k.isHash = true ∨ k.isDeclaration = true) :
    k ≠ .string := by
  revert h
  cases k <;> decide

theorem Token.StandsAfter.drop_eq (ht : t.StandsAfter source o) :
    source.drop o = slice source o t.start.offset ++ (t.text ++ source.drop t.stop) := by
  rw [← ht.slice_eq, slice_append_drop (le_of_lt ht.start_lt_stop), slice_append_drop ht.le_start]

/-- The gap in front of a token, and pieces in the place of the token and of what follows. -/
theorem Token.StandsAfter.follows (ht : t.StandsAfter source o) (hs : Pieced s ws)
    (hfirm : Firm (t.text ++ source.drop t.stop) → Firm s) :
    Follows source o (slice source o t.start.offset ++ s) ws := by
  refine ⟨ht.gap.pieced_append hs, fun h ↦ ?_⟩
  rw [ht.drop_eq] at h
  cases hgap : slice source o t.start.offset with
  | nil =>
    rw [hgap] at h
    exact hfirm h
  | cons c g =>
    rw [hgap] at h
    exact h.of_head? rfl

/-- A token that is kept. -/
theorem Follows.kept (ht : t.StandsAfter source o) (hend : t.EndsIn source)
    (h : Follows source t.stop s ws) :
    Follows source o (slice source o t.start.offset ++ (t.text ++ s)) (t.reading :: ws) := by
  refine ht.follows (.token hend.alone (fun hk ↦ .inl (h.firm (hend.firm hk))) h.pieced)
    fun hfirm ↦ ?_
  obtain ⟨c, u, hu⟩ := List.exists_cons_of_ne_nil hend.text_ne_nil
  rw [hu] at hfirm ⊢
  exact hfirm.of_head? rfl

/-- A name with a text in its place. -/
theorem Follows.name (ht : t.StandsAfter source o) (hend : t.EndsIn source)
    (hname : t.kind = .identifier) (hu : Joins u vs) (h : Follows source t.stop s ws) :
    Follows source o (slice source o t.start.offset ++ (u ++ s)) (vs ++ ws) := by
  have hruns : t.kind.runsOn = true := by rw [hname]; rfl
  refine ht.follows (hu (h.firm (hend.firm hruns)) h.pieced) fun hfirm ↦ ?_
  exact absurd hfirm (hend.not_firm (by rw [hname]; rfl) (by rw [hname]; decide) _)

/-- A hash literal with its hash in its place. -/
theorem Follows.hash {hash : Text} (ht : t.StandsAfter source o) (hend : t.EndsIn source)
    (hhash : t.hash? = some hash) (h : Follows source t.stop s ws) :
    Follows source o (slice source o t.start.offset ++ (hash ++ s)) ((.number, hash) :: ws) := by
  obtain ⟨digits, hdigits, hspell⟩ := exists_spelling_hash hhash
  have hkind := Token.isHash_of_hash?_eq hhash
  have hword := hend.not_firm (TokenKind.isWordLike_of_isHash hkind)
    (TokenKind.ne_string (.inl hkind))
  exact ht.follows (.token hspell (fun _ ↦ .inr ⟨digits, hdigits⟩) h.pieced) fun hfirm ↦
    absurd hfirm (hword _)

/-- Tokens that are left out, of which the first is the keyword of a declaration. -/
theorem Follows.deleted (ht : t.StandsAfter source o) (hend : t.EndsIn source)
    (hkeyword : t.kind.isDeclaration = true) (hs : Pieced s ws) :
    Follows source o (slice source o t.start.offset ++ s) ws := by
  have hword := hend.not_firm (TokenKind.isWordLike_of_isDeclaration hkeyword)
    (TokenKind.ne_string (.inr hkeyword))
  exact ht.follows hs fun hfirm ↦ absurd hfirm (hword _)

/-- **One token more**: the token itself or what stands for it, in front of more. -/
theorem Follows.token (ht : t.StandsAfter source o) (hend : t.EndsIn source)
    (hvalues : ValuesMean Joins values meanings) (h : Follows source t.stop s ws) :
    Follows source o
      (slice source o t.start.offset ++ (t.replacement? values).getD t.text ++ s)
      (t.expansion meanings ++ ws) := by
  rw [List.append_assoc]
  rcases hvalues.replacement?_cases t with ⟨u, hname, hu, hjoins⟩ | ⟨hash, hhash, hu, hmeans⟩ |
    ⟨-, hu, hself⟩
  · rw [hu]
    exact h.name ht hend hname hjoins
  · rw [hu, hmeans]
    exact h.hash ht hend hhash
  · rw [hu, hself]
    exact h.kept ht hend

/-- **Some tokens of a source**, with names and hashes replaced, in front of more. -/
theorem Follows.rendered (hts : Placed source o ts) (hends : ∀ t ∈ ts, t.EndsIn source)
    (hvalues : ValuesMean Joins values meanings) (h : Follows source (stopFrom o ts) s ws) :
    Follows source o (rendered source (Token.replacement? values) o ts ++ s)
      (ts.flatMap (Token.expansion meanings) ++ ws) := by
  induction hts with
  | nil => exact h
  | @cons o t ts ht _ ih =>
    rw [stopFrom_cons] at h
    have hrest := ih (fun u hu ↦ hends u (by simp [hu])) h
    have hall := hrest.token ht (hends t (by simp)) hvalues
    simpa [YulPlus.rendered] using hall

/-- **The tokens of a value** stand for the pieces that they mean. -/
theorem joins_rendered (hts : Placed source (startOf ts) ts) (hends : ∀ t ∈ ts, t.EndsIn source)
    (hvalues : ValuesMean Joins values meanings) :
    Joins (rendered source (Token.replacement? values) (startOf ts) ts)
      (ts.flatMap (Token.expansion meanings)) :=
  fun _ _ hs hpieced ↦ (Follows.rendered hts hends hvalues ⟨hpieced, fun _ ↦ hs⟩).pieced

/-- **The parts of a scope**, in front of more. -/
theorem Follows.body (hparts : Placed source o (parts.flatMap Part.tokens))
    (hends : ∀ t ∈ parts.flatMap Part.tokens, t.EndsIn source)
    (hkeyword : ∀ keyword tail d, .declared keyword tail d ∈ parts → d.Spells (keyword :: tail))
    (hvalues : ValuesMean Joins values meanings)
    (h : Follows source (stopFrom o (parts.flatMap Part.tokens)) s ws) :
    Follows source o (renderedParts source (Token.replacement? values) o parts ++ s)
      (parts.flatMap (Part.expansion meanings) ++ ws) := by
  induction parts generalizing o with
  | nil => exact h
  | cons p parts ih =>
    rw [List.flatMap_cons] at hparts hends h
    obtain ⟨hp, hrest⟩ := Placed.append_iff.1 hparts
    rw [stopFrom_append] at h
    have hmore := ih hrest (fun t ht ↦ hends t (List.mem_append_right _ ht))
      (fun keyword tail d hd ↦ hkeyword keyword tail d (by simp [hd])) h
    cases p with
    | kept t next =>
      obtain - | ⟨ht, -⟩ := hp
      have hmore : Follows source t.stop _ _ := hmore
      have hall := Follows.token ht (hends t (by simp [Part.tokens])) hvalues hmore
      simpa [renderedParts, Part.expansion, stopFrom, Part.tokens] using hall
    | declared keyword tail d =>
      obtain - | ⟨ht, -⟩ := hp
      have hpieced := hmore.pieced
      rw [Part.tokens, stopFrom_cons_eq] at hpieced
      have hall := Follows.deleted ht (hends keyword (by simp [Part.tokens]))
        (hkeyword keyword tail d (by simp)).isDeclaration hpieced
      simpa [renderedParts, Part.expansion] using hall

/-! ### The whole scope -/

/-- Every token of a source is spelled in front of what stands behind it. -/
theorem Tokenized.endsIn {p : Position} (h : Tokenized p s ts) (hs : source.drop p.offset = s) :
    ∀ t ∈ ts, t.kind ≠ .endOfText → t.EndsIn source := by
  induction h with
  | nil p =>
    intro t ht hkind
    obtain rfl := List.mem_singleton.1 ht
    exact absurd rfl hkind
  | @cons p l u r ts hu _ ih =>
    have hdrop := drop_of_drop_eq hs
    intro t ht hkind
    rcases List.mem_append.1 ht with ht | ht
    · cases l with
      | gap => cases ht
      | token k v =>
        obtain rfl := List.mem_singleton.1 ht
        show Spelling _ _ (source.drop (p.after u).offset)
        rw [Position.after_offset, hdrop, hu.text_eq rfl rfl]
        exact hu
    · exact ih (by rw [Position.after_offset, hdrop]) t ht hkind

/-- So it is for all but the closing token. -/
theorem Placed.endsIn (h : Placed source o ts) (htokens : tokenize source = .ok tokens)
    (hsub : ∀ t ∈ ts, t ∈ tokens) : ∀ t ∈ ts, t.EndsIn source := by
  intro t ht
  obtain ⟨a, -, hstands, -⟩ := h.exists_standsAfter ht
  obtain ⟨u, hu⟩ := hstands.spelling
  exact (tokenized_of_tokenizeFrom htokens).endsIn rfl t (hsub t ht) hu.kind_ne_endOfText

/-- The value of a constant of a scope. -/
theorem IsBody.value_of_mem {name : Text} {value : List Token}
    (h : IsBody closing inner parts) (hinner : Placed source o inner)
    (hmem : .const name value ∈ declarationsOf parts) :
    Placed source (startOf value) value ∧ (∀ t ∈ value, t ∈ inner) ∧ IsExpression value := by
  obtain ⟨front, ds, back, rfl, hspells⟩ := h.exists_append_of_mem hmem
  have hds := (Placed.append_iff.1 (Placed.append_iff.1 hinner).2).1
  cases hspells with
  | const _ _ _ hexpression =>
    obtain - | ⟨-, - | ⟨-, - | ⟨-, hvalue⟩⟩⟩ := hds
    exact ⟨hvalue.from_start, fun t ht ↦ by simp [ht], hexpression⟩

/-- The names of a scope stand for the pieces that they mean. -/
theorem IsBody.joins_valuesOf (h : IsBody closing inner parts) (hinner : Placed source o inner)
    (hends : ∀ t ∈ inner, t.EndsIn source) :
    ValuesMean Joins (boundIn source parts).values (meaningsOf (declarationsOf parts)) := by
  refine valuesMean_valuesOf (fun n s vs hs hpieced ↦ ?_) fun name value hmem values meanings ↦ ?_
  · have hspell : Spelling (.token .number (decimal n)) (decimal n) [] :=
      .number Nat.toDigits_ne_nil (fun _ ↦ isDigit_of_mem_decimal) (by simp)
    exact .token hspell (fun _ ↦ .inl hs) hpieced
  · obtain ⟨hvalue, hsub, -⟩ := h.value_of_mem hinner hmem
    exact joins_rendered hvalue fun t ht ↦ hends t (hsub t ht)

theorem scopeText_eq : scopeText source opening parts closing =
    opening.text ++ (insertedText source parts ++ bodyText source opening parts closing) :=
  rfl

/-- A token that nothing runs on from, in front of pieces. -/
theorem Token.StandsAfter.pieced_append (ht : t.StandsAfter source o)
    (hkind : t.kind.runsOn = false) (hs : Pieced s ws) :
    Pieced (t.text ++ s) (t.reading :: ws) := by
  obtain ⟨r, hr⟩ := ht.spelling
  exact .token hr.alone (fun hk ↦ by rw [hkind] at hk; cases hk) hs

/-- **The text of a scope behind the inserted functions is made of pieces**, and they are the
expansions of its tokens. -/
theorem pieced_bodyText (hbody : IsBody closing inner parts)
    (hs : Placed source o (Section.scope opening parts closing).tokens)
    (hends : ∀ t ∈ inner, t.EndsIn source) (hclose : closing.kind = .closeBrace) :
    Pieced (bodyText source opening parts closing)
      (parts.flatMap (Part.expansion (meaningsOf (declarationsOf parts))) ++
        [closing.reading]) := by
  obtain ⟨-, hparts, hclosing⟩ := Section.placed_scope_iff.1 hs
  have hlast := hclosing.pieced_append (by rw [hclose]; rfl) .nil
  rw [List.append_nil] at hlast
  have hends' : ∀ t ∈ parts.flatMap Part.tokens, t.EndsIn source := by
    rwa [hbody.tokens_eq]
  -- the closing brace is firm, whatever stands in front of it
  have hfirm : Firm closing.text := by
    obtain ⟨r, hr⟩ := hclosing.spelling
    exact (hr.soft (by rw [hclose]; rfl)).firm
  exact (Follows.body hparts hends' (fun _ _ _ hd ↦ hbody.spells_of_mem hd)
    (hbody.joins_valuesOf (hbody.placed_inner hs) hends)
    (hclosing.follows hlast fun _ ↦ hfirm)).pieced

/-- **The text of a scope is made of pieces**: the opening brace, those of the inserted functions,
and the expansions of its tokens. -/
theorem pieced_scopeText (hbody : IsBody closing inner parts)
    (hs : Placed source o (Section.scope opening parts closing).tokens)
    (hends : ∀ t ∈ inner, t.EndsIn source) (hopen : opening.kind = .openBrace)
    (hclose : closing.kind = .closeBrace)
    (hfunctions : List.Forall₂ Lexes (scopeHelpers (boundIn source parts) (parts.map Part.item))
      wss) :
    Pieced (scopeText source opening parts closing)
      (opening.reading :: (wss.flatten ++
        (parts.flatMap (Part.expansion (meaningsOf (declarationsOf parts))) ++
          [closing.reading]))) := by
  have hpieced := pieced_bodyText hbody hs hends hclose
  obtain ⟨hopening, -, -⟩ := Section.placed_scope_iff.1 hs
  refine hopening.pieced_append (by rw [hopen]; rfl) ?_
  show Pieced (insertedText source parts ++ bodyText source opening parts closing) _
  unfold insertedText
  split
  · rename_i hnone
    rw [List.isEmpty_iff.1 hnone] at hfunctions
    obtain - | - := hfunctions
    exact hpieced
  · rw [helperText, List.append_assoc]
    exact .gap (u := ['\n']) (.layout (by decide)) (pieced_joinWith hfunctions hpieced)

/-! ### The scopes of a source that is lowered -/

/-- **A scope of a source that is lowered**: its parts, and where its tokens stand. -/
theorem exists_parts_of_lower {r : Lowered} (htokens : tokenize source = .ok tokens)
    (h : lower source = .ok r) (heq : tokens = before ++ opening :: (inner ++ closing :: after))
    (hscope : IsScope (Segment.usesObjects tokens) before opening inner closing after) :
    ∃ parts o, IsBody closing inner parts ∧ (namesOf parts).Nodup ∧
      Placed source o (Section.scope opening parts closing).tokens ∧
      Placed source opening.stop inner ∧ ∀ t ∈ inner, t.EndsIn source := by
  obtain ⟨tokens', program, htokens', -, -, hprogram, -⟩ := lower_eq_ok_iff.1 h
  obtain rfl : tokens = tokens' := Except.ok.inj (htokens.symm.trans htokens')
  obtain ⟨parts, hbody, hmem⟩ := hprogram.exists_isBody heq hscope
  obtain ⟨P, Q, rfl⟩ := List.append_of_mem hmem
  obtain ⟨-, -, -, -, hnodup⟩ := hprogram.isScope
  obtain ⟨-, -, -, -, hplaced, -⟩ := hprogram.exists_placed_scope htokens
  have hinner := hbody.placed_inner hplaced
  exact ⟨parts, _, hbody, hnodup, hplaced, hinner,
    hinner.endsIn htokens fun t ht ↦ by simp [heq, ht]⟩

end

end YulPlus
