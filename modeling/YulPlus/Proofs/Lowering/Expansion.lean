import YulPlus.Proofs.Lowering.Changes
import YulPlus.Proofs.Lowering.Meaning

/-!
# The tokens of the lowered code

Lowering changes characters, and yet what it does can be said of tokens alone. `Section.Expands`
says what the tokens of a section become; if the tokens of the source are spaced, then the lowered
code can be read, and its tokens are the expansion of those of the source (`tokenize_lower`).

The proof goes backwards along the program. `Lowers source o ts es ws` says that making the edits
`es` behind the offset `o`, where the tokens `ts` stand, gives a text that reads as `ws`. A token, a
part of a scope, an opening brace with the functions behind it and at last a whole section may be
put in front; behind the last section there is only the end of the source.
-/

namespace YulPlus

open Text

instance : DecidablePred Spaced := fun tokens ↦
  inferInstanceAs (Decidable (tokens.IsChain _))

/-- The readings that a part of a scope becomes: declarations are dropped. -/
def Part.expansion (meanings : List (Text × List (TokenKind × Text))) :
    Part → List (TokenKind × Text)
  | kept t _ => t.expansion meanings
  | declared _ _ _ => []

/-- The readings that a section becomes. Outside of the scopes no name is bound; in a scope the
functions that it needs stand right behind the opening brace. -/
inductive Section.Expands (source : Text) : Section → List (TokenKind × Text) → Prop
  | outside {t : Token} : Expands source (.outside t) (t.expansion [])
  | scope {opening closing : Token} {parts : List Part} {wss : List (List (TokenKind × Text))}
      (hfunctions : List.Forall₂ Lexes
        (scopeHelpers (boundIn source parts) (parts.map Part.item)) wss) :
      Expands source (.scope opening parts closing)
        (opening.reading :: (wss.flatten ++
          (parts.flatMap (Part.expansion (meaningsOf (declarationsOf parts))) ++
            [closing.reading])))

/-- With the edits `es` made, the source behind `o`, where the tokens `ts` stand, reads as `ws`. -/
structure Lowers (source : Text) (o : Nat) (ts : List Token) (es : List Edit)
    (ws : List (TokenKind × Text)) : Prop where
  within : ∃ n, Edit.Within o es n
  behind : Behind o ts (Edit.applyFrom o (source.drop o) es) ws

section

variable {source : Text} {tokens : List Token} {program : List Section} {parts : List Part}
  {inner ts us : List Token} {t : Token} {o : Nat} {es : List Edit}
  {ws vs : List (TokenKind × Text)} {wss : List (List (TokenKind × Text))}
  {values : List (Text × Text)} {meanings : List (Text × List (TokenKind × Text))}

/-! ### The declarations of a scope -/

/-- A declaration of a body and its place among the tokens. -/
theorem IsBody.exists_append_of_mem {closing : Token} {d : Declaration}
    (h : IsBody closing inner parts) (hd : d ∈ declarationsOf parts) :
    ∃ front ds back, inner = front ++ (ds ++ back) ∧ d.Spells ds := by
  obtain ⟨p, hp, hpd⟩ := List.mem_filterMap.1 hd
  obtain ⟨parts₁, parts₂, rfl⟩ := List.append_of_mem hp
  cases p with
  | kept => cases hpd
  | declared keyword tail d' =>
    obtain rfl : d' = d := Option.some.inj hpd
    have heq : inner = parts₁.flatMap Part.tokens ++
        ((keyword :: tail) ++ parts₂.flatMap Part.tokens) := by
      rw [← h.tokens_eq, List.flatMap_append, List.flatMap_cons]
      rfl
    exact ⟨_, _, _, heq, h.spells_of_mem hp⟩

/-- The constants of a spaced body. -/
theorem IsBody.isSpaced {closing : Token} (h : IsBody closing inner parts)
    (hinner : Placed source o inner) (hspaced : Spaced inner) :
    ∀ d ∈ declarationsOf parts, d.IsSpaced source := by
  intro d hd
  obtain ⟨front, ds, back, rfl, hspells⟩ := h.exists_append_of_mem hd
  have hds := (Placed.append_iff.1 (Placed.append_iff.1 hinner).2).1
  have hspaced : Spaced ds := hspaced.right_of_append.left_of_append
  cases hspells with
  | const =>
    obtain - | ⟨-, - | ⟨-, - | ⟨-, hvalue⟩⟩⟩ := hds
    exact ⟨hvalue.from_start, hspaced.tail.tail.tail⟩
  | _ => trivial

/-- An identifier of a source is a name. -/
theorem Placed.isName (h : Placed source o ts) (ht : t ∈ ts) (hname : t.kind = .identifier) :
    IsName t.value := by
  obtain ⟨front, back, rfl⟩ := List.append_of_mem ht
  obtain - | ⟨hstands, -⟩ := (Placed.append_iff.1 h).2
  obtain ⟨r, hr⟩ := hstands.spelling
  have htext : t.text = t.value := by rw [Token.text, hname]; rfl
  rw [hname, htext] at hr
  exact ⟨r, hr⟩

/-- The structs of a body, by the names of themselves and of their fields. -/
theorem IsBody.hasNames {closing : Token} (h : IsBody closing inner parts)
    (hinner : Placed source o inner) : ∀ s ∈ (boundIn source parts).structs, s.HasNames := by
  intro s hs
  obtain ⟨d, hd, hds⟩ := List.mem_filterMap.1 hs
  obtain ⟨front, ds, back, rfl, hspells⟩ := h.exists_append_of_mem hd
  have hplaced := (Placed.append_iff.1 (Placed.append_iff.1 hinner).2).1
  cases hspells with
  | @struct keyword name opening closing units fields ts _ hname _ hts hunits =>
    obtain rfl := Option.some.inj hds
    refine ⟨hplaced.isName (by simp) hname, fun field hfield ↦ ?_⟩
    obtain ⟨unit, hunit, hfield⟩ := exists_mem_of_mem_right hunits hfield
    cases hfield with
    | @mk fieldName _ _ _ hfieldName =>
      have hmem := hts.mem_of_mem hunit (show fieldName ∈ [fieldName, _, _] by simp)
      exact hplaced.isName (by simp [hmem]) hfieldName
  | _ => cases hds

/-! ### One step backwards -/

/-- A token, which may have an edit. -/
theorem Lowers.token (text? : Token → Option Text) (ht : t.StandsAfter source o)
    (hspaced : Spaced (t :: ts)) (hrenders : t.Renders (text? t) vs)
    (h : Lowers source t.stop ts es ws) :
    Lowers source o (t :: ts) ((t.edit? text?).toList ++ es) (vs ++ ws) := by
  obtain ⟨n, hes⟩ := h.within
  refine ⟨⟨n, (within_token ht text?).append hes⟩, ?_⟩
  rw [ht.applyFrom_eq hes]
  exact .token ht hspaced hrenders h.behind

/-- A token that is kept. -/
theorem Lowers.kept (ht : t.StandsAfter source o) (hspaced : Spaced (t :: ts))
    (h : Lowers source t.stop ts es ws) : Lowers source o (t :: ts) es (t.reading :: ws) :=
  Lowers.token (fun _ ↦ none) ht hspaced rfl h

/-- Functions on lines of their own may be inserted anywhere. -/
theorem Behind.inserted {functions : List Text} {s : Text}
    (hfunctions : List.Forall₂ Lexes functions wss) (h : Behind o ts s ws) :
    Behind o ts ('\n' :: joinWith ['\n'] functions ++ ['\n'] ++ s) (wss.flatten ++ ws) := by
  have hlines := lexes_joinWith hfunctions h.lexes
  refine ⟨?_, fun _ ↦ soft_cons_iff.2 (by decide)⟩
  rw [List.append_assoc]
  exact .cons (.layout (by decide)) hlines

/-- An opening brace, with the functions that are inserted behind it. -/
theorem Lowers.opening {functions : List Text} (ht : t.StandsAfter source o)
    (hsymbol : t.kind.isWordLike = false) (hspaced : Spaced (t :: ts))
    (hfunctions : List.Forall₂ Lexes functions wss) (h : Lowers source t.stop ts es ws) :
    Lowers source o (t :: ts) (helperEdits t functions ++ es)
      (t.reading :: (wss.flatten ++ ws)) := by
  obtain ⟨n, hes⟩ := h.within
  have hstart := ht.le_start
  have hstop := ht.start_lt_stop
  -- without functions there is no edit, and the brace is kept like any token
  by_cases hnil : functions = []
  · subst hnil
    obtain - | - := hfunctions
    exact h.kept ht hspaced
  · have hedits : helperEdits t functions =
        [⟨t.stop, t.stop, '\n' :: joinWith ['\n'] functions ++ ['\n']⟩] :=
      if_neg (by simpa using hnil)
    have hle : o ≤ t.stop := by omega
    rw [hedits]
    refine ⟨⟨n, .cons hle le_rfl (by show o < t.stop; omega) hes⟩, ?_⟩
    rw [List.singleton_append, Edit.applyFrom_drop_cons hle le_rfl, List.append_assoc,
      ← slice_append_slice hstart (le_of_lt hstop), ht.slice_eq]
    exact .symbol ht hsymbol (h.behind.inserted hfunctions)

/-- A part of a scope. -/
theorem Lowers.part {p : Part} (hp : Placed source o p.tokens) (hspaced : Spaced (p.tokens ++ us))
    (hkeyword : ∀ keyword tail d, p = .declared keyword tail d → d.Spells (keyword :: tail))
    (hvalues : ValuesMean Reads values meanings)
    (h : Lowers source (stopFrom o p.tokens) us es ws) :
    Lowers source o (p.tokens ++ us) ((p.change? values).toList ++ es)
      (p.expansion meanings ++ ws) := by
  cases p with
  | kept t next =>
    obtain - | ⟨ht, -⟩ := hp
    exact .token _ ht hspaced (Token.renders_replacement? hvalues) h
  | declared keyword tail d =>
    have hwithin := within_part hp values
    have hle := Placed.start_le_stop hp
    obtain - | ⟨ht, -⟩ := hp
    obtain ⟨n, hes⟩ := h.within
    refine ⟨⟨n, hwithin.append hes⟩, ?_⟩
    have hword : keyword.kind.isWordLike = true :=
      TokenKind.isWordLike_of_isDeclaration (hkeyword _ _ _ rfl).isDeclaration
    have hbehind := h.behind
    rw [Part.tokens, stopFrom_cons_eq] at hbehind
    show Behind o (keyword :: (tail ++ us)) (Edit.applyFrom o (source.drop o) (⟨_, _, []⟩ :: es)) ws
    rw [Edit.applyFrom_drop_cons ht.le_start hle, List.append_nil]
    exact .deleted ht hword hbehind

/-- All parts of a scope. -/
theorem Lowers.body (hparts : Placed source o (parts.flatMap Part.tokens))
    (hspaced : Spaced (parts.flatMap Part.tokens ++ us))
    (hkeyword : ∀ keyword tail d, .declared keyword tail d ∈ parts → d.Spells (keyword :: tail))
    (hvalues : ValuesMean Reads values meanings)
    (h : Lowers source (stopFrom o (parts.flatMap Part.tokens)) us es ws) :
    Lowers source o (parts.flatMap Part.tokens ++ us)
      (parts.filterMap (Part.change? values) ++ es)
      (parts.flatMap (Part.expansion meanings) ++ ws) := by
  induction parts generalizing o with
  | nil => exact h
  | cons p parts ih =>
    rw [List.flatMap_cons] at hparts hspaced h ⊢
    obtain ⟨hp, hrest⟩ := Placed.append_iff.1 hparts
    rw [List.append_assoc] at hspaced ⊢
    rw [stopFrom_append] at h
    have hlower := ih hrest hspaced.right_of_append
      (fun keyword tail d hd ↦ hkeyword keyword tail d (by simp [hd])) h
    have hpart := Lowers.part hp hspaced
      (fun keyword tail d hd ↦ hkeyword keyword tail d (by simp [hd])) hvalues hlower
    rw [filterMap_cons_eq, List.flatMap_cons, List.append_assoc, List.append_assoc]
    exact hpart

/-- A scope. -/
theorem Lowers.scope {opening closing : Token} (hbody : IsBody closing inner parts)
    (hopening : opening.kind = .openBrace)
    (hs : Placed source o (Section.scope opening parts closing).tokens)
    (hspaced : Spaced ((Section.scope opening parts closing).tokens ++ us))
    (hfunctions : List.Forall₂ Lexes (scopeHelpers (boundIn source parts) (parts.map Part.item))
      wss)
    (h : Lowers source (stopFrom o (Section.scope opening parts closing).tokens) us es ws) :
    Lowers source o ((Section.scope opening parts closing).tokens ++ us)
      ((Section.scope opening parts closing).changes source ++ es)
      (opening.reading :: (wss.flatten ++
        (parts.flatMap (Part.expansion (meaningsOf (declarationsOf parts))) ++
          [closing.reading])) ++ ws) := by
  obtain ⟨hstands, hparts, hstop⟩ := Section.placed_scope_iff.1 hs
  have hinner := hbody.placed_inner hs
  simp only [Section.tokens, Section.changes, List.cons_append, List.append_assoc,
    List.nil_append] at hspaced h ⊢
  rw [stopFrom_cons, stopFrom_append] at h
  have hspaced' := (List.isChain_cons.1 hspaced).2
  have hinside : Spaced inner := by
    rw [← hbody.tokens_eq]
    exact hspaced'.left_of_append
  have hvalues : ValuesMean Reads (boundIn source parts).values
      (meaningsOf (declarationsOf parts)) :=
    reads_valuesOf (hbody.isSpaced hinner hinside)
  have hclose := Lowers.kept hstop hspaced'.right_of_append h
  have hall := Lowers.body hparts hspaced' (fun _ _ _ hd ↦ hbody.spells_of_mem hd) hvalues hclose
  exact .opening hstands (by rw [hopening]; rfl) hspaced hfunctions hall

/-- A token outside of the scopes. -/
theorem Lowers.outside (ht : t.StandsAfter source o) (hspaced : Spaced (t :: us))
    (h : Lowers source t.stop us es ws) :
    Lowers source o (t :: us) ((Section.outside t).changes source ++ es)
      (t.expansion [] ++ ws) := by
  have hrenders : t.Renders t.hash? (t.expansion []) := by
    rw [← t.replacement?_nil]
    exact Token.renders_replacement? .nil
  exact .token Token.hash? ht hspaced hrenders h

/-! ### The whole program -/

/-- The functions that are inserted into a scope can be read. -/
theorem IsBody.exists_lexes {closing : Token} (h : IsBody closing inner parts)
    (hinner : Placed source o inner) :
    ∃ wss, List.Forall₂ Lexes (scopeHelpers (boundIn source parts) (parts.map Part.item)) wss := by
  refine exists_forall₂ fun f hf ↦ ?_
  obtain ⟨ws, hws, -⟩ := exists_lexes_of_mem_scopeHelpers (h.hasNames hinner) hf
  exact ⟨ws, hws⟩

/-- **Sections in front of what can be read already.** -/
theorem Lowers.sections (hformed : ∀ s ∈ program, s.WellFormed)
    (hplaced : Placed source o (Section.tokensOf program))
    (hspaced : Spaced (Section.tokensOf program ++ us))
    (h : Lowers source (stopFrom o (Section.tokensOf program)) us es ws) :
    ∃ wss, List.Forall₂ (Section.Expands source) program wss ∧
      Lowers source o (Section.tokensOf program ++ us)
        (program.flatMap (Section.changes source) ++ es) (wss.flatten ++ ws) := by
  induction program generalizing o with
  | nil => exact ⟨[], .nil, h⟩
  | cons s program ih =>
    have hcons : Section.tokensOf (s :: program) = s.tokens ++ Section.tokensOf program := rfl
    rw [hcons] at hplaced hspaced h ⊢
    obtain ⟨hs, hrest⟩ := Placed.append_iff.1 hplaced
    rw [List.append_assoc] at hspaced ⊢
    rw [stopFrom_append] at h
    obtain ⟨hfirst, hformed⟩ := List.forall_mem_cons.1 hformed
    obtain ⟨wss, hwss, hlower⟩ := ih hformed hrest hspaced.right_of_append h
    rw [List.flatMap_cons, List.append_assoc]
    cases s with
    | outside t =>
      obtain - | ⟨ht, -⟩ := hs
      refine ⟨t.expansion [] :: wss, .cons .outside hwss, ?_⟩
      rw [List.flatten_cons, List.append_assoc]
      exact .outside ht hspaced hlower
    | scope opening parts closing =>
      obtain ⟨hopening, -, inner, hbody⟩ := hfirst
      obtain ⟨fss, hfunctions⟩ := hbody.exists_lexes (hbody.placed_inner hs)
      refine ⟨_ :: wss, .cons (.scope hfunctions) hwss, ?_⟩
      rw [List.flatten_cons, List.append_assoc]
      exact .scope hbody hopening hs hspaced hfunctions hlower

/-- Behind the last section there is nothing to read. -/
theorem Token.Closes.lowers (h : t.Closes source o) : Lowers source o [t] [] [] :=
  ⟨⟨o, .nil le_rfl⟩, h.lexes, fun _ ↦ h.lexes.soft_of_nil⟩

/-- **Lowering commutes with reading tokens.** If no two words of a source touch, then the code that
it is lowered to can be read, and its tokens are those of the source with every section expanded. -/
theorem tokenize_lower {r : Lowered} (htokens : tokenize source = .ok tokens)
    (hspaced : Spaced tokens) (h : lower source = .ok r) :
    ∃ program wss out, IsProgram tokens program ∧
      List.Forall₂ (Section.Expands source) program wss ∧
      tokenize r.code = .ok out ∧ out.map Token.reading = wss.flatten := by
  obtain ⟨tokens', program, htokens', hprogram, -, -, -, hcode⟩ := exists_program_of_lower h
  obtain rfl : tokens = tokens' := Except.ok.inj (htokens.symm.trans htokens')
  obtain ⟨sections, last, rfl, hplaced, hlast⟩ := hprogram.exists_placed htokens
  have heq : Section.tokensOf sections ++ [last] = tokens := by
    rw [← hprogram.tokensOf_eq, Section.tokensOf, Section.tokensOf, List.flatMap_append]
    rfl
  have hformed : ∀ s ∈ sections, s.WellFormed := fun s hs ↦ hprogram.wellFormed (by simp [hs])
  -- from the end of the source backwards
  obtain ⟨wss, hwss, hlower⟩ := Lowers.sections hformed hplaced (heq.symm ▸ hspaced) hlast.lowers
  have hhash : last.hash? = none := by rw [Token.hash?, hlast.kind_eq]
  have hlex : Lexes r.code wss.flatten := by
    have hchanges : (sections ++ [Section.outside last]).flatMap (Section.changes source) =
        sections.flatMap (Section.changes source) := by
      simp [Section.changes, Token.edit?, hhash]
    have := hlower.behind.lexes
    rw [List.append_nil, List.append_nil] at this
    rw [hcode, hchanges]
    exact this
  obtain ⟨out, hout, hreadings⟩ := exists_tokenizeFrom_iff.2 hlex
  refine ⟨_, wss ++ [[endReading]], out, hprogram, List.rel_append hwss (.cons ?_ .nil), hout, ?_⟩
  · have hend : last.expansion [] = [endReading] := by
      simp [Token.expansion, hlast.kind_eq, hhash, Token.reading, hlast.value_eq, endReading]
    exact hend ▸ .outside
  · rw [hreadings, List.flatten_append]
    rfl

/-- Declarations that touch their neighbours, and a comment inside of a constant. -/
theorem tokenize_lower_touching :
    ∃ tokens program wss,
      tokenize "\x7benum A(x,y)const k := f(A.y/**/) g(k)\x7d".toList = .ok tokens ∧
      Spaced tokens ∧ IsProgram tokens program ∧
      List.Forall₂ (Section.Expands "\x7benum A(x,y)const k := f(A.y/**/) g(k)\x7d".toList) program
        wss ∧
      wss.flatten.map Prod.snd =
        ["\x7b", "g", "(", "f", "(", "1", ")", ")", "\x7d", ""].map String.toList := by
  have hspaced : (tokenize "\x7benum A(x,y)const k := f(A.y/**/) g(k)\x7d".toList).toOption.any
      (fun tokens ↦ decide (Spaced tokens)) = true := by decide +kernel
  have hlower : lower "\x7benum A(x,y)const k := f(A.y/**/) g(k)\x7d".toList =
      .ok ⟨"\x7b g(f(1/**/))\x7d".toList, {}⟩ := by decide +kernel
  have hcode : (tokenize "\x7b g(f(1/**/))\x7d".toList).toOption.map (·.map Token.value) =
      some (["\x7b", "g", "(", "f", "(", "1", ")", ")", "\x7d", ""].map String.toList) := by
    decide +kernel
  cases htokens : tokenize "\x7benum A(x,y)const k := f(A.y/**/) g(k)\x7d".toList with
  | error e =>
    rw [htokens] at hspaced
    cases hspaced
  | ok tokens =>
    rw [htokens] at hspaced
    have hspaced : Spaced tokens := of_decide_eq_true hspaced
    obtain ⟨program, wss, out, hprogram, hwss, hout, hreadings⟩ :=
      tokenize_lower htokens hspaced hlower
    refine ⟨tokens, program, wss, rfl, hspaced, hprogram, hwss, ?_⟩
    rw [hout] at hcode
    rw [← hreadings, List.map_map]
    exact Option.some.inj hcode

end

end YulPlus
