import YulPlus.Artifact.Synthesis
import YulPlus.Proofs.Lowering.Eliminated

/-!
# The interface of a lowered source

The interface of a source, the hashes in its code and the ABI that is made from the interface belong
together (`lower_lists`). The interface lists every different hash literal of the source once, in
the order in which they appear first, with what its signature parses to. The hash of an entry is
what stands for the literal in the code, wherever the literal occurs (`Shown`): an edit puts it
there, or it stands in the value of a constant, which is put where the constant is used. And a
fragment of the ABI is what stands between the quotes of a literal, so its signature can be parsed
again and has the hash of the entry.

That an interface lists the literals of the tokens that it has taken in is kept by every step of the
pass (`Interface.Lists.add`). A literal is known by the characters that it is written with. Those of
a function and those of an event differ, so the two lists do not mix. -/

namespace YulPlus

open Text

/-- The different texts that `f` gives for the tokens of a kind, in order of first appearance. -/
def distinctOf (kind : TokenKind) (f : Token → Text) (tokens : List Token) : List Text :=
  ((tokens.filter (·.kind = kind)).map f).eraseDups

/-- The characters of the source that a token stands for. -/
def Token.raw (source : Text) (t : Token) : Text :=
  slice source t.start.offset t.stop

/-- The entries of an interface for one kind of hash literal. -/
def Interface.entries (interface : Interface) : TokenKind → List HashLiteral
  | .selector => interface.functions
  | .topic => interface.events
  | _ => []

/-- The entries are, literal by literal, those of the different literals among some tokens. -/
def Interface.Lists (interface : Interface) (seen : List Token) : Prop :=
  ∀ kind, kind.isHash = true →
    (interface.entries kind).map HashLiteral.source = distinctOf kind Token.text seen

/-- In the code of a source with these tokens, to which these edits are made, `hash` stands for the
hash literal `t`. -/
inductive Shown (source : Text) (tokens : List Token) (edits : List Edit) (t : Token)
    (hash : Text) : Prop
  /-- The literal itself is replaced. -/
  | replaced (hedit : ⟨t.start.offset, t.stop, hash⟩ ∈ edits)
  /-- The literal stands in the expression of a constant. The name of the constant stands for the
  expression with the hash in the place of the literal, and its uses are replaced by this. -/
  | inConstant {before after value : List Token} {o c keyword : Token} {tail : List Token}
      {front back parts : List Part} {name : Text} {text? : Token → Option Text}
      (hscope : IsScopeOf tokens before o parts c after)
      (hparts : parts = front ++ .declared keyword tail (.const name value) :: back)
      (ht : t ∈ value) (hhash : text? t = some hash)
      (htext : text? = Token.replacement? (valuesOf source (declarationsOf front)))
      (hvalue : (boundIn source parts).value? name =
        some (rendered source text? (startOf value) value))
      (huses : ∀ u next, .kept u next ∈ parts → u.kind = .identifier → u.value = name →
        ⟨u.start.offset, u.stop, rendered source text? (startOf value) value⟩ ∈ edits)

section

variable {source : Text} {interface interface' : Interface} {kind : TokenKind} {t u : Token}
  {tokens seen : List Token} {f g : Token → Text} {l : HashLiteral}

/-! ### Distinct texts -/

theorem mem_distinctOf {x : Text} :
    x ∈ distinctOf kind f tokens ↔ ∃ t ∈ tokens, t.kind = kind ∧ f t = x := by
  simp [distinctOf, and_assoc]

theorem distinctOf_congr (h : ∀ t ∈ tokens, t.kind = kind → f t = g t) :
    distinctOf kind f tokens = distinctOf kind g tokens := by
  refine congrArg List.eraseDups (List.map_congr_left fun t ht ↦ ?_)
  obtain ⟨ht, hkind⟩ := List.mem_filter.1 ht
  exact h t ht (of_decide_eq_true hkind)

theorem distinctOf_append_of_ne (h : t.kind ≠ kind) :
    distinctOf kind f (seen ++ [t]) = distinctOf kind f seen := by
  simp [distinctOf, List.filter_append, h]

/-- A text that is known already is not listed again. -/
theorem distinctOf_append_of_mem (h : t.kind = kind) (hmem : f t ∈ distinctOf kind f seen) :
    distinctOf kind f (seen ++ [t]) = distinctOf kind f seen := by
  rw [distinctOf, List.mem_eraseDups] at hmem
  rw [distinctOf, List.filter_append, List.map_append, List.eraseDups_append]
  simp only [h, List.filter_cons, decide_true, if_true, List.filter_nil, List.map_cons,
    List.map_nil, List.removeAll, List.elem_eq_mem, hmem, Bool.not_true, Bool.false_eq_true,
    if_false, List.eraseDups_nil, List.append_nil]
  rfl

/-- A new text becomes the last one. -/
theorem distinctOf_append_of_notMem (h : t.kind = kind) (hmem : f t ∉ distinctOf kind f seen) :
    distinctOf kind f (seen ++ [t]) = distinctOf kind f seen ++ [f t] := by
  rw [distinctOf, List.mem_eraseDups] at hmem
  rw [distinctOf, List.filter_append, List.map_append, List.eraseDups_append]
  simp [h, List.removeAll, hmem, distinctOf, List.eraseDups_cons]

/-- Texts that determine each other are listed alike. -/
theorem map_distinctOf {r : Text → Text} (hr : ∀ t, t.kind = kind → r (f t) = g t)
    (hinj : ∀ t u, t.kind = kind → u.kind = kind → g t = g u → f t = f u) :
    (distinctOf kind f tokens).map r = distinctOf kind g tokens := by
  induction tokens using List.reverseRecOn with
  | nil => rfl
  | append_singleton tokens t ih =>
    by_cases hkind : t.kind = kind
    · by_cases hmem : f t ∈ distinctOf kind f tokens
      · obtain ⟨u, hu, hukind, heq⟩ := mem_distinctOf.1 hmem
        have hmem' : g t ∈ distinctOf kind g tokens :=
          mem_distinctOf.2 ⟨u, hu, hukind, by rw [← hr u hukind, heq, hr t hkind]⟩
        rw [distinctOf_append_of_mem hkind hmem, distinctOf_append_of_mem hkind hmem', ih]
      · have hmem' : g t ∉ distinctOf kind g tokens := by
          intro h
          obtain ⟨u, hu, hukind, heq⟩ := mem_distinctOf.1 h
          exact hmem (mem_distinctOf.2 ⟨u, hu, hukind, hinj u t hukind hkind heq⟩)
        rw [distinctOf_append_of_notMem hkind hmem, distinctOf_append_of_notMem hkind hmem',
          List.map_append, ih, List.map_singleton, hr t hkind]
    · rw [distinctOf_append_of_ne hkind, distinctOf_append_of_ne hkind, ih]

/-! ### The pass over the tokens -/

namespace Interface

theorem mem_entries (h : l ∈ interface.entries kind) :
    l ∈ interface.functions ++ interface.events := by
  cases kind <;> simp_all [entries]

/-- A literal is known if it is among the texts that are listed for its kind. -/
theorem Lists.find?_isSome_iff (hinv : interface.Lists seen) (ht : t.kind.isHash = true) :
    (interface.find? t.text).isSome ↔ t.text ∈ distinctOf t.kind Token.text seen := by
  rw [Interface.find?_isSome_iff, ← hinv _ ht]
  constructor
  · rintro ⟨l, hl, hsource⟩
    -- the literal is in one of the lists, and its characters say in which
    obtain ⟨kind, hkind, hl⟩ : ∃ kind, kind.isHash = true ∧ l ∈ interface.entries kind := by
      rcases List.mem_append.1 hl with hl | hl
      · exact ⟨.selector, rfl, hl⟩
      · exact ⟨.topic, rfl, hl⟩
    have hlisted : l.source ∈ distinctOf kind Token.text seen := by
      rw [← hinv kind hkind]
      exact List.mem_map_of_mem hl
    obtain ⟨u, -, rfl, hu⟩ := mem_distinctOf.1 hlisted
    obtain ⟨heq, -⟩ := Token.eq_of_text_eq ht hkind (hsource.symm.trans hu.symm)
    exact hsource ▸ List.mem_map_of_mem (heq ▸ hl)
  · intro h
    obtain ⟨l, hl, hsource⟩ := List.mem_map.1 h
    exact ⟨l, mem_entries hl, hsource⟩

theorem Lists.empty : Lists {} [] := by
  intro kind _
  cases kind <;> rfl

/-- **What one step keeps.** -/
theorem Lists.add (hinv : interface.Lists seen) (h : interface.add t = .ok interface') :
    interface'.Lists (seen ++ [t]) := by
  intro kind hkind
  rcases add_eq_ok h with ⟨hknown, rfl⟩ | ⟨l, hl, hnew, hcases⟩
  · rw [hinv kind hkind]
    by_cases ht : t.kind = kind
    · obtain rfl := ht
      rw [distinctOf_append_of_mem rfl ((hinv.find?_isSome_iff hkind).1 (hknown hkind))]
    · rw [distinctOf_append_of_ne ht]
  · have hentries : interface'.entries kind =
        interface.entries kind ++ if t.kind = kind then [l] else [] := by
      rcases hcases with ⟨ht, rfl⟩ | ⟨ht, rfl⟩ <;> cases kind <;> simp_all [entries]
    have hnotMem : t.text ∉ distinctOf t.kind Token.text seen := by
      rw [← hinv.find?_isSome_iff hl.isHash, hnew]
      simp
    rw [hentries, List.map_append, hinv kind hkind]
    split
    · rename_i ht
      obtain rfl := ht
      rw [distinctOf_append_of_notMem rfl hnotMem, List.map_singleton, hl.source_eq]
    · rename_i ht
      rw [distinctOf_append_of_ne ht, List.map_nil, List.append_nil]

/-- **What the whole pass keeps.** -/
theorem Lists.of_ofTokens (h : ofTokens tokens = .ok interface) : interface.Lists tokens := by
  suffices ∀ {first : Interface} {seen}, first.Lists seen →
      tokens.foldlM Interface.add first = .ok interface → interface.Lists (seen ++ tokens) from
    this Lists.empty h
  clear h
  induction tokens with
  | nil =>
    rintro first seen hinv h
    cases h
    simpa using hinv
  | cons t tokens ih =>
    intro first seen hinv h
    rw [List.foldlM_cons] at h
    obtain ⟨next, hadd, h⟩ := bind_eq_ok_iff.1 h
    simpa using ih (hinv.add hadd) h

/-- An entry is that of a literal of its kind. -/
theorem exists_hasEntry (h : ofTokens tokens = .ok interface) (kind : TokenKind)
    (hkind : kind.isHash = true) (hl : l ∈ interface.entries kind) :
    ∃ t ∈ tokens, t.kind = kind ∧ t.HasEntry l := by
  obtain ⟨t, ht, hentry⟩ := (Collects.of_ofTokens h).entry l (mem_entries hl)
  have hlisted : l.source ∈ distinctOf kind Token.text tokens := by
    rw [← Lists.of_ofTokens h kind hkind]
    exact List.mem_map_of_mem hl
  obtain ⟨u, -, rfl, hu⟩ := mem_distinctOf.1 hlisted
  obtain ⟨heq, -⟩ := Token.eq_of_text_eq hentry.isHash hkind (hentry.source_eq.symm.trans hu.symm)
  exact ⟨t, ht, heq, hentry⟩

/-- A literal has an entry among those of its kind. -/
theorem exists_mem_entries (h : ofTokens tokens = .ok interface) (ht : t ∈ tokens)
    (hhash : t.kind.isHash = true) : ∃ l ∈ interface.entries t.kind, t.HasEntry l := by
  have hlisted : t.text ∈ (interface.entries t.kind).map HashLiteral.source := by
    rw [Lists.of_ofTokens h _ hhash]
    exact mem_distinctOf.2 ⟨t, ht, rfl, rfl⟩
  obtain ⟨l, hl, hsource⟩ := List.mem_map.1 hlisted
  obtain ⟨u, -, -, hentry⟩ := exists_hasEntry h _ hhash hl
  exact ⟨l, hl, hentry.of_text_eq hhash (hsource.symm.trans hentry.source_eq)⟩

/-! ### Fragments of the ABI -/

theorem abiFragment_frame (word value : Text) :
    abiFragment (word.length + 1) (word ++ '"' :: value ++ ['"']) = value := by
  rw [abiFragment, List.dropLast_concat, ← List.drop_drop, List.drop_left, List.drop_one,
    List.tail_cons]

theorem abiFragment_selector (ht : t.kind = .selector) : abiFragment 4 t.text = t.value := by
  rw [Token.text, ht]
  exact abiFragment_frame "sig".toList t.value

theorem abiFragment_topic (ht : t.kind = .topic) : abiFragment 6 t.text = t.value := by
  rw [Token.text, ht]
  exact abiFragment_frame "topic".toList t.value

/-- **The ABI** lists what stands between the quotes of the different literals. -/
theorem Lists.abi_eq (h : interface.Lists tokens) : interface.abi =
    distinctOf .selector Token.value tokens ++ distinctOf .topic Token.value tokens := by
  have hinj : ∀ {kind : TokenKind} (t u : Token), t.kind = kind → u.kind = kind →
      t.value = u.value → t.text = u.text := by
    intro kind t u ht hu hvalue
    rw [Token.text, Token.text, ht, hu, hvalue]
  rw [Interface.abi, abiOfLiterals]
  congr 1
  · rw [show interface.functions.map (·.source) = _ from h .selector rfl]
    exact map_distinctOf (fun t ↦ abiFragment_selector) hinj
  · rw [show interface.events.map (·.source) = _ from h .topic rfl]
    exact map_distinctOf (fun t ↦ abiFragment_topic) hinj

end Interface

/-! ### Where the hashes are put -/

section

variable {program : List Section} {parts front back : List Part} {inner value : List Token}
  {opening closing keyword : Token} {tail : List Token} {name : Text} {edits : List Edit}

/-- A name with one value has this value. -/
theorem Bindings.value?_of_mem {values : List (Text × Text)} {structs : List Struct} {x : Text}
    (hnodup : (values.map Prod.fst).Nodup) (h : (name, x) ∈ values) :
    Bindings.value? ⟨values, structs⟩ name = some x := by
  rw [Bindings.value?]
  cases hfind : values.find? fun entry ↦ entry.1 = name with
  | none => simpa using List.find?_eq_none.1 hfind _ h
  | some entry =>
    have hname : entry.1 = name := by simpa using List.find?_some hfind
    obtain rfl := List.inj_on_of_nodup_map hnodup (List.mem_of_find?_eq_some hfind) h hname
    rfl

/-- The values of names are not changed by more declarations. -/
theorem mem_valuesOf_append {ds ds' : List Declaration} {e : Text × Text}
    (h : e ∈ valuesOf source ds) : e ∈ valuesOf source (ds ++ ds') := by
  induction ds' using List.reverseRecOn with
  | nil => rwa [List.append_nil]
  | append_singleton ds' d ih =>
    rw [← List.append_assoc, valuesOf, List.foldl_append]
    exact List.mem_append_left _ ih

/-- **The value of a constant** is its expression, with the names that are bound before replaced. -/
theorem value?_const (hnodup : (namesOf (front ++ .declared keyword tail (.const name value) ::
    back)).Nodup) : (boundIn source (front ++ .declared keyword tail (.const name value) ::
      back)).value? name = some (rendered source
        (Token.replacement? (valuesOf source (declarationsOf front))) (startOf value) value) := by
  refine Bindings.value?_of_mem ?_ ?_
  · rw [map_fst_valuesOf]
    exact nodup_boundNames hnodup
  · have hds : declarationsOf (front ++ .declared keyword tail (.const name value) :: back) =
        (declarationsOf front ++ [.const name value]) ++ declarationsOf back := by
      simp [declarationsOf, Part.declaration?]
    rw [hds]
    refine mem_valuesOf_append ?_
    rw [valuesOf, List.foldl_append]
    exact List.mem_append_right _ (List.mem_singleton.2 rfl)

/-- Between the parentheses of an enum or a struct there is no hash literal. -/
theorem CommaList.isHash_eq_false {α : Type} {R : List Token → α → Prop} {as : List α}
    {units : List (List Token)} {ts : List Token} (h : CommaList units ts)
    (hunits : List.Forall₂ R units as)
    (hR : ∀ unit a, R unit a → ∀ u ∈ unit, u.kind.isHash = false) :
    ∀ u ∈ ts, u.kind.isHash = false := by
  refine h.forall_mem (fun u hu ↦ by rw [hu]; rfl) fun unit hunit ↦ ?_
  obtain ⟨a, -, ha⟩ := exists_mem_of_mem_left hunits hunit
  exact hR unit a ha

/-- A hash literal in a declaration stands in the expression of a constant. -/
theorem Declaration.Spells.exists_const {d : Declaration} {ds : List Token} (h : d.Spells ds)
    (ht : t ∈ ds) (hhash : t.kind.isHash = true) :
    ∃ name value, d = .const name value ∧ t ∈ value := by
  cases h with
  | enum hkeyword hname hopening hts hunits hclosing =>
    have hmembers := hts.isHash_eq_false hunits fun unit a ha u hu ↦ by
      cases ha with
      | mk hk => simp_all [TokenKind.isHash]
    grind [TokenKind.isHash]
  | const hkeyword hname hassign =>
    exact ⟨_, _, rfl, by grind [TokenKind.isHash]⟩
  | struct hkeyword hname hopening hts hunits hnodup hclosing =>
    have hfields := hts.isHash_eq_false hunits fun unit a ha u hu ↦ by
      cases ha with
      | mk => grind [TokenKind.isHash]
    grind [TokenKind.isHash]

/-- **Where the hash of a literal is put**, in a program whose changes are made. -/
theorem IsProgram.shown {hash : Text} (h : IsProgram tokens program) (ht : t ∈ tokens)
    (hhash : t.hash? = some hash) :
    Shown source tokens (program.flatMap (Section.changes source)) t hash := by
  have hkind := Token.isHash_of_hash?_eq hhash
  have hreplacement : ∀ values, Token.replacement? values t = some hash := by
    intro values
    rw [Token.replacement?, if_neg (fun hk ↦ by simp [hk, TokenKind.isHash] at hkind), hhash]
  rw [← h.tokensOf_eq] at ht
  obtain ⟨s, hs, hts⟩ := List.mem_flatMap.1 ht
  clear ht
  obtain ⟨p₁, p₂, rfl⟩ := List.append_of_mem hs
  have hedits : ∀ e, e ∈ s.changes source →
      e ∈ (p₁ ++ s :: p₂).flatMap (Section.changes source) :=
    fun e he ↦ List.mem_flatMap.2 ⟨s, hs, he⟩
  cases s with
  | outside u =>
    obtain rfl := List.mem_singleton.1 hts
    exact .replaced (hedits _ (Option.mem_toList.2 (mem_edit?_iff.2 ⟨hash, hhash, rfl⟩)))
  | scope opening parts closing =>
    obtain ⟨inner, heq, hscope, hbody, hnodup⟩ := h.isScope
    have hchange : ∀ p ∈ parts, ∀ e, p.change? (boundIn source parts).values = some e →
        e ∈ (p₁ ++ .scope opening parts closing :: p₂).flatMap (Section.changes source) :=
      fun p hp e he ↦ hedits e (List.mem_append_right _ (List.mem_filterMap.2 ⟨p, hp, he⟩))
    obtain ⟨p, hp, ht⟩ : ∃ p ∈ parts, t ∈ p.tokens := by
      have hopening := hscope.1.opening
      have hclosing := hscope.1.closing
      simp only [Section.tokens, List.mem_cons, List.mem_append, List.mem_flatMap,
        List.not_mem_nil, or_false] at hts
      rcases hts with rfl | hts | rfl
      · simp [hopening, TokenKind.isHash] at hkind
      · exact hts
      · simp [hclosing, TokenKind.isHash] at hkind
    cases p with
    | kept u next =>
      obtain rfl := List.mem_singleton.1 ht
      exact .replaced (hchange _ hp _ (mem_edit?_iff.2 ⟨hash, hreplacement _, rfl⟩))
    | declared keyword tail d =>
      obtain ⟨name, value, rfl, htvalue⟩ := (hbody.spells_of_mem hp).exists_const ht hkind
      obtain ⟨front, back, rfl⟩ := List.append_of_mem hp
      have hvalue := @value?_const source _ _ _ _ _ _ hnodup
      refine .inConstant h.isScopeOf rfl htvalue (hreplacement _) rfl hvalue
        fun u next hu hname huname ↦ hchange _ hu _ (mem_edit?_iff.2 ⟨_, ?_, rfl⟩)
      rw [Token.replacement?, if_pos hname, huname]
      exact hvalue

/-- **The interface, the code and the ABI agree.** The interface lists every different hash literal
once, in order of first appearance. A literal of the source has an entry of its kind with what its
signature parses to, and the hash of the entry is what stands in the code for the literal. The ABI
lists what stands between the quotes, functions first, and the signature in a fragment is that of
the entry. -/
theorem lower_lists {r : Lowered} (h : lower source = .ok r) :
    ∃ tokens edits, tokenize source = .ok tokens ∧
      lowerTokens source tokens = .ok (r.interface, edits) ∧
      edits.Pairwise (fun e f ↦ e.stop ≤ f.start ∧ e.stop < f.stop) ∧
      Edit.Spliced 0 edits source r.code ∧
      r.interface.functions.map HashLiteral.source =
        distinctOf .selector (Token.raw source) tokens ∧
      r.interface.events.map HashLiteral.source = distinctOf .topic (Token.raw source) tokens ∧
      (∀ t ∈ tokens, t.kind.isHash = true → ∃ l ∈ r.interface.entries t.kind,
        l.source = t.raw source ∧ t.HasEntry l ∧ Shown source tokens edits t l.hash) ∧
      r.interface.abi =
        distinctOf .selector Token.value tokens ++ distinctOf .topic Token.value tokens ∧
      (∀ l ∈ r.interface.functions, ∃ s,
        Signature.parse Signature.functionKind (abiFragment 4 l.source) = .ok s ∧
          l = ⟨l.source, s.name, s.canonical, s.selector⟩) ∧
      ∀ l ∈ r.interface.events, ∃ s,
        Signature.parse Signature.eventKind (abiFragment 6 l.source) = .ok s ∧
          l = ⟨l.source, s.name, s.canonical, s.topic⟩ := by
  obtain ⟨tokens, program, htokens, hprogram, hinterface, hlower, hwithin, hcode⟩ :=
    exists_program_of_lower h
  have hlists := Interface.Lists.of_ofTokens hinterface
  have hraw : ∀ t ∈ tokens, t.kind.isHash = true → t.text = t.raw source := by
    intro t ht hhash
    obtain ⟨front, last, rfl, hplaced, hlast⟩ := exists_placed_of_tokenize htokens
    rcases List.mem_append.1 ht with ht | ht
    · obtain ⟨o, -, hstands, -⟩ := hplaced.exists_standsAfter ht
      exact hstands.slice_eq.symm
    · rw [List.mem_singleton.1 ht, hlast.kind_eq] at hhash
      cases hhash
  have hsource : ∀ kind : TokenKind, kind.isHash = true →
      (r.interface.entries kind).map HashLiteral.source =
        distinctOf kind (Token.raw source) tokens := by
    intro kind hkind
    rw [hlists kind hkind]
    exact distinctOf_congr fun t ht htkind ↦ hraw t ht (by rwa [htkind])
  refine ⟨tokens, _, htokens, hlower, hwithin.pairwise, ?_, hsource .selector rfl,
    hsource .topic rfl, fun t ht hhash ↦ ?_, hlists.abi_eq, fun l hl ↦ ?_, fun l hl ↦ ?_⟩
  · rw [hcode]
    exact Edit.spliced_applyFrom hwithin (by simp)
  · obtain ⟨l, hl, hentry⟩ := Interface.exists_mem_entries hinterface ht hhash
    exact ⟨l, hl, by rw [hentry.source_eq, hraw t ht hhash], hentry,
      hprogram.shown ht hentry.hash?_eq⟩
  · obtain ⟨t, -, ht, hentry⟩ := Interface.exists_hasEntry hinterface .selector rfl hl
    cases hentry with
    | selector _ hs => exact ⟨_, by rwa [Interface.abiFragment_selector ht], rfl⟩
    | topic ht' => simp [ht] at ht'
  · obtain ⟨t, -, ht, hentry⟩ := Interface.exists_hasEntry hinterface .topic rfl hl
    cases hentry with
    | selector ht' => simp [ht] at ht'
    | topic _ hs => exact ⟨_, by rwa [Interface.abiFragment_topic ht], rfl⟩

/-- A literal that is used in a constant and once again, and one outside of the scopes. -/
theorem lower_lists_again :
    ∃ r tokens edits l,
      lower "object code \x7b const c := sig\"f()\" h(c, sig\"f()\") \x7d topic\"E()\"".toList =
          .ok r ∧
      r.interface.functions = [l] ∧ l.source = "sig\"f()\"".toList ∧ l.signature = "f()".toList ∧
      r.interface.abi = ["f()".toList, "E()".toList] ∧
      (tokens.filter (·.kind = .selector)).length = 2 ∧
      ∀ t ∈ tokens, t.kind = .selector →
        Shown "object code \x7b const c := sig\"f()\" h(c, sig\"f()\") \x7d topic\"E()\"".toList
          tokens edits t l.hash := by
  have haccepted : (lower
      "object code \x7b const c := sig\"f()\" h(c, sig\"f()\") \x7d topic\"E()\"".toList).map
        (fun r ↦ (r.interface.functions.map fun l ↦ (l.source, l.signature), r.interface.abi)) =
      .ok ([("sig\"f()\"".toList, "f()".toList)], ["f()".toList, "E()".toList]) := by
    decide +kernel
  have hliterals : (tokenize
      "object code \x7b const c := sig\"f()\" h(c, sig\"f()\") \x7d topic\"E()\"".toList).map
        (fun tokens ↦ (tokens.filter (·.kind = .selector)).length) = .ok 2 := by decide +kernel
  obtain ⟨r, hlower, hr⟩ := exists_of_map_eq_ok haccepted
  obtain ⟨hfunctions, habi⟩ := Prod.mk.inj hr
  obtain ⟨l, hl, hfields⟩ := List.map_eq_singleton_iff.1 hfunctions
  obtain ⟨hsource, hsignature⟩ := Prod.mk.inj hfields
  obtain ⟨tokens, edits, htokens, -, -, -, -, -, hshown, -⟩ := lower_lists hlower
  rw [htokens] at hliterals
  refine ⟨r, tokens, edits, l, hlower, hl, hsource, hsignature, habi, Except.ok.inj hliterals,
    fun t ht hkind ↦ ?_⟩
  obtain ⟨l', hl', -, -, hshown⟩ := hshown t ht (by rw [hkind]; rfl)
  rw [hkind, Interface.entries, hl, List.mem_singleton] at hl'
  exact hl' ▸ hshown

end

end

end YulPlus
