import YulPlus.Proofs.Lowering.Assembled
import YulPlus.Proofs.Lowering.Language
import YulPlus.Proofs.Source.Plain

/-!
# The lowered code is plain Yul

Lowering is to leave nothing of the extensions behind: the lowered code should be read by the same
lexer, as tokens of plain Yul. For every source that is accepted this is decided by the places where
the edits end. Texts are put in with nothing around them, and two of them can run on into what
follows: a hash, if a word is right behind the literal, and the value of a constant that is one of
the words `sig` and `topic`, if a string is right behind its name. These edits make the code
`Glues`, and the lowered code reads plainly exactly if there are none (`lower_readsPlainly_iff`). In
a source that is `Loose` there are none, but no source has to be loose (`lower_glues_hash`).

As for the expansion of a source, the proof goes from the back. `Resumes` says of the text behind an
offset that it reads plainly exactly if some condition holds; here the condition collects the seams
between what is put in and what follows. Inside of the value of a constant no seam is at fault,
since the tokens of an expression are kept apart by parentheses and commas
(`IsExpression.fits`). -/

namespace YulPlus

open Text

/-- Can a token of this kind be replaced? Names and hash literals can. -/
def TokenKind.isReplaceable (k : TokenKind) : Bool :=
  k = identifier || k.isHash

/-- One of the edits puts a text in front of one that it runs on into. -/
inductive Glues (source : Text) : List Edit → Prop
  | here {e : Edit} {es : List Edit}
      (h : Clashes e.text (Edit.applyFrom e.stop (source.drop e.stop) es)) : Glues source (e :: es)
  | later {e : Edit} {es : List Edit} (h : Glues source es) : Glues source (e :: es)

/-- In front of firm pieces, `u` is the pieces `ws`, which are of plain Yul, and reads plainly if it
does not run on. -/
structure Fits (u : Text) (ws : List (TokenKind × Text)) : Prop where
  joins : Joins u ws
  plain : ∀ x ∈ ws, x.1.isPlain = true
  reads_iff : ∀ {s vs}, Firm s → Pieced s vs → (∀ x ∈ vs, x.1.isPlain = true) →
    (ReadsPlainly (u ++ s) ↔ ReadsPlainly s ∧ ¬ Clashes u s)

/-- A text in the place of the source behind the offset `o`. It is made of pieces of plain Yul, it
begins as the source does if this begins firmly, and it reads plainly if the condition holds. -/
structure Resumes (source : Text) (o : Nat) (s : Text) (good : Prop) : Prop where
  pieced : ∃ ws, Pieced s ws ∧ ∀ x ∈ ws, x.1.isPlain = true
  head : Firm (source.drop o) → s.head? = (source.drop o).head?
  reads_iff : ReadsPlainly s ↔ good

/-- What can be replaced among the tokens is followed by layout, a symbol or the end. -/
def Loose (source : Text) (ts : List Token) : Prop :=
  ∀ t ∈ ts, t.kind.isReplaceable = true → Soft (source.drop t.stop)

/-- With the edits `es` made, the source behind `o` reads plainly if nothing is glued. These are the
edits of the tokens `ts`, and nothing is glued if the tokens are loose. -/
structure Emits (source : Text) (o : Nat) (ts : List Token) (es : List Edit) : Prop where
  within : ∃ n, Edit.Within o es n
  resumes : Resumes source o (Edit.applyFrom o (source.drop o) es) (¬ Glues source es)
  not_glues : Loose source ts → ¬ Glues source es

section

variable {source s u : Text} {t : Token} {ts us inner tokens : List Token} {parts : List Part}
  {program : List Section} {opening closing : Token} {o stop : Nat} {es : List Edit} {good : Prop}
  {k : TokenKind} {v r : Text} {functions : List Text}
  {ws : List (TokenKind × Text)} {R : Text → List (TokenKind × Text) → Prop}
  {values : List (Text × Text)} {meanings : List (Text × List (TokenKind × Text))}

/-! ### What stands for a token -/

/-- A token of plain Yul. -/
theorem Spelling.fits (hu : Spelling (.token k v) u r) (hk : k.isPlain = true) :
    Fits u [(k, v)] where
  joins _ _ hs hpieced := .token hu.alone (fun _ ↦ .inl hs) hpieced
  plain := by simpa using hk
  reads_iff hs hpieced _ := hpieced.readsPlainly_token_iff hu hk hs

/-- **What stands for a token** fits in front of what is firm. -/
theorem Token.fits (hvalues : ValuesMean Fits values meanings) (hend : t.EndsIn source)
    (hplain : t.hash? = none → t.kind.isPlain = true) :
    Fits ((t.replacement? values).getD t.text) (t.expansion meanings) := by
  rcases hvalues.replacement?_cases t with ⟨u, -, hu, hfits⟩ | ⟨hash, hhash, hu, hmeans⟩ |
    ⟨hnone, hu, hmeans⟩
  · rw [hu]
    exact hfits
  · obtain ⟨-, -, hspell⟩ := exists_spelling_hash hhash
    rw [hu, hmeans]
    exact hspell.fits rfl
  · rw [hu, hmeans]
    exact Spelling.fits hend (hplain hnone)

theorem ValuesMean.joins (h : ValuesMean Fits values meanings) :
    ValuesMean Joins values meanings :=
  h.imp fun _ _ hem ↦ ⟨hem.1, hem.2.joins⟩

/-! ### One step backwards -/

/-- A gap and a text in the place of a token and of what follows it begin like the source. -/
theorem Token.StandsAfter.head?_eq (ht : t.StandsAfter source o)
    (hu : Firm (t.text ++ source.drop t.stop) → u.head? = (t.text ++ source.drop t.stop).head?)
    (hfirm : Firm (source.drop o)) :
    (slice source o t.start.offset ++ u).head? = (source.drop o).head? := by
  rw [ht.drop_eq] at hfirm ⊢
  cases hgap : slice source o t.start.offset with
  | nil =>
    rw [hgap] at hfirm
    exact hu hfirm
  | cons c g => rfl

theorem Token.EndsIn.head?_append (hend : t.EndsIn source) (s : Text) :
    (t.text ++ s).head? = (t.text ++ source.drop t.stop).head? := by
  obtain ⟨c, u, hu⟩ := List.exists_cons_of_ne_nil hend.text_ne_nil
  rw [hu]
  rfl

theorem Token.isReplaceable_of_replacement? (hu : t.replacement? values = some u) :
    t.kind.isReplaceable = true := by
  unfold replacement? at hu
  split at hu
  · rename_i hname
    simp [TokenKind.isReplaceable, hname]
  · simp [TokenKind.isReplaceable, isHash_of_hash?_eq hu]

theorem TokenKind.isWordLike_of_isReplaceable (h : k.isReplaceable = true) :
    k.isWordLike = true ∧ k ≠ .string := by
  revert h
  cases k <;> decide

theorem Resumes.firm (h : Resumes source o s good) (hs : Firm (source.drop o)) : Firm s :=
  hs.of_head? (h.head hs)

/-- **One token more**: the token itself or what stands for it, in front of more. -/
theorem Resumes.token (ht : t.StandsAfter source o) (hend : t.EndsIn source)
    (hplain : t.hash? = none → t.kind.isPlain = true) (hvalues : ValuesMean Fits values meanings)
    (h : Resumes source t.stop s good) :
    Resumes source o (slice source o t.start.offset ++ (t.replacement? values).getD t.text ++ s)
      (good ∧ ∀ u ∈ t.replacement? values, ¬ Clashes u s) := by
  obtain ⟨ws, hpieced, hws⟩ := h.pieced
  have hfits := t.fits hvalues hend hplain
  have hfollows := Follows.token ht hend hvalues.joins ⟨hpieced, h.firm⟩
  refine ⟨⟨_, hfollows.pieced, fun x hx ↦ (List.mem_append.1 hx).elim (hfits.plain x) (hws x)⟩,
    ?_, ?_⟩
  · rw [List.append_assoc]
    refine ht.head?_eq fun hfirm ↦ ?_
    cases hu : t.replacement? values with
    | none => exact hend.head?_append s
    | some u =>
      obtain ⟨hword, hstring⟩ :=
        TokenKind.isWordLike_of_isReplaceable (Token.isReplaceable_of_replacement? hu)
      exact absurd hfirm (Spelling.not_firm hend hword hstring _)
  · rw [List.append_assoc, ht.gap.readsPlainly_iff, ← h.reads_iff]
    rcases hvalues.replacement?_cases t with ⟨u, hname, hu, hmeans⟩ | ⟨hash, hhash, hu, -⟩ |
      ⟨hnone, hu, -⟩
    · have hfirm := h.firm (Spelling.firm hend (by rw [hname]; rfl))
      simpa [hu] using hmeans.reads_iff hfirm hpieced hws
    · obtain ⟨digits, rfl, hne, hdigits⟩ := exists_digits_hash hhash
      simpa [hu] using hpieced.readsPlainly_hex_iff hws hne hdigits
    · have hspell := Spelling.of_head?_of_runsOn hend (fun hk ↦ h.head (Spelling.firm hend hk))
        hpieced.head?_ne_equals
      simpa [hu] using hspell.readsPlainly_token_iff (hplain hnone)

/-- Tokens that are left out, of which the first is the keyword of a declaration. -/
theorem Resumes.deleted (ht : t.StandsAfter source o) (hend : t.EndsIn source)
    (hkeyword : t.kind.isDeclaration = true) (h : Resumes source stop s good) :
    Resumes source o (slice source o t.start.offset ++ s) good := by
  obtain ⟨ws, hpieced, hws⟩ := h.pieced
  refine ⟨⟨ws, ht.gap.pieced_append hpieced, hws⟩, ht.head?_eq fun hfirm ↦ absurd hfirm ?_,
    ht.gap.readsPlainly_iff.trans h.reads_iff⟩
  exact Spelling.not_firm hend (TokenKind.isWordLike_of_isDeclaration hkeyword)
    (TokenKind.ne_string (.inr hkeyword)) _

/-- A symbol in front of pieces, whatever these begin with. -/
theorem Resumes.symbol (ht : t.StandsAfter source o) (hend : t.EndsIn source)
    (hsymbol : t.kind.isSymbol = true) (hs : Pieced s ws) (hws : ∀ x ∈ ws, x.1.isPlain = true) :
    Resumes source o (slice source o t.start.offset ++ (t.text ++ s)) (ReadsPlainly s) := by
  have hruns := TokenKind.runsOn_of_isSymbol hsymbol
  have hplain := TokenKind.isPlain_of_isSymbol hsymbol
  have hspell := Spelling.of_head?_of_runsOn hend (fun hk ↦ by rw [hruns] at hk; cases hk)
    hs.head?_ne_equals
  refine ⟨⟨_, ht.gap.pieced_append (ht.pieced_append hruns hs), ?_⟩,
    ht.head?_eq fun _ ↦ hend.head?_append s,
    ht.gap.readsPlainly_iff.trans (hspell.readsPlainly_token_iff hplain)⟩
  simp only [List.mem_cons, forall_eq_or_imp]
  exact ⟨hplain, hws⟩

/-- What is inserted behind an opening brace, in front of pieces. -/
theorem Resumes.inserted (hs : Pieced s ws) (hws : ∀ x ∈ ws, x.1.isPlain = true)
    (hfunctions : ∀ f ∈ functions, ReadsPlainly f) :
    (∃ vs, Pieced ((if functions.isEmpty then [] else
      '\n' :: joinWith ['\n'] functions ++ ['\n']) ++ s) vs ∧ ∀ x ∈ vs, x.1.isPlain = true) ∧
    (ReadsPlainly ((if functions.isEmpty then [] else
      '\n' :: joinWith ['\n'] functions ++ ['\n']) ++ s) ↔ ReadsPlainly s) := by
  split
  · exact ⟨⟨ws, hs, hws⟩, Iff.rfl⟩
  · rw [List.append_assoc]
    obtain ⟨wss, hwss⟩ := exists_forall₂ hfunctions
    have hfeed : Gap ['\n'] := .layout (by decide) .nil
    refine ⟨⟨wss.flatten ++ ws, hfeed.pieced_append
      (pieced_joinWith (hwss.imp fun _ _ h ↦ h.1) hs), fun x hx ↦ ?_⟩,
      hfeed.readsPlainly_iff.trans (readsPlainly_joinWith hfunctions)⟩
    rcases List.mem_append.1 hx with hx | hx
    · obtain ⟨fs, hfs, hx⟩ := List.mem_flatten.1 hx
      obtain ⟨f, -, -, hplain⟩ := exists_mem_of_mem_right hwss hfs
      exact hplain x hx
    · exact hws x hx

/-! ### The values of names -/

/-- What stands behind a loose token is soft, whatever is put there. -/
theorem Resumes.not_clashes (h : Resumes source t.stop s good)
    (hloose : t.kind.isReplaceable = true → Soft (source.drop t.stop)) :
    ∀ u ∈ t.replacement? values, ¬ Clashes u s := by
  intro u hu
  have hs := hloose (Token.isReplaceable_of_replacement? hu)
  refine Soft.not_clashes ?_
  rw [Soft, h.head hs.firm]
  exact hs

/-- **Loose tokens**, in front of more: no seam is at fault. -/
theorem Resumes.rendered (hts : Placed source o ts) (hends : ∀ t ∈ ts, t.EndsIn source)
    (hplain : ∀ t ∈ ts, t.hash? = none → t.kind.isPlain = true)
    (hloose : Loose source ts) (hvalues : ValuesMean Fits values meanings)
    (h : Resumes source (stopFrom o ts) s good) :
    Resumes source o (rendered source (Token.replacement? values) o ts ++ s) good := by
  induction hts with
  | nil => exact h
  | @cons o t ts ht _ ih =>
    rw [stopFrom_cons] at h
    have hrest := ih (fun u hu ↦ hends u (by simp [hu])) (fun u hu ↦ hplain u (by simp [hu]))
      (fun u hu ↦ hloose u (by simp [hu])) h
    have hall := hrest.token ht (hends t (by simp)) (hplain t (by simp)) hvalues
    rw [and_iff_left (hrest.not_clashes (hloose t (by simp)))] at hall
    simpa [YulPlus.rendered] using hall

/-- In front of a symbol the source is soft. -/
theorem Token.StandsAfter.soft_drop (ht : t.StandsAfter source o)
    (hsymbol : t.kind.isWordLike = false) : Soft (source.drop o) := by
  obtain ⟨r, hr⟩ := ht.spelling
  rw [ht.drop_eq]
  cases hgap : slice source o t.start.offset with
  | nil => exact (hr.soft hsymbol).append hr.text_ne_nil _
  | cons c g => exact (hgap ▸ ht.gap.soft).append (List.cons_ne_nil c g) _

/-- Of two tokens next to each other in an expression one is a symbol. -/
def Apart (t u : Token) : Prop :=
  t.kind.isWordLike = true → u.kind.isWordLike = false

theorem CommaList.isChain_apart {units : List (List Token)} (h : CommaList units ts)
    (hunits : ∀ u ∈ units, u.IsChain Apart) : ts.IsChain Apart := by
  induction h with
  | single => exact hunits _ (by simp)
  | @cons u ts us comma hcomma _ ih =>
    have hword : comma.kind.isWordLike = false := by rw [hcomma]; rfl
    refine List.isChain_append.2 ⟨hunits u (by simp), List.isChain_cons.2
      ⟨fun v _ hv ↦ ?_, ih fun v hv ↦ hunits v (by simp [hv])⟩, fun v _ c hc _ ↦ ?_⟩
    · rw [hword] at hv
      cases hv
    · obtain rfl := Option.some.inj hc
      exact hword

theorem IsExpression.isChain_apart (h : IsExpression ts) : ts.IsChain Apart := by
  induction h with
  | atom => exact List.isChain_singleton _
  | @emptyCall f o c hf ho hc => simp [Apart, hf, ho, hc, TokenKind.isWordLike, TokenKind.isSymbol]
  | @call f o c arguments ts hf ho hc hts _ ih =>
    have hopen : o.kind.isWordLike = false := by rw [ho]; rfl
    have hclose : c.kind.isWordLike = false := by rw [hc]; rfl
    have hrest : (ts ++ [c]).IsChain Apart := by
      refine List.isChain_append.2 ⟨hts.isChain_apart ih, List.isChain_singleton c,
        fun t _ u hu _ ↦ ?_⟩
      obtain rfl := Option.some.inj hu
      exact hclose
    refine List.isChain_cons.2 ⟨fun u hu _ ↦ ?_, List.isChain_cons.2 ⟨fun u _ hword ↦ ?_, hrest⟩⟩
    · obtain rfl := Option.some.inj hu
      exact hopen
    · rw [hopen] at hword
      cases hword

/-- In front of another token the tokens of such a list are loose. -/
theorem Placed.loose (h : Placed source o (ts ++ [t])) (hchain : (ts ++ [t]).IsChain Apart) :
    Loose source ts := by
  intro u hu hreplaceable
  have hword := (TokenKind.isWordLike_of_isReplaceable hreplaceable).1
  obtain ⟨front, back, rfl⟩ := List.append_of_mem hu
  obtain ⟨next, more, hnext⟩ := List.exists_cons_of_ne_nil
    (List.append_ne_nil_of_right_ne_nil back (List.cons_ne_nil t []))
  rw [List.append_assoc, List.cons_append, hnext] at h hchain
  obtain - | ⟨-, - | ⟨hstands, -⟩⟩ := (Placed.append_iff.1 h).2
  exact hstands.soft_drop ((List.isChain_cons.1 hchain.right_of_append).1 next rfl hword)

theorem TokenKind.ofFrame?_append_closeParen (u : Text) :
    ofFrame? (u ++ closeParen.symbol) = none := by
  refine Option.eq_none_iff_forall_ne_some.2 fun k hk ↦ ?_
  have hlast : (u ++ closeParen.symbol).getLast? = some ')' :=
    List.getLast?_append_of_ne_nil u (by decide)
  rcases eq_of_ofFrame? hk with ⟨heq, -⟩ | ⟨heq, -⟩ <;> rw [heq] at hlast <;>
    exact absurd hlast (by decide)

/-- **A value with a parenthesis at its end** runs on into nothing. -/
theorem fits_closed (hts : Placed source (startOf (ts ++ [t])) (ts ++ [t]))
    (hends : ∀ u ∈ ts ++ [t], u.EndsIn source)
    (hplain : ∀ u ∈ ts ++ [t], u.hash? = none → u.kind.isPlain = true)
    (hchain : (ts ++ [t]).IsChain Apart) (hclose : t.kind = .closeParen)
    (hvalues : ValuesMean Fits values meanings) :
    Fits (rendered source (Token.replacement? values) (startOf (ts ++ [t])) (ts ++ [t]))
      ((ts ++ [t]).flatMap (Token.expansion meanings)) where
  joins := joins_rendered hts hends hvalues.joins
  plain x hx := by
    obtain ⟨u, hu, hx⟩ := List.mem_flatMap.1 hx
    exact (u.fits hvalues (hends u hu) (hplain u hu)).plain x hx
  reads_iff := by
    intro s vs hs hpieced hvs
    obtain ⟨hinit, - | ⟨ht, -⟩⟩ := Placed.append_iff.1 hts
    have hlast := Resumes.symbol ht (hends t (by simp)) (by rw [hclose]; rfl) hpieced hvs
    have hall := hlast.rendered hinit (fun u hu ↦ hends u (by simp [hu]))
      (fun u hu ↦ hplain u (by simp [hu])) (hts.loose hchain) hvalues
    have hkept : t.replacement? values = none := by
      refine Option.eq_none_iff_forall_ne_some.2 fun u hu ↦ ?_
      have hreplaceable := Token.isReplaceable_of_replacement? hu
      rw [hclose] at hreplaceable
      cases hreplaceable
    have hsplit : rendered source (Token.replacement? values) (startOf (ts ++ [t])) (ts ++ [t]) =
        rendered source (Token.replacement? values) (startOf (ts ++ [t])) ts ++
          (slice source (stopFrom (startOf (ts ++ [t])) ts) t.start.offset ++ t.text) := by
      rw [rendered_append]
      simp [rendered, hkept]
    have hframe : ¬ Clashes
        (rendered source (Token.replacement? values) (startOf (ts ++ [t])) (ts ++ [t])) s := by
      rw [hs.clashes_iff, hsplit, Spelling.eq_symbol (hends t (by simp)) (by rw [hclose]; rfl),
        hclose, ← List.append_assoc, TokenKind.ofFrame?_append_closeParen]
      rintro ⟨k, hk, -⟩
      cases hk
    rw [and_iff_left hframe, ← hall.reads_iff, hsplit]
    simp only [List.append_assoc]

/-- **The value of a constant** fits. -/
theorem IsExpression.fits (h : IsExpression ts) (hts : Placed source (startOf ts) ts)
    (hends : ∀ u ∈ ts, u.EndsIn source)
    (hplain : ∀ u ∈ ts, u.hash? = none → u.kind.isPlain = true)
    (hvalues : ValuesMean Fits values meanings) :
    Fits (rendered source (Token.replacement? values) (startOf ts) ts)
      (ts.flatMap (Token.expansion meanings)) := by
  have hchain := h.isChain_apart
  cases h with
  | @atom t =>
    have hfits := t.fits hvalues (hends t (by simp)) (hplain t (by simp))
    simpa [rendered, startOf, slice_self] using hfits
  | @emptyCall f o c _ _ hc =>
    show Fits (rendered source _ (startOf ([f, o] ++ [c])) ([f, o] ++ [c])) _
    exact fits_closed hts hends hplain hchain hc hvalues
  | call _ _ hc => exact fits_closed hts hends hplain hchain hc hvalues

/-- A token that is no keyword of a declaration is of plain Yul, unless it has a hash. -/
theorem Token.isPlain_of_hash?_eq (hhash : t.kind.isHash = true → ∃ hash, t.hash? = some hash)
    (hkind : t.kind.isDeclaration = false) (hnone : t.hash? = none) : t.kind.isPlain = true := by
  rw [TokenKind.isPlain, hkind]
  cases hk : t.kind.isHash with
  | false => rfl
  | true =>
    obtain ⟨hash, hsome⟩ := hhash hk
    rw [hnone] at hsome
    cases hsome

/-- **The values of the names of a scope** fit. -/
theorem IsBody.fits_valuesOf (h : IsBody closing inner parts) (hinner : Placed source o inner)
    (hends : ∀ t ∈ inner, t.EndsIn source)
    (hhash : ∀ t ∈ inner, t.kind.isHash = true → ∃ hash, t.hash? = some hash) :
    ValuesMean Fits (boundIn source parts).values (meaningsOf (declarationsOf parts)) := by
  refine valuesMean_valuesOf (fun n ↦ ?_) fun name value hmem values meanings hvalues ↦ ?_
  · have hspell : Spelling (.token .number (decimal n)) (decimal n) [] :=
      .number Nat.toDigits_ne_nil (fun _ ↦ isDigit_of_mem_decimal) (by simp)
    exact hspell.fits rfl
  · obtain ⟨hvalue, hsub, hexpression⟩ := h.value_of_mem hinner hmem
    refine hexpression.fits hvalue (fun t ht ↦ hends t (hsub t ht)) (fun t ht ↦ ?_) hvalues
    refine Token.isPlain_of_hash?_eq (hhash t (hsub t ht)) (Bool.eq_false_iff.2 fun hkind ↦ ?_)
    exact not_mem_declarationKinds (.inl hkind) (hexpression.kind_mem t ht)

/-! ### Making the edits -/

theorem not_glues_nil : ¬ Glues source [] :=
  nofun

theorem not_glues_cons_iff {e : Edit} : ¬ Glues source (e :: es) ↔
    ¬ Glues source es ∧ ¬ Clashes e.text (Edit.applyFrom e.stop (source.drop e.stop) es) := by
  constructor
  · exact fun h ↦ ⟨fun hes ↦ h (.later hes), fun hclash ↦ h (.here hclash)⟩
  · rintro ⟨hes, hclash⟩ (h | h)
    · exact hclash h
    · exact hes h

theorem not_glues_edit?_iff {text? : Token → Option Text} :
    ¬ Glues source ((t.edit? text?).toList ++ es) ↔ ¬ Glues source es ∧
      ∀ u ∈ text? t, ¬ Clashes u (Edit.applyFrom t.stop (source.drop t.stop) es) := by
  unfold Token.edit?
  cases text? t with
  | none => simp
  | some u => simpa using not_glues_cons_iff

theorem Loose.of_cons (h : Loose source (t :: us)) : Loose source us :=
  fun u hu ↦ h u (List.mem_cons_of_mem _ hu)

theorem Loose.right_of_append (h : Loose source (ts ++ us)) : Loose source us :=
  fun t ht ↦ h t (List.mem_append_right _ ht)

/-- A token, which may have an edit. -/
theorem Emits.token (ht : t.StandsAfter source o) (hend : t.EndsIn source)
    (hplain : t.hash? = none → t.kind.isPlain = true) (hvalues : ValuesMean Fits values meanings)
    (h : Emits source t.stop us es) :
    Emits source o (t :: us) ((t.edit? (Token.replacement? values)).toList ++ es) := by
  obtain ⟨n, hes⟩ := h.within
  have hall := h.resumes.token ht hend hplain hvalues
  rw [← ht.applyFrom_eq hes] at hall
  exact
    { within := ⟨n, (within_token ht _).append hes⟩
      resumes := { hall with reads_iff := hall.reads_iff.trans not_glues_edit?_iff.symm }
      not_glues := fun hloose ↦ not_glues_edit?_iff.2
        ⟨h.not_glues hloose.of_cons, h.resumes.not_clashes (hloose t (by simp))⟩ }

/-- A part of a scope. -/
theorem Emits.part {p : Part} (hp : Placed source o p.tokens)
    (hends : ∀ t ∈ p.tokens, t.EndsIn source)
    (hkeyword : ∀ keyword tail d, p = .declared keyword tail d →
      keyword.kind.isDeclaration = true)
    (hplain : ∀ t next, p = .kept t next → t.hash? = none → t.kind.isPlain = true)
    (hvalues : ValuesMean Fits values meanings) (h : Emits source (stopFrom o p.tokens) us es) :
    Emits source o (p.tokens ++ us) ((p.change? values).toList ++ es) := by
  cases p with
  | kept t next =>
    obtain - | ⟨ht, -⟩ := hp
    exact .token ht (hends t (by simp [Part.tokens])) (hplain t next rfl) hvalues h
  | declared keyword tail d =>
    have hwithin := within_part hp values
    have hle := Placed.start_le_stop hp
    obtain - | ⟨ht, -⟩ := hp
    obtain ⟨n, hes⟩ := h.within
    have hglues : ¬ Glues source (((Part.declared keyword tail d).change? values).toList ++ es) ↔
        ¬ Glues source es := not_glues_cons_iff.trans (and_iff_left firm_nil.not_clashes)
    refine ⟨⟨n, hwithin.append hes⟩, ?_, fun hloose ↦
      hglues.2 (h.not_glues hloose.right_of_append)⟩
    have hrest := h.resumes
    rw [Part.tokens, stopFrom_cons_eq] at hrest
    have hall := hrest.deleted ht (hends keyword (by simp [Part.tokens])) (hkeyword _ _ _ rfl)
    show Resumes source o (Edit.applyFrom o (source.drop o) (⟨_, _, []⟩ :: es)) (¬ Glues source _)
    rw [Edit.applyFrom_drop_cons ht.le_start hle, List.append_nil]
    exact { hall with reads_iff := hall.reads_iff.trans hglues.symm }

/-- An opening brace, with the functions that are inserted behind it. -/
theorem Emits.brace (ht : t.StandsAfter source o) (hend : t.EndsIn source)
    (hkind : t.kind = .openBrace) (hfunctions : ∀ f ∈ functions, ReadsPlainly f)
    (h : Emits source t.stop us es) :
    Emits source o (t :: us) (helperEdits t functions ++ es) := by
  obtain ⟨n, hes⟩ := h.within
  have hstart := ht.le_start
  have hstop := ht.start_lt_stop
  obtain ⟨ws, hpieced, hws⟩ := h.resumes.pieced
  obtain ⟨⟨vs, hinserted, hvs⟩, hreads⟩ := Resumes.inserted hpieced hws hfunctions
  have hall := Resumes.symbol ht hend (by rw [hkind]; rfl) hinserted hvs
  have hglues : ¬ Glues source (helperEdits t functions ++ es) ↔ ¬ Glues source es := by
    unfold helperEdits
    split
    · exact Iff.rfl
    · have hfirm : Firm ('\n' :: joinWith ['\n'] functions ++ ['\n']) :=
        firm_cons_iff.2 (by decide)
      exact not_glues_cons_iff.trans (and_iff_left hfirm.not_clashes)
  refine ⟨⟨n, (within_helperEdits ht functions).append hes⟩, ?_, fun hloose ↦
    hglues.2 (h.not_glues hloose.of_cons)⟩
  rw [applyFrom_helperEdits (by omega) hes, ← slice_append_slice hstart (le_of_lt hstop),
    ht.slice_eq, List.append_assoc]
  exact { hall with
    reads_iff := hall.reads_iff.trans (hreads.trans (h.resumes.reads_iff.trans hglues.symm)) }

/-- All parts of a scope. -/
theorem Emits.body (hparts : Placed source o (parts.flatMap Part.tokens))
    (hends : ∀ t ∈ parts.flatMap Part.tokens, t.EndsIn source)
    (hkeyword : ∀ keyword tail d, .declared keyword tail d ∈ parts →
      keyword.kind.isDeclaration = true)
    (hplain : ∀ t next, .kept t next ∈ parts → t.hash? = none → t.kind.isPlain = true)
    (hvalues : ValuesMean Fits values meanings)
    (h : Emits source (stopFrom o (parts.flatMap Part.tokens)) us es) :
    Emits source o (parts.flatMap Part.tokens ++ us)
      (parts.filterMap (Part.change? values) ++ es) := by
  induction parts generalizing o with
  | nil => exact h
  | cons p parts ih =>
    rw [List.flatMap_cons] at hparts hends h
    obtain ⟨hp, hrest⟩ := Placed.append_iff.1 hparts
    rw [stopFrom_append] at h
    have hmore := ih hrest (fun t ht ↦ hends t (List.mem_append_right _ ht))
      (fun keyword tail d hd ↦ hkeyword keyword tail d (by simp [hd]))
      (fun t next ht ↦ hplain t next (by simp [ht])) h
    rw [filterMap_cons_eq, List.flatMap_cons, List.append_assoc, List.append_assoc]
    exact .part hp (fun t ht ↦ hends t (List.mem_append_left _ ht))
      (fun keyword tail d hd ↦ hkeyword keyword tail d (by simp [hd]))
      (fun t next ht ↦ hplain t next (by simp [ht])) hvalues hmore

/-- A token that is kept stands in the body and is no keyword of a declaration. -/
theorem IsBody.mem_of_kept {next : Token} (h : IsBody closing inner parts)
    (ht : .kept t next ∈ parts) : t ∈ inner ∧ t.kind.isDeclaration = false := by
  induction h with
  | nil => cases ht
  | kept hkind _ ih =>
    rcases List.mem_cons.1 ht with ht | ht
    · cases ht
      exact ⟨by simp, hkind⟩
    · exact (ih ht).imp_left (List.mem_cons_of_mem _)
  | declared _ _ _ ih =>
    rcases List.mem_cons.1 ht with ht | ht
    · cases ht
    · exact (ih ht).imp_left fun hmem ↦ by simp [hmem]

/-- A scope. -/
theorem Emits.scope (hbody : IsBody closing inner parts) (hopen : opening.kind = .openBrace)
    (hclose : closing.kind = .closeBrace)
    (hs : Placed source o (Section.scope opening parts closing).tokens)
    (hends : ∀ t ∈ (Section.scope opening parts closing).tokens, t.EndsIn source)
    (hhash : ∀ t ∈ (Section.scope opening parts closing).tokens, t.kind.isHash = true →
      ∃ hash, t.hash? = some hash)
    (h : Emits source (stopFrom o (Section.scope opening parts closing).tokens) us es) :
    Emits source o ((Section.scope opening parts closing).tokens ++ us)
      ((Section.scope opening parts closing).changes source ++ es) := by
  obtain ⟨hstands, hparts, hstop⟩ := Section.placed_scope_iff.1 hs
  have hinner := hbody.placed_inner hs
  rw [Section.tokens] at hends hhash h ⊢
  rw [stopFrom_cons, stopFrom_append] at h
  have hsub : ∀ t ∈ inner, t ∈ opening :: (parts.flatMap Part.tokens ++ [closing]) := by
    rw [hbody.tokens_eq]
    exact fun t ht ↦ by simp [ht]
  -- the closing brace is kept
  have hnone : closing.edit? (Token.replacement? []) = none := by
    rw [Token.edit?, Token.replacement?_nil, Token.hash?, hclose]
    rfl
  have hlast := Emits.token hstop (hends closing (by simp)) (fun _ ↦ by rw [hclose]; rfl) .nil h
  rw [hnone] at hlast
  have hvalues := hbody.fits_valuesOf hinner (fun t ht ↦ hends t (hsub t ht))
    fun t ht ↦ hhash t (hsub t ht)
  have hall := Emits.body hparts (fun t ht ↦ hends t (by simp [ht]))
    (fun _ _ _ hd ↦ (hbody.spells_of_mem hd).isDeclaration)
    (fun t next ht ↦ Token.isPlain_of_hash?_eq (hhash t (hsub t (hbody.mem_of_kept ht).1))
      (hbody.mem_of_kept ht).2) hvalues hlast
  rw [Section.changes, List.cons_append, List.append_assoc, List.append_assoc]
  exact .brace hstands (hends opening (by simp)) hopen
    (fun f hf ↦ exists_lexes_of_mem_scopeHelpers (hbody.hasNames hinner) hf) hall

/-! ### The whole program -/

/-- **Sections in front of more.** -/
theorem Emits.sections (hformed : ∀ s ∈ program, s.WellFormed)
    (hplaced : Placed source o (Section.tokensOf program))
    (hends : ∀ t ∈ Section.tokensOf program, t.EndsIn source)
    (hhash : ∀ t ∈ Section.tokensOf program, t.kind.isHash = true → ∃ hash, t.hash? = some hash)
    (h : Emits source (stopFrom o (Section.tokensOf program)) us es) :
    Emits source o (Section.tokensOf program ++ us)
      (program.flatMap (Section.changes source) ++ es) := by
  induction program generalizing o with
  | nil => exact h
  | cons s program ih =>
    have hcons : Section.tokensOf (s :: program) = s.tokens ++ Section.tokensOf program := rfl
    rw [hcons] at hplaced hends hhash h ⊢
    obtain ⟨hs, hrest⟩ := Placed.append_iff.1 hplaced
    rw [stopFrom_append] at h
    obtain ⟨hfirst, hformed⟩ := List.forall_mem_cons.1 hformed
    have hmore := ih hformed hrest (fun t ht ↦ hends t (List.mem_append_right _ ht))
      (fun t ht ↦ hhash t (List.mem_append_right _ ht)) h
    have hends' : ∀ t ∈ s.tokens, t.EndsIn source := fun t ht ↦ hends t (List.mem_append_left _ ht)
    have hhash' : ∀ t ∈ s.tokens, t.kind.isHash = true → ∃ hash, t.hash? = some hash :=
      fun t ht ↦ hhash t (List.mem_append_left _ ht)
    rw [List.flatMap_cons, List.append_assoc, List.append_assoc]
    cases s with
    | outside t =>
      obtain - | ⟨ht, -⟩ := hs
      have hmem : t ∈ (Section.outside t).tokens := List.mem_singleton_self t
      have hplain := Token.isPlain_of_hash?_eq (hhash' t hmem) hfirst
      have hall := Emits.token ht (hends' t hmem) hplain .nil hmore
      rwa [show Token.replacement? [] = Token.hash? from funext Token.replacement?_nil] at hall
    | scope opening parts closing =>
      obtain ⟨hopen, hclose, inner, hbody⟩ := hfirst
      exact .scope hbody hopen hclose hs hends' hhash' hmore

/-- Behind the last section there is nothing to read. -/
theorem Token.Closes.emits (h : t.Closes source o) : Emits source o [t] [] where
  not_glues _ := not_glues_nil
  within := ⟨o, .nil le_rfl⟩
  resumes :=
    { pieced := ⟨[], h.lexes.pieced, List.forall_mem_nil _⟩
      head := fun _ ↦ rfl
      reads_iff := iff_of_true ⟨[], h.lexes, List.forall_mem_nil _⟩ not_glues_nil }

/-- **The edits of a program**, from the end of the source backwards. -/
theorem IsProgram.emits {interface : Interface} (h : IsProgram tokens program)
    (htokens : tokenize source = .ok tokens)
    (hinterface : Interface.ofTokens tokens = .ok interface) :
    Emits source 0 tokens (program.flatMap (Section.changes source)) := by
  obtain ⟨sections, last, rfl, hplaced, hlast⟩ := h.exists_placed htokens
  have hsub : ∀ t ∈ Section.tokensOf sections, t ∈ tokens := by
    intro t ht
    rw [← h.tokensOf_eq, Section.tokensOf, List.flatMap_append]
    exact List.mem_append_left _ ht
  have hhash : ∀ t ∈ Section.tokensOf sections, t.kind.isHash = true →
      ∃ hash, t.hash? = some hash := by
    intro t ht hkind
    obtain ⟨hash, hfound⟩ := Interface.exists_hash? hinterface (hsub t ht) hkind
    exact ⟨hash, (Interface.hash?_eq hinterface (hsub t ht)).symm.trans hfound⟩
  have hall := Emits.sections (fun s hs ↦ h.wellFormed (by simp [hs])) hplaced
    (hplaced.endsIn htokens hsub) hhash hlast.emits
  rw [← h.tokensOf_eq, List.flatMap_append, List.flatMap_singleton, hlast.changes_eq_nil,
    Section.tokensOf, List.flatMap_append]
  exact hall

theorem TokenKind.isDeclaration_eq_false {k : TokenKind}
    (h : k.isPlain = true ∨ k = .number ∨ k.isHash = true) : k.isDeclaration = false := by
  revert h
  cases k <;> decide

/-- The edits of a source that is lowered, and the code that they make. -/
theorem emits_of_lower {r : Lowered} (h : lower source = .ok r) :
    ∃ tokens es, tokenize source = .ok tokens ∧
      lowerTokens source tokens = .ok (r.interface, es) ∧ r.code = Edit.applyAll es source ∧
      Emits source 0 tokens es := by
  obtain ⟨tokens, program, htokens, hprogram, hinterface, hlower, -, hcode⟩ :=
    exists_program_of_lower h
  exact ⟨tokens, _, htokens, hlower, hcode, hprogram.emits htokens hinterface⟩

/-- **When the lowered code is plain Yul.** The code is read, as tokens of plain Yul, exactly if no
edit puts a text in front of one that it runs on into. This is so if every name and every hash
literal of the source is followed by layout, a symbol or the end. Whatever the edits are, the
keywords of declarations are gone from the code. -/
theorem lower_readsPlainly_iff {r : Lowered} (h : lower source = .ok r) :
    ∃ tokens es, tokenize source = .ok tokens ∧
      lowerTokens source tokens = .ok (r.interface, es) ∧ r.code = Edit.applyAll es source ∧
      ((∃ out, tokenize r.code = .ok out ∧ ∀ t ∈ out, t.kind.isPlain = true) ↔
        ¬ Glues source es) ∧
      (Loose source tokens → ¬ Glues source es) ∧
      ∀ out, tokenize r.code = .ok out → ∀ t ∈ out, t.kind.isDeclaration = false := by
  obtain ⟨tokens, es, htokens, hlower, hcode, hemits⟩ := emits_of_lower h
  have hresumes : Resumes source 0 r.code (¬ Glues source es) := by
    rw [hcode]
    exact hemits.resumes
  refine ⟨tokens, es, htokens, hlower, hcode,
    readsPlainly_iff_tokenize.symm.trans hresumes.reads_iff, hemits.not_glues, fun out hout ↦ ?_⟩
  obtain ⟨ws, hpieced, hws⟩ := hresumes.pieced
  obtain ⟨vs, hvs, hreadings⟩ := (tokenized_of_tokenizeFrom hout).exists_lexes
  refine (forall_kind_iff (·.isDeclaration = false) hreadings rfl).2 fun x hx ↦ ?_
  refine TokenKind.isDeclaration_eq_false ?_
  exact ((hpieced.coarsens hvs).kind_cases hx).imp_left fun ⟨y, hy, hkind⟩ ↦ hkind ▸ hws y hy

/-- A single hexadecimal number that is put in is glued to a word that goes on behind the digits. -/
theorem glues_hex_iff {e : Edit} (he : e.text.take 2 = "0x".toList) :
    Glues source [e] ↔ ¬ Firm ((source.drop e.stop).dropWhile isHexDigit) := by
  have htext : e.text = '0' :: 'x' :: e.text.drop 2 := by
    rw [← List.take_append_drop 2 e.text, he]
    rfl
  constructor
  · rintro ((⟨-, hs⟩ | ⟨hu, -⟩) | h)
    · exact hs
    · rw [htext] at hu
      rcases TokenKind.eq_of_ofFrame? hu with ⟨hu, -⟩ | ⟨hu, -⟩ <;> cases hu
    · cases h
  · exact fun hs ↦ .here (.number htext hs)

/-- A hash with a number right behind it: the two are read as one number, and nothing is glued. -/
theorem lower_readsPlainly_joined :
    ∃ r out, lower "\x7b let x := sig\"function f()\"12 \x7d".toList = .ok r ∧
      tokenize r.code = .ok out ∧ ∀ t ∈ out, t.kind.isPlain = true := by
  have haccepted : (lower "\x7b let x := sig\"function f()\"12 \x7d".toList).map (fun _ ↦ ()) =
      .ok () := by decide +kernel
  have hedits : (tokenize "\x7b let x := sig\"function f()\"12 \x7d".toList).map (fun tokens ↦
      (lowerTokens "\x7b let x := sig\"function f()\"12 \x7d".toList tokens).map fun x ↦
        x.2.map fun e ↦ (e.stop, e.text.take 2)) = .ok (.ok [(28, "0x".toList)]) := by
    decide +kernel
  obtain ⟨r, hlower, -⟩ := exists_of_map_eq_ok haccepted
  obtain ⟨tokens, es, htokens, hes, -, hiff, -⟩ := lower_readsPlainly_iff hlower
  rw [htokens, Except.map, hes] at hedits
  obtain ⟨e, rfl, he⟩ := List.map_eq_singleton_iff.1 (Except.ok.inj (Except.ok.inj hedits))
  obtain ⟨hstop, htext⟩ := Prod.mk.inj he
  obtain ⟨out, hout, hplain⟩ := hiff.2 <| by
    rw [glues_hex_iff htext, hstop, not_not]
    exact firm_cons_iff.2 (by decide)
  exact ⟨r, out, hlower, hout, hplain⟩

/-- **Code that cannot be read.** A hash literal is closed by its quote, so that a keyword may stand
right behind it. The hash runs on into the keyword. -/
theorem lower_glues_hash :
    ∃ r, lower "\x7b let x := sig\"function f()\"let y := 1 \x7d".toList = .ok r ∧
      ¬ ∃ out, tokenize r.code = .ok out ∧ ∀ t ∈ out, t.kind.isPlain = true := by
  have haccepted : (lower "\x7b let x := sig\"function f()\"let y := 1 \x7d".toList).map
      (fun _ ↦ ()) = .ok () := by decide +kernel
  have hedits : (tokenize "\x7b let x := sig\"function f()\"let y := 1 \x7d".toList).map
      (fun tokens ↦
        (lowerTokens "\x7b let x := sig\"function f()\"let y := 1 \x7d".toList tokens).map fun x ↦
          x.2.map fun e ↦ (e.stop, e.text.take 2)) = .ok (.ok [(28, "0x".toList)]) := by
    decide +kernel
  obtain ⟨r, hlower, -⟩ := exists_of_map_eq_ok haccepted
  obtain ⟨tokens, es, htokens, hes, hcode, hemits⟩ := emits_of_lower hlower
  rw [htokens, Except.map, hes] at hedits
  obtain ⟨e, rfl, he⟩ := List.map_eq_singleton_iff.1 (Except.ok.inj (Except.ok.inj hedits))
  obtain ⟨hstop, htext⟩ := Prod.mk.inj he
  have hglues : Glues "\x7b let x := sig\"function f()\"let y := 1 \x7d".toList [e] := by
    rw [glues_hex_iff htext, hstop]
    exact fun hfirm ↦ absurd (firm_cons_iff.1 hfirm) (by decide)
  refine ⟨r, hlower, fun hplain ↦ hemits.resumes.reads_iff.1 ?_ hglues⟩
  have hreads := readsPlainly_iff_tokenize.2 hplain
  rw [hcode] at hreads
  exact hreads

-- the value of a constant becomes the frame of the string behind its name
example : (lower "\x7b const f := sig let x := f\"function g()\" \x7d".toList).map Lowered.code =
    .ok "\x7b  let x := sig\"function g()\" \x7d".toList := by
  decide +kernel

end

end YulPlus
