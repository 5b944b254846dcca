import Mathlib.Data.List.Forall2
import YulPlus.Proofs.Source.Composed
import YulPlus.Proofs.Source.Rebased

/-!
# Texts made of pieces

A text may be put together from pieces that are no longer apart: a hash that replaces a literal can
stand right in front of a word, and a word that replaces a name right in front of a string. `Pieced`
asks no more of a seam than that a word or a number does not run on into what follows; and not even
that of a hexadecimal number.

The lexer need not find the pieces again. But there are only two ways in which it can join them,
and `Coarsens` lists them: hexadecimal digits behind a number become digits of the number, and a
framing word with a string behind it becomes a hash literal. `Pieced.coarsens` says that nothing
else happens if the text can be read at all. So whatever is not touched by the two, such as a name
with a parenthesis behind it, is read exactly where it was put (`Coarsens.infix_left`,
`Coarsens.infix_right`). -/

namespace YulPlus

open Text

/-- Is this the kind of a name, a keyword or a number? Others end in a character of their own. -/
def TokenKind.runsOn (k : TokenKind) : Bool :=
  k.isWordLike && k != string && !k.isHash

theorem TokenKind.runsOn_of_isSymbol {k : TokenKind} (h : k.isSymbol = true) :
    k.runsOn = false := by
  revert h
  cases k <;> decide

theorem TokenKind.runsOn_ofWord (w : Text) : (ofWord w).runsOn = true := by
  rw [ofWord]
  repeat' split
  all_goals rfl

/-- The text does not begin with a character that a word or a number could go on with. -/
def Firm (s : Text) : Prop :=
  ∀ c ∈ s.head?, isIdentifierPart c = false

/-- The text consists of gaps and of tokens with the readings `ws`, and nothing runs on into what
follows, except that a hexadecimal number may. -/
inductive Pieced : Text → List (TokenKind × Text) → Prop
  | nil : Pieced [] []
  | gap {u s : Text} {ws : List (TokenKind × Text)} (hu : Spelling .gap u s) (hs : Pieced s ws) :
      Pieced (u ++ s) ws
  | token {k : TokenKind} {v u s : Text} {ws : List (TokenKind × Text)}
      (hu : Spelling (.token k v) u [])
      (hseam : k.runsOn = true → Firm s ∨ ∃ digits, u = '0' :: 'x' :: digits) (hs : Pieced s ws) :
      Pieced (u ++ s) ((k, v) :: ws)

/-- The second readings are the first ones, up to numbers that have taken in the digits behind them
and words that have become the frame of the string behind them. -/
inductive Coarsens : List (TokenKind × Text) → List (TokenKind × Text) → Prop
  | nil : Coarsens [] []
  | same {x : TokenKind × Text} {ws vs : List (TokenKind × Text)} (h : Coarsens ws vs) :
      Coarsens (x :: ws) (x :: vs)
  | digits {k : TokenKind} {n w : Text} {ws vs : List (TokenKind × Text)}
      (hw : ∀ c ∈ w, isHexDigit c = true) (h : Coarsens ((.number, n ++ w) :: ws) vs) :
      Coarsens ((.number, n) :: (k, w) :: ws) vs
  | frame {k : TokenKind} {w inner : Text} {ws vs : List (TokenKind × Text)}
      (hw : TokenKind.ofFrame? w = some k) (h : Coarsens ws vs) :
      Coarsens ((.identifier, w) :: (.string, '"' :: inner ++ ['"']) :: ws) ((k, inner) :: vs)

section

variable {k : TokenKind} {v u s t r g : Text} {l : Lexeme} {ws vs : List (TokenKind × Text)}
  {x y : TokenKind × Text}

/-! ### Firm texts -/

theorem firm_nil : Firm [] := by
  simp [Firm]

theorem firm_cons_iff {c : Char} : Firm (c :: s) ↔ isIdentifierPart c = false := by
  simp [Firm]

theorem Soft.firm (h : Soft s) : Firm s :=
  fun c hc ↦ (h c hc).1

/-- Only the first character matters. -/
theorem Firm.of_head? (h : Firm s) (ht : t.head? = s.head?) : Firm t := by
  rw [Firm, ht]
  exact h

/-- What stands behind a word or a number is firm. -/
theorem Spelling.firm (h : Spelling (.token k v) u r) (hk : k.runsOn = true) : Firm r := by
  cases h with
  | symbol hsymbol =>
    rw [TokenKind.runsOn_of_isSymbol hsymbol] at hk
    cases hk
  | string => cases hk
  | hexNumber _ _ hr | number _ _ hr | word _ _ _ hr => exact hr
  | hash hframe =>
    rw [TokenKind.runsOn, (TokenKind.frame?_of_ofFrame? hframe).2] at hk
    simp at hk

/-- A token may stand alone. -/
theorem Spelling.alone (h : Spelling (.token k v) u r) : Spelling (.token k v) u [] :=
  h.of_soft soft_nil

/-- A token in front of another text. Even a firm text makes a colon an assignment and a framing
word the beginning of a literal, if it begins accordingly. -/
theorem Spelling.of_firm (h : Spelling (.token k v) u r) (hs : k.runsOn = true → Firm s)
    (heq : ∀ c ∈ s.head?, c ≠ '=')
    (hquote : (TokenKind.ofFrame? u).isSome → ∀ c ∈ s.head?, c ≠ '"') :
    Spelling (.token k v) u s := by
  cases h with
  | symbol hk => exact .symbol hk fun _ ↦ heq
  | string hinner => exact .string hinner
  | hexNumber hne hdigits => exact .hexNumber hne hdigits (hs rfl)
  | number hne hdigits => exact .number hne hdigits (hs rfl)
  | word hc hdigit htail => exact .word hc hdigit htail (hs (TokenKind.runsOn_ofWord _)) hquote
  | hash hframe hinner => exact .hash hframe hinner

/-- A token in front of another text, which begins in the same way if that matters. -/
theorem Spelling.of_head?_of_runsOn (h : Spelling (.token k v) u r)
    (hs : k.runsOn = true → s.head? = r.head?) (heq : ∀ c ∈ s.head?, c ≠ '=') :
    Spelling (.token k v) u s := by
  cases hk : k.runsOn with
  | true => exact h.of_head? (hs hk)
  | false =>
    cases h with
    | symbol hsymbol => exact .symbol hsymbol fun _ ↦ heq
    | string hinner => exact .string hinner
    | hexNumber | number => cases hk
    | word => rw [TokenKind.runsOn_ofWord] at hk; cases hk
    | hash hframe hinner => exact .hash hframe hinner

/-! ### Putting pieces together -/

/-- No piece begins with an equals sign. -/
theorem Pieced.head?_ne_equals (h : Pieced s ws) : ∀ c ∈ s.head?, c ≠ '=' := by
  have hfirst : ∀ {l u r s}, Spelling l u r → ∀ c ∈ (u ++ s).head?, c ≠ '=' := by
    intro l u r s hu c hc
    obtain ⟨d, u, rfl⟩ := List.exists_cons_of_ne_nil hu.text_ne_nil
    exact hu.head?_ne_equals c hc
  cases h with
  | nil => simp
  | gap hu | token hu => exact hfirst hu

theorem Gap.pieced_append (hg : Gap g) (hs : Pieced s ws) : Pieced (g ++ s) ws := by
  induction hg with
  | nil => exact hs
  | @layout c _ hc _ ih => exact .gap (u := [c]) (.layout hc) ih
  | lineComment hbody _ ih =>
    rw [List.append_assoc]
    exact .gap (.lineComment hbody fun c hc ↦ by cases hc; rfl) ih
  | blockComment hbody _ ih =>
    rw [List.append_assoc]
    exact .gap (.blockComment hbody) ih

/-- **A text that can be read** is made of pieces. -/
theorem Lexes.pieced (h : Lexes s ws) : Pieced s ws := by
  induction h with
  | nil => exact .nil
  | @cons l u r ws hu _ ih =>
    cases l with
    | gap => exact .gap hu ih
    | token k v => exact .token hu.alone (fun hk ↦ .inl (hu.firm hk)) ih

/-- It is so in front of a line feed, too. -/
theorem Lexes.pieced_append_lineFeed (h : Lexes s ws) (ht : Pieced t vs) :
    Pieced (s ++ '\n' :: t) (ws ++ vs) := by
  induction h with
  | nil => exact .gap (u := ['\n']) (.layout (by decide)) ht
  | @cons l u r ws hu hr ih =>
    rw [List.append_assoc, List.append_assoc]
    cases l with
    | gap => exact .gap hu.append_lineFeed ih
    | token k v =>
      refine .token hu.alone (fun hk ↦ .inl ?_) ih
      cases r with
      | cons c r => exact (hu.firm hk).of_head? rfl
      | nil => exact firm_cons_iff.2 (by decide)

/-- **Functions on lines of their own** are pieces. -/
theorem pieced_joinWith {functions : List Text} {wss : List (List (TokenKind × Text))}
    (h : List.Forall₂ Lexes functions wss) (hs : Pieced s vs) :
    Pieced (joinWith ['\n'] functions ++ '\n' :: s) (wss.flatten ++ vs) := by
  induction h with
  | nil => exact .gap (u := ['\n']) (.layout (by decide)) hs
  | @cons f ws functions wss hf hrest ih =>
    rw [List.flatten_cons, List.append_assoc]
    cases hrest with
    | nil => exact hf.pieced_append_lineFeed hs
    | cons =>
      rw [joinWith_cons_cons, List.append_assoc, List.append_assoc]
      exact hf.pieced_append_lineFeed ih

/-! ### What the lexer makes of the pieces -/

/-- The lexeme at the beginning of a text is the first that is read. -/
theorem Lexes.exists_rest (hu : Spelling l u r) (h : Lexes (u ++ r) vs) :
    ∃ vs', vs = l.readings ++ vs' ∧ Lexes r vs' := by
  obtain ⟨ts, hts, hreadings⟩ := h.exists_tokenized .start
  obtain ⟨us, rfl, hus⟩ := hts.exists_rest hu
  obtain ⟨vs', hvs', hrest⟩ := hus.exists_lexes
  refine ⟨vs', ?_, hvs'⟩
  rw [List.map_append, Lexeme.map_reading_tokensAt, hrest, ← List.append_assoc] at hreadings
  exact (List.append_cancel_right hreadings).symm

/-- What begins like a hexadecimal number is read as one. -/
theorem Lexes.exists_hexDigits (h : Lexes ('0' :: 'x' :: t) vs) :
    ∃ digits r, t = digits ++ r ∧ (∀ c ∈ digits, isHexDigit c = true) ∧ Firm r := by
  generalize hs : '0' :: 'x' :: t = s at h
  cases h with
  | nil => cases hs
  | @cons l u r _ hu _ =>
    cases hu with
    | layout hc =>
      obtain ⟨rfl, -⟩ := List.cons.inj hs
      exact absurd hc (by decide)
    | lineComment | blockComment | string => cases hs
    | symbol hk =>
      have hsoft := (TokenKind.soft_symbol hk).append (TokenKind.symbol_ne_nil hk) r
      rw [← hs] at hsoft
      exact absurd (soft_cons_iff.1 hsoft).1 (by decide)
    | @hexNumber digits _ _ hdigits hr =>
      obtain ⟨-, -, rfl⟩ : '0' = '0' ∧ 'x' = 'x' ∧ t = digits ++ r := by simpa using hs
      exact ⟨digits, r, rfl, hdigits, hr⟩
    | number hne hdigits hr =>
      -- the letter would have to be a digit or to stand behind the number
      rcases u with - | ⟨d, - | ⟨e, u⟩⟩
      · exact absurd rfl hne
      · obtain ⟨-, rfl⟩ := List.cons.inj hs
        exact absurd (hr 'x' rfl) (by decide)
      · obtain ⟨-, rfl, -⟩ : '0' = d ∧ 'x' = e ∧ t = u ++ r := by simpa using hs
        exact absurd (hdigits 'x' (by simp)) (by decide)
    | word hc hdigit =>
      obtain ⟨rfl, -⟩ := List.cons.inj hs
      exact absurd hdigit (by decide)
    | hash hframe =>
      rcases TokenKind.eq_of_ofFrame? hframe with ⟨rfl, -⟩ | ⟨rfl, -⟩ <;> cases hs

/-- A run of characters in `p` belongs to what ends in front of a character that is not. -/
theorem exists_append_of_append_eq {a b c d : Text} {p : Char → Bool} (h : a ++ b = c ++ d)
    (ha : ∀ e ∈ a, p e = true) (hd : ∀ e ∈ d.head?, p e = false) : ∃ m, c = a ++ m := by
  rcases List.append_eq_append_iff.1 h with ⟨m, rfl, -⟩ | ⟨m, rfl, rfl⟩
  · exact ⟨m, rfl⟩
  · cases m with
    | nil => exact ⟨[], by simp⟩
    | cons e m =>
      have htrue := ha e (by simp)
      rw [hd e rfl] at htrue
      cases htrue

/-- A piece behind a hexadecimal number, with nothing between the two: it is read as a part of the
number, so it consists of digits. -/
theorem Spelling.isHexDigit_of_lexes {digits : Text} (hdigits : ∀ c ∈ digits, isHexDigit c = true)
    (hu : Spelling (.token k v) u r) (hfirm : ¬ Firm (u ++ s))
    (h : Lexes ('0' :: 'x' :: (digits ++ (u ++ s))) vs) :
    v = u ∧ ∀ c ∈ u, isHexDigit c = true := by
  obtain ⟨digits', r', heq, hdigits', hr'⟩ := h.exists_hexDigits
  have hpart : ∀ c ∈ digits, isIdentifierPart c = true :=
    fun c hc ↦ isIdentifierPart_of_isHexDigit (hdigits c hc)
  -- the characters that a word could consist of have all become digits
  have hall : ∀ {front back}, u ++ s = front ++ back → (∀ c ∈ front, isIdentifierPart c = true) →
      ∀ c ∈ front, isHexDigit c = true := by
    intro front back hsplit hfront c hc
    rw [hsplit, ← List.append_assoc] at heq
    obtain ⟨m, rfl⟩ := exists_append_of_append_eq heq
      (fun e he ↦ (List.mem_append.1 he).elim (hpart e) (hfront e)) hr'
    exact hdigits' c (by simp [hc])
  cases hu with
  | symbol hk =>
    exact absurd ((TokenKind.soft_symbol hk).append (TokenKind.symbol_ne_nil hk) s).firm hfirm
  | string => exact absurd (firm_cons_iff.2 (by decide)) hfirm
  | @hexNumber digits _ _ hmore =>
    have hx := @hall ['0', 'x'] (digits ++ s) rfl (by decide) 'x' (by simp)
    exact absurd hx (by decide)
  | number _ hmore => exact ⟨rfl, hall rfl fun c hc ↦ isIdentifierPart_of_isDigit (hmore c hc)⟩
  | word hc _ htail =>
    refine ⟨rfl, hall rfl ?_⟩
    simp only [List.mem_cons, forall_eq_or_imp]
    exact ⟨isIdentifierPart_of_isIdentifierStart hc, htail⟩
  | @hash _ frame _ _ hframe =>
    have hfirst := @hall frame ('"' :: v ++ ['"'] ++ s) (by simp)
    rcases TokenKind.eq_of_ofFrame? hframe with ⟨rfl, -⟩ | ⟨rfl, -⟩
    · exact absurd (hfirst (by decide) 's' (by simp)) (by decide)
    · exact absurd (hfirst (by decide) 't' (by simp)) (by decide)

/-- A text with a quote in front begins with a string. -/
theorem Pieced.exists_string (h : Pieced s ws) (hs : s.head? = some '"') :
    ∃ inner r ws', s = '"' :: inner ++ ['"'] ++ r ∧ ws = (.string, '"' :: inner ++ ['"']) :: ws' ∧
      closeString (inner ++ ['"']) = some (inner, []) ∧ Pieced r ws' := by
  cases h with
  | nil => cases hs
  | @gap u s _ hu =>
    have hquote := (hu.soft_of_gap.append hu.text_ne_nil s) '"' hs
    exact absurd rfl hquote.2.1
  | @token k v u s ws hu _ hrest =>
    cases hu with
    | symbol hk =>
      have hquote := ((TokenKind.soft_symbol hk).append (TokenKind.symbol_ne_nil hk) s) '"' hs
      exact absurd rfl hquote.2.1
    | @string inner _ hinner => exact ⟨inner, s, ws, rfl, rfl, hinner, hrest⟩
    | hexNumber => cases hs
    | number hne hdigits =>
      obtain ⟨d, u, rfl⟩ := List.exists_cons_of_ne_nil hne
      obtain rfl : d = '"' := by simpa using hs
      exact absurd (hdigits '"' (by simp)) (by decide)
    | word hc =>
      obtain rfl := Option.some.inj hs
      exact absurd hc (by decide)
    | hash hframe =>
      rcases TokenKind.eq_of_ofFrame? hframe with ⟨rfl, -⟩ | ⟨rfl, -⟩ <;> cases hs

/-- A framing word with a quote behind it begins a hash literal, which takes in the string. -/
theorem Pieced.exists_hash {w : Text} (hframe : (TokenKind.ofFrame? w).isSome) (h : Pieced s ws)
    (hs : s.head? = some '"') :
    ∃ k inner r ws', TokenKind.ofFrame? w = some k ∧ TokenKind.ofWord w = .identifier ∧
      s = '"' :: inner ++ ['"'] ++ r ∧ ws = (.string, '"' :: inner ++ ['"']) :: ws' ∧
      Spelling (.token k inner) (w ++ '"' :: inner ++ ['"']) r ∧ Pieced r ws' := by
  obtain ⟨k, hk⟩ := Option.isSome_iff_exists.1 hframe
  obtain ⟨inner, r, ws', rfl, rfl, hinner, hr⟩ := h.exists_string hs
  have hword : TokenKind.ofWord w = .identifier := by
    rcases TokenKind.eq_of_ofFrame? hk with ⟨rfl, -⟩ | ⟨rfl, -⟩ <;> rfl
  exact ⟨k, inner, r, ws', hk, hword, rfl, rfl, .hash hk hinner, hr⟩

/-- A hexadecimal number that runs on into the next piece becomes one number with it. -/
theorem Pieced.exists_digits {digits : Text} (hne : digits ≠ [])
    (hdigits : ∀ c ∈ digits, isHexDigit c = true) (h : Pieced s ws) (hfirm : ¬ Firm s)
    (hlex : Lexes ('0' :: 'x' :: (digits ++ s)) vs) :
    ∃ k w ws', ws = (k, w) :: ws' ∧ (∀ c ∈ w, isHexDigit c = true) ∧
      Pieced ('0' :: 'x' :: (digits ++ s)) ((.number, '0' :: 'x' :: (digits ++ w)) :: ws') := by
  cases h with
  | nil => exact absurd firm_nil hfirm
  | @gap g s _ hg => exact absurd (hg.soft_of_gap.append hg.text_ne_nil s).firm hfirm
  | @token k w u s ws hu _ hrest =>
    obtain ⟨rfl, hmore⟩ := hu.isHexDigit_of_lexes hdigits hfirm hlex
    have hall : ∀ c ∈ digits ++ w, isHexDigit c = true :=
      fun c hc ↦ (List.mem_append.1 hc).elim (hdigits c) (hmore c)
    have hjoined : Spelling (.token .number ('0' :: 'x' :: (digits ++ w)))
        ('0' :: 'x' :: (digits ++ w)) [] := .hexNumber (by simp [hne]) hall (by simp)
    have hpieced := Pieced.token hjoined (fun _ ↦ .inr ⟨_, rfl⟩) hrest
    exact ⟨k, w, ws, rfl, hmore, by simpa using hpieced⟩

/-- **The lexer finds the pieces again**, except for those that it joins in one of two ways. -/
theorem Pieced.coarsens (h : Pieced s ws) (hlex : Lexes s vs) : Coarsens ws vs := by
  -- joining digits to a number leaves the text alone and makes the list of pieces shorter
  induction hn : s.length + ws.length using Nat.strong_induction_on generalizing s ws vs with
  | _ n ih =>
    cases h with
    | nil =>
      generalize hs : ([] : Text) = s at hlex
      cases hlex with
      | nil => exact .nil
      | cons hu => exact absurd (List.append_eq_nil_iff.1 hs.symm).1 hu.text_ne_nil
    | @gap u s ws hu hrest =>
      obtain ⟨vs, rfl, hafter⟩ := hlex.exists_rest hu
      have hlength := List.length_pos_iff.2 hu.text_ne_nil
      exact ih (s.length + ws.length) (by simp at hn; omega) hrest hafter rfl
    | @token k v u s ws hu hseam hrest =>
      have hlength := List.length_pos_iff.2 hu.text_ne_nil
      have hsame : Spelling (.token k v) u s → Coarsens ((k, v) :: ws) vs := by
        intro hspell
        obtain ⟨vs, rfl, hafter⟩ := hlex.exists_rest hspell
        exact .same (ih (s.length + ws.length) (by simp at hn; omega) hrest hafter rfl)
      cases hu with
      | symbol hk => exact hsame (.symbol hk fun _ ↦ hrest.head?_ne_equals)
      | string hinner => exact hsame (.string hinner)
      | hash hframe hinner => exact hsame (.hash hframe hinner)
      | number hne hdigits =>
        refine hsame (.number hne hdigits ((hseam rfl).resolve_right ?_))
        rintro ⟨digits, rfl⟩
        exact absurd (hdigits 'x' (by simp)) (by decide)
      | @word c tail _ hc hdigit htail =>
        have hfirm : Firm s := by
          refine (hseam (TokenKind.runsOn_ofWord _)).resolve_right ?_
          rintro ⟨digits, heq⟩
          obtain ⟨rfl, -⟩ := List.cons.inj heq
          exact absurd hdigit (by decide)
        by_cases hquote : (TokenKind.ofFrame? (c :: tail)).isSome ∧ s.head? = some '"'
        · obtain ⟨k, inner, r, ws, hframe, hword, rfl, rfl, hspell, hr⟩ :=
            hrest.exists_hash hquote.1 hquote.2
          obtain ⟨vs, rfl, hafter⟩ := Lexes.exists_rest hspell (by simpa using hlex)
          rw [hword]
          exact .frame hframe (ih (r.length + ws.length) (by simp at hn; omega) hr hafter rfl)
        · refine hsame (.word hc hdigit htail hfirm fun hframe d hd heq ↦ hquote ⟨hframe, ?_⟩)
          rw [← heq]
          exact hd
      | @hexNumber digits _ hne hdigits =>
        by_cases hfirm : Firm s
        · exact hsame (.hexNumber hne hdigits hfirm)
        · obtain ⟨k, w, ws, rfl, hmore, hpieced⟩ := hrest.exists_digits hne hdigits hfirm hlex
          exact .digits hmore (ih (n - 1) (by simp at hn; omega) hpieced hlex
            (by simp at hn ⊢; omega))

/-! ### What is untouched -/

/-- Where two readings can be next to each other. -/
theorem pair_infix_cons_iff {z : TokenKind × Text} :
    [x, y] <:+: z :: ws ↔ (x = z ∧ ws.head? = some y) ∨ [x, y] <:+: ws := by
  rw [List.infix_cons_iff, List.cons_prefix_cons]
  cases ws with
  | nil => simp
  | cons w ws => simp [eq_comm]

theorem infix_of_notMem (h : [x, y] <:+: vs ++ ws) (hx : x ∉ vs) : [x, y] <:+: ws := by
  induction vs with
  | nil => exact h
  | cons z vs ih =>
    rcases pair_infix_cons_iff.1 h with ⟨rfl, -⟩ | h
    · simp at hx
    · exact ih h fun hmem ↦ hx (by simp [hmem])

theorem infix_of_append_singleton {z : TokenKind × Text} (h : [x, y] <:+: ws ++ [z]) (hy : y ≠ z) :
    [x, y] <:+: ws := by
  induction ws with
  | nil => simpa using h.length_le
  | cons w ws ih =>
    rcases pair_infix_cons_iff.1 h with ⟨rfl, hhead⟩ | h
    · cases ws with
      | nil => exact absurd (Option.some.inj hhead).symm hy
      | cons => exact pair_infix_cons_iff.2 (.inl ⟨rfl, hhead⟩)
    · exact pair_infix_cons_iff.2 (.inr (ih h))

namespace Coarsens

/-- A name that is read was put there. -/
theorem mem_left (h : Coarsens ws vs) (hx : x.1 = .identifier) (hmem : x ∈ vs) : x ∈ ws := by
  induction h with
  | nil => exact hmem
  | same _ ih =>
    rcases List.mem_cons.1 hmem with rfl | hmem
    · exact List.mem_cons_self
    · exact List.mem_cons_of_mem _ (ih hmem)
  | digits _ _ ih =>
    rcases List.mem_cons.1 (ih hmem) with rfl | hmem
    · cases hx
    · exact List.mem_cons_of_mem _ (List.mem_cons_of_mem _ hmem)
  | frame hw _ ih =>
    rcases List.mem_cons.1 hmem with rfl | hmem
    · rcases TokenKind.eq_of_ofFrame? hw with ⟨-, rfl⟩ | ⟨-, rfl⟩ <;> cases hx
    · exact List.mem_cons_of_mem _ (List.mem_cons_of_mem _ (ih hmem))

/-- A name is read again, unless it could be digits or frame a literal. -/
theorem mem_right (h : Coarsens ws vs) (hx : x.1 = .identifier)
    (hdigit : ∃ c ∈ x.2, isHexDigit c = false) (hframe : TokenKind.ofFrame? x.2 = none)
    (hmem : x ∈ ws) : x ∈ vs := by
  induction h with
  | nil => exact hmem
  | same _ ih =>
    rcases List.mem_cons.1 hmem with rfl | hmem
    · exact List.mem_cons_self
    · exact List.mem_cons_of_mem _ (ih hmem)
  | digits hw _ ih =>
    rcases List.mem_cons.1 hmem with rfl | hmem
    · cases hx
    rcases List.mem_cons.1 hmem with rfl | hmem
    · obtain ⟨c, hc, hfalse⟩ := hdigit
      rw [hw c hc] at hfalse
      cases hfalse
    · exact ih (List.mem_cons_of_mem _ hmem)
  | frame hw _ ih =>
    rcases List.mem_cons.1 hmem with rfl | hmem
    · rw [hw] at hframe
      cases hframe
    rcases List.mem_cons.1 hmem with rfl | hmem
    · cases hx
    · exact List.mem_cons_of_mem _ (ih hmem)

/-- A token that is read was put there, or it is a number or a literal that was joined. -/
theorem kind_cases (h : Coarsens ws vs) (hmem : x ∈ vs) :
    (∃ y ∈ ws, y.1 = x.1) ∨ x.1 = .number ∨ x.1.isHash = true := by
  induction h with
  | nil => cases hmem
  | same _ ih =>
    rcases List.mem_cons.1 hmem with rfl | hmem
    · exact .inl ⟨_, by simp, rfl⟩
    · exact (ih hmem).imp_left fun ⟨y, hy, hkind⟩ ↦ ⟨y, by simp [hy], hkind⟩
  | digits _ _ ih =>
    refine (ih hmem).elim (fun ⟨y, hy, hkind⟩ ↦ ?_) .inr
    rcases List.mem_cons.1 hy with rfl | hy
    · exact .inr (.inl hkind.symm)
    · exact .inl ⟨y, by simp [hy], hkind⟩
  | frame hw _ ih =>
    rcases List.mem_cons.1 hmem with rfl | hmem
    · exact .inr (.inr (TokenKind.frame?_of_ofFrame? hw).2)
    · exact (ih hmem).imp_left fun ⟨y, hy, hkind⟩ ↦ ⟨y, by simp [hy], hkind⟩

/-- A parenthesis in front comes from a parenthesis. -/
theorem head?_left (h : Coarsens ws vs) (hy : vs.head? = some y) (hk : y.1 = .openParen) :
    ws.head? = some y := by
  induction h with
  | nil => exact hy
  | same => exact hy
  | digits _ _ ih =>
    obtain rfl := Option.some.inj (ih hy)
    cases hk
  | frame hw =>
    obtain rfl := Option.some.inj hy
    rcases TokenKind.eq_of_ofFrame? hw with ⟨-, rfl⟩ | ⟨-, rfl⟩ <;> cases hk

/-- A name in front that frames no literal is found again. -/
theorem head?_right (h : Coarsens ws vs) (hy : ws.head? = some y) (hk : y.1 = .identifier)
    (hframe : TokenKind.ofFrame? y.2 = none) : vs.head? = some y := by
  cases h with
  | nil => exact hy
  | same => exact hy
  | digits =>
    obtain rfl := Option.some.inj hy
    cases hk
  | frame hw =>
    obtain rfl := Option.some.inj hy
    rw [hw] at hframe
    cases hframe

/-- **A name with a parenthesis behind it** was put there as these two pieces. -/
theorem infix_left (h : Coarsens ws vs) (hx : x.1 = .identifier) (hy : y.1 = .openParen)
    (hxy : [x, y] <:+: vs) : [x, y] <:+: ws := by
  induction h with
  | nil => exact hxy
  | same h ih =>
    rcases pair_infix_cons_iff.1 hxy with ⟨rfl, hhead⟩ | hxy
    · exact pair_infix_cons_iff.2 (.inl ⟨rfl, h.head?_left hhead hy⟩)
    · exact pair_infix_cons_iff.2 (.inr (ih hxy))
  | digits _ _ ih =>
    rcases pair_infix_cons_iff.1 (ih hxy) with ⟨rfl, -⟩ | hxy
    · cases hx
    · exact pair_infix_cons_iff.2 (.inr (pair_infix_cons_iff.2 (.inr hxy)))
  | frame hw _ ih =>
    rcases pair_infix_cons_iff.1 hxy with ⟨rfl, -⟩ | hxy
    · rcases TokenKind.eq_of_ofFrame? hw with ⟨-, rfl⟩ | ⟨-, rfl⟩ <;> cases hx
    · exact pair_infix_cons_iff.2 (.inr (pair_infix_cons_iff.2 (.inr (ih hxy))))

/-- **A keyword with a name behind it** is read again, unless the keyword could be digits or the
name could frame a literal. -/
theorem infix_right (h : Coarsens ws vs) (hx : x.1 = .functionWord)
    (hdigit : ∃ c ∈ x.2, isHexDigit c = false) (hy : y.1 = .identifier)
    (hframe : TokenKind.ofFrame? y.2 = none) (hxy : [x, y] <:+: ws) : [x, y] <:+: vs := by
  induction h with
  | nil => exact hxy
  | same h ih =>
    rcases pair_infix_cons_iff.1 hxy with ⟨rfl, hhead⟩ | hxy
    · exact pair_infix_cons_iff.2 (.inl ⟨rfl, h.head?_right hhead hy hframe⟩)
    · exact pair_infix_cons_iff.2 (.inr (ih hxy))
  | digits hw _ ih =>
    rcases pair_infix_cons_iff.1 hxy with ⟨rfl, -⟩ | hxy
    · cases hx
    rcases pair_infix_cons_iff.1 hxy with ⟨rfl, -⟩ | hxy
    · obtain ⟨c, hc, hfalse⟩ := hdigit
      rw [hw c hc] at hfalse
      cases hfalse
    · exact ih (pair_infix_cons_iff.2 (.inr hxy))
  | frame _ _ ih =>
    rcases pair_infix_cons_iff.1 hxy with ⟨rfl, -⟩ | hxy
    · cases hx
    rcases pair_infix_cons_iff.1 hxy with ⟨rfl, -⟩ | hxy
    · cases hx
    · exact pair_infix_cons_iff.2 (.inr (ih hxy))

end Coarsens

end

end YulPlus
