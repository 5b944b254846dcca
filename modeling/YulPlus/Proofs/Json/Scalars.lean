import YulPlus.Proofs.Json.Strings

/-!
# Scalars in JSON

A text spells tokens if these are cut from it in front of whatever may follow (`Spells`). Only a
number can run on into what follows, so what follows must not begin with a digit, a point or the
letter of an exponent (`Ends`). Words, integers and strings are spelled as they are written. -/

namespace YulPlus

open Text

namespace Json

/-- The text may follow a number. -/
def Ends (s : Text) : Prop :=
  ∀ c ∈ s.head?, isAsciiDigit c = false ∧ c ≠ '.' ∧ c ≠ 'e' ∧ c ≠ 'E'

/-- The tokens of the text are these, in front of any text that may follow a number. -/
def Spells (limit : Option Nat) (s : Text) (ts : List Token) : Prop :=
  ∀ rest ts', Ends rest → tokens? limit rest = some ts' →
    tokens? limit (s ++ rest) = some (ts ++ ts')

section

variable {limit : Option Nat} {s s' rest after : Text} {t : Token} {ts ts' : List Token} {c : Char}
  {n : Nat}

theorem ends_nil : Ends [] := by
  simp [Ends]

theorem ends_cons : Ends (c :: s) ↔ isAsciiDigit c = false ∧ c ≠ '.' ∧ c ≠ 'e' ∧ c ≠ 'E' := by
  simp [Ends]

/-- Space may follow a number, and so may what follows a number behind it. -/
theorem ends_append_of_isSpace {gap : Text} (hgap : ∀ c ∈ gap, isSpace c = true) (h : Ends s) :
    Ends (gap ++ s) := by
  cases gap with
  | nil => exact h
  | cons c gap =>
    have hc : isSpace c = true := hgap c List.mem_cons_self
    simp only [isSpace, Bool.or_eq_true, decide_eq_true_eq] at hc
    refine ends_cons.mpr ?_
    rcases hc with ((rfl | rfl) | rfl) | rfl <;> decide

/-! ### Texts that spell tokens -/

theorem tokens?_eq_of_token? (hspace : isSpace c = false)
    (h : token? limit (c :: s) = some (t, rest)) :
    tokens? limit (c :: s) = (tokens? limit rest).map (t :: ·) := by
  rw [tokens?]
  simp only [hspace, Bool.false_eq_true, if_false]
  split
  · next h' => cases h.symm.trans h'
  · next h' =>
    cases h.symm.trans h'
    rfl

namespace Spells

theorem nil : Spells limit [] [] :=
  fun _ _ _ h ↦ h

/-- What cannot run on from a text may follow it. -/
theorem append (h : Spells limit s ts) (h' : Spells limit s' ts')
    (hends : ∀ rest, Ends rest → Ends (s' ++ rest)) : Spells limit (s ++ s') (ts ++ ts') := by
  intro rest more hrest htokens
  rw [List.append_assoc, List.append_assoc]
  exact h _ _ (hends rest hrest) (h' rest more hrest htokens)

/-- A token that is cut from the text in front of whatever may follow a number. -/
theorem of_token? (hspace : isSpace c = false)
    (h : ∀ rest, Ends rest → token? limit (c :: (s ++ rest)) = some (t, rest)) :
    Spells limit (c :: s) [t] := by
  intro rest more hrest htokens
  rw [List.cons_append, tokens?_eq_of_token? hspace (h rest hrest), htokens]
  rfl

/-- A mark is a token in front of anything. -/
theorem mark (hspace : isSpace c = false) (h : ∀ rest, token? limit (c :: rest) = some (t, rest))
    (hs : Spells limit s ts) : Spells limit (c :: s) (t :: ts) := by
  intro rest more hrest htokens
  rw [List.cons_append, tokens?_eq_of_token? hspace (h _), hs rest more hrest htokens]
  rfl

/-- Space is passed over. -/
theorem skip {gap : Text} (hgap : ∀ c ∈ gap, isSpace c = true) (h : Spells limit s ts) :
    Spells limit (gap ++ s) ts := by
  induction gap with
  | nil => exact h
  | cons c gap ih =>
    intro rest more hrest htokens
    have hc : isSpace c = true := hgap c List.mem_cons_self
    rw [List.cons_append, List.cons_append, tokens?, if_pos hc]
    exact ih (fun d hd ↦ hgap d (List.mem_cons_of_mem c hd)) rest more hrest htokens

/-- A string between its quotes. -/
theorem text {plain : Char → Bool} (hplain : ∀ c, plain c = true → 0x20 ≤ c.toNat) (s : Text) :
    Spells limit (encodeString plain s) [.scalar (.text s)] := by
  refine of_token? (by decide) fun rest _ ↦ ?_
  have hstring := stringFrom_flatMap_encodeChar hplain s rest
  simp [token?, hstring]

end Spells

/-! ### Words and numbers -/

theorem token?_of_not_mem (hc : c ∉ ['\x7b', '\x7d', '[', ']', ',', ':', '"']) :
    token? limit (c :: s) = (word? (c :: s)).elim
      (if c = '-' then number? limit true s else number? limit false (c :: s))
      fun (scalar, after) ↦ some (.scalar scalar, after) := by
  simp only [List.mem_cons, List.not_mem_nil, or_false, not_or] at hc
  rw [token?]
  · cases word? (c :: s) <;> rfl
  all_goals simp [hc]

theorem spells_null : Spells limit "null".toList [.scalar .null] := by
  show Spells limit ('n' :: ['u', 'l', 'l']) _
  refine .of_token? (by decide) fun rest _ ↦ ?_
  rw [token?_of_not_mem (by decide)]
  simp [word?, scalarWords, dropHead?]

theorem spells_bool (b : Bool) :
    Spells limit (if b then "true".toList else "false".toList) [.scalar (.bool b)] := by
  cases b with
  | false =>
    show Spells limit ('f' :: ['a', 'l', 's', 'e']) _
    refine .of_token? (by decide) fun rest _ ↦ ?_
    rw [token?_of_not_mem (by decide)]
    simp [word?, scalarWords, dropHead?]
  | true =>
    show Spells limit ('t' :: ['r', 'u', 'e']) _
    refine .of_token? (by decide) fun rest _ ↦ ?_
    rw [token?_of_not_mem (by decide)]
    simp [word?, scalarWords, dropHead?]

theorem isAsciiDigit_of_isDigit (h : c.isDigit = true) : isAsciiDigit c = true := by
  simpa [isAsciiDigit, Char.isDigit, Char.le_def] using h

theorem isAsciiDigit_of_mem_toDigits (h : c ∈ Nat.toDigits 10 n) : isAsciiDigit c = true :=
  isAsciiDigit_of_isDigit (Nat.isDigit_of_mem_toDigits (by decide) (by decide) h)

theorem numberOfAscii_toDigits (n : Nat) : numberOfAscii (Nat.toDigits 10 n) = n :=
  numberOf_toDigits (by decide) (by decide) n

/-- Digits end where something begins that may follow a number. -/
theorem integerDigits_toDigits (n : Nat) (h : Ends rest) :
    integerDigits (Nat.toDigits 10 n ++ rest) = Nat.toDigits 10 n := by
  have htake : (Nat.toDigits 10 n ++ rest).takeWhile isAsciiDigit = Nat.toDigits 10 n := by
    rw [List.takeWhile_append_of_pos fun c hc ↦ isAsciiDigit_of_mem_toDigits hc]
    cases rest with
    | nil => simp
    | cons c rest => simp [(ends_cons.mp h).1]
  rcases Nat.eq_zero_or_pos n with rfl | hpos
  · rfl
  · have hhead := head?_toDigits_ne_zero hpos
    unfold integerDigits
    split
    · next heq =>
      rw [← List.head?_append_of_ne_nil _ Nat.toDigits_ne_nil, heq] at hhead
      exact absurd rfl hhead
    · exact htake

/-- The digits of an integer are cut off as one token, after the sign. -/
theorem number?_digits {digits : Text} (negative : Bool)
    (hdigits : integerDigits (digits ++ rest) = digits) (hne : digits ≠ []) (h : Ends rest) :
    number? limit negative (digits ++ rest) =
      some (if isOversized limit digits then .oversized digits.length
        else .scalar (.int (if negative then -(numberOfAscii digits : Int)
          else numberOfAscii digits)), rest) := by
  have hfraction : fraction rest = ([], rest) := by
    unfold fraction
    split
    · exact absurd rfl (ends_cons.mp h).2.1
    · rfl
  have hexponent : exponent? rest = (none, rest) := by
    unfold exponent?
    split
    · rfl
    · next e signed =>
      obtain ⟨-, -, he, hE⟩ := ends_cons.mp h
      simp [he, hE]
  have hempty : digits.isEmpty = false := by
    simpa using hne
  cases hlimit : isOversized limit digits <;>
    simp [number?, hdigits, hempty, hfraction, hexponent, hlimit]

/-- **An integer is read as it was written**, after its sign. -/
theorem number?_toDigits (negative : Bool) (hlimit : isOversized limit (Nat.toDigits 10 n) = false)
    (h : Ends rest) : number? limit negative (Nat.toDigits 10 n ++ rest) =
      some (.scalar (.int (if negative then -(n : Int) else n)), rest) := by
  rw [number?_digits negative (integerDigits_toDigits n h) Nat.toDigits_ne_nil h]
  simp only [hlimit, numberOfAscii_toDigits, Bool.false_eq_true, if_false]

/-- A number does not begin like a word. -/
theorem word?_eq_none_of_isAsciiDigit (h : isAsciiDigit c = true) :
    word? (c :: s) = none ∧ word? ('-' :: c :: s) = none := by
  have hne : ∀ letter, isAsciiDigit letter = false → letter ≠ c := by
    rintro letter hletter rfl
    simp [h] at hletter
  have hn := hne 'n' (by decide)
  have ht := hne 't' (by decide)
  have hf := hne 'f' (by decide)
  have hN := hne 'N' (by decide)
  have hI := hne 'I' (by decide)
  have hminus := hne '-' (by decide)
  simp [word?, scalarWords, dropHead?, hn, ht, hf, hN, hI, hminus]

/-- A digit is no mark, no minus sign and no space. -/
theorem not_mem_of_isAsciiDigit (h : isAsciiDigit c = true) :
    c ∉ ['\x7b', '\x7d', '[', ']', ',', ':', '"'] ∧ c ≠ '-' ∧ isSpace c = false := by
  have hne : ∀ letter, isAsciiDigit letter = false → c ≠ letter := by
    rintro letter hletter rfl
    simp [h] at hletter
  refine ⟨fun hc ↦ ?_, hne '-' (by decide), ?_⟩
  · have hmarks : ∀ mark ∈ ['\x7b', '\x7d', '[', ']', ',', ':', '"'],
        isAsciiDigit mark = false := by decide
    exact hne c (hmarks c hc) rfl
  · simp [isSpace, hne ' ' (by decide), hne '\t' (by decide), hne '\n' (by decide),
      hne '\r' (by decide)]

/-- **An integer is spelled as one token**, unless the reader takes its digits to be too many. -/
theorem spells_int (n : Int) (hlimit : isOversized limit (Nat.toDigits 10 n.natAbs) = false) :
    Spells limit (toString n).toList [.scalar (.int n)] := by
  obtain ⟨c, digits, hdigits⟩ := List.exists_cons_of_ne_nil
    (Nat.toDigits_ne_nil (b := 10) (n := n.natAbs))
  have hc : isAsciiDigit c = true := isAsciiDigit_of_mem_toDigits (hdigits ▸ List.mem_cons_self)
  rw [Int.toString_eq_repr, Int.repr_eq_if]
  by_cases hn : 0 ≤ n
  · have habs : n.toNat = n.natAbs := by omega
    rw [if_pos hn, Nat.toList_repr, habs, hdigits]
    obtain ⟨hmark, hminus, hspace⟩ := not_mem_of_isAsciiDigit hc
    refine .of_token? hspace fun rest hrest ↦ ?_
    rw [token?_of_not_mem hmark, (word?_eq_none_of_isAsciiDigit hc).1]
    have hnumber := number?_toDigits (n := n.natAbs) false hlimit hrest
    rw [hdigits, List.cons_append] at hnumber
    have hself : (n.natAbs : Int) = n := by omega
    simp only [Option.elim_none, hminus, if_false, hnumber, Bool.false_eq_true, hself]
  · have habs : (-n).toNat = n.natAbs := by omega
    rw [if_neg hn, String.toList_append, Nat.toList_repr, habs, hdigits]
    show Spells limit ('-' :: c :: digits) _
    refine .of_token? (by decide) fun rest hrest ↦ ?_
    rw [token?_of_not_mem (by decide), List.cons_append,
      (word?_eq_none_of_isAsciiDigit hc).2]
    have hnumber := number?_toDigits (n := n.natAbs) true hlimit hrest
    rw [hdigits, List.cons_append] at hnumber
    have hself : -(n.natAbs : Int) = n := by omega
    simp only [Option.elim_none, if_true, hnumber, hself]

/-- **Digits of which the first is no zero are spelled as one token**, an integer unless the reader
takes them to be too many. -/
theorem spells_digits {digits : Text} (hc : isAsciiDigit c = true) (hzero : c ≠ '0')
    (hdigits : ∀ d ∈ digits, isAsciiDigit d = true) :
    Spells limit (c :: digits) [if isOversized limit (c :: digits)
      then .oversized (c :: digits).length else .scalar (.int (numberOfAscii (c :: digits)))] := by
  obtain ⟨hmark, hminus, hspace⟩ := not_mem_of_isAsciiDigit hc
  refine .of_token? hspace fun rest hrest ↦ ?_
  have hall : ∀ d ∈ c :: digits, isAsciiDigit d = true := List.forall_mem_cons.mpr ⟨hc, hdigits⟩
  have hinteger : integerDigits (c :: digits ++ rest) = c :: digits := by
    rw [integerDigits]
    · rw [List.takeWhile_append_of_pos hall]
      cases rest with
      | nil => simp
      | cons d rest => simp [(ends_cons.mp hrest).1]
    · rintro _ h
      cases h
      exact hzero rfl
  rw [token?_of_not_mem hmark, (word?_eq_none_of_isAsciiDigit hc).1]
  simp only [Option.elim_none, hminus, if_false]
  rw [← List.cons_append, number?_digits false hinteger (List.cons_ne_nil _ _) hrest]
  simp only [Bool.false_eq_true, if_false]

end

end Json

end YulPlus
