import YulPlus.Lowering.Bracket

/-!
# Well-nested token lists

`WellNested` is the language of brackets: braces and parentheses in pairs, one kind never crossing
the other. The check that lowering makes with a stack accepts exactly this language
(`checkBrackets_eq_ok_iff`), and inside it counting braces alone finds the partner of a brace
(`closeBlock_append`).

The partner of a bracket is unique: a well-nested list cannot be continued by a closing bracket and
stay well nested (`WellNested.not_append_closing`), so two well-nested insides of the same bracket
are the same (`WellNested.partner_unique`).
-/

namespace YulPlus

/-- Braces and parentheses stand in matching pairs and do not cross. -/
inductive WellNested : List Token → Prop
  | nil : WellNested []
  | other {t : Token} {ts : List Token} (hopen : t.kind.isOpening = false)
      (hclose : t.kind.opening? = none) (hts : WellNested ts) : WellNested (t :: ts)
  | pair {o c : Token} {inner ts : List Token} (hopen : o.kind.isOpening = true)
      (hclose : c.kind.opening? = some o.kind) (hinner : WellNested inner) (hts : WellNested ts) :
      WellNested (o :: inner ++ c :: ts)

/-- The brackets of the list close those on the stack, innermost first, and nothing else is left
over: a well-nested list in front of each of the closing brackets and behind the last one. -/
inductive ClosesStack : List Token → List Token → Prop
  | nil {ts : List Token} (h : WellNested ts) : ClosesStack [] ts
  | cons {top c : Token} {stack inner ts : List Token} (hinner : WellNested inner)
      (hclose : c.kind.opening? = some top.kind) (hts : ClosesStack stack ts) :
      ClosesStack (top :: stack) (inner ++ c :: ts)

namespace TokenKind

theorem isOpening_of_opening? {k o : TokenKind} (h : k.opening? = some o) :
    o.isOpening = true ∧ k.isOpening = false := by
  cases k <;> simp [opening?] at h <;> subst h <;> decide

end TokenKind

/-! ### The check with a stack -/

section Stack

variable {stack tokens rest : List Token} {t : Token}

theorem checkBrackets_other (hopen : t.kind.isOpening = false) (hclose : t.kind.opening? = none) :
    checkBrackets stack (t :: rest) = checkBrackets stack rest := by
  cases stack <;> simp [checkBrackets, hopen, hclose]

theorem checkBrackets_opening (hopen : t.kind.isOpening = true) :
    checkBrackets stack (t :: rest) = checkBrackets (t :: stack) rest := by
  have hclose : t.kind.opening? = none := by
    revert hopen
    cases t.kind <;> decide
  cases stack <;> simp [checkBrackets, hopen, hclose]

theorem checkBrackets_closing {top : Token} (hclose : t.kind.opening? = some top.kind) :
    checkBrackets (top :: stack) (t :: rest) = checkBrackets stack rest := by
  simp [checkBrackets, hclose]

/-- A well-nested list leaves the stack as it was. -/
theorem WellNested.checkBrackets_append (h : WellNested tokens) (stack rest : List Token) :
    checkBrackets stack (tokens ++ rest) = checkBrackets stack rest := by
  induction h generalizing stack rest with
  | nil => rfl
  | other hopen hclose _ ih => rw [List.cons_append, checkBrackets_other hopen hclose, ih]
  | @pair o c inner ts hopen hclose _ _ ihinner ihts =>
    rw [List.append_assoc, List.cons_append, checkBrackets_opening hopen, ihinner, List.cons_append,
      checkBrackets_closing hclose, ihts]

theorem ClosesStack.other (hopen : t.kind.isOpening = false) (hclose : t.kind.opening? = none)
    (h : ClosesStack stack rest) : ClosesStack stack (t :: rest) := by
  cases h with
  | nil h => exact .nil (.other hopen hclose h)
  | cons hinner hc hts => exact .cons (.other hopen hclose hinner) hc hts

theorem ClosesStack.opening (hopen : t.kind.isOpening = true)
    (h : ClosesStack (t :: stack) rest) : ClosesStack stack (t :: rest) := by
  cases h with
  | @cons _ c _ inner ts hinner hc hts =>
    -- the pair of `t` stands in front of what closes the rest of the stack
    cases hts with
    | nil hts => exact .nil (.pair hopen hc hinner hts)
    | @cons top' c' _ inner' ts' hinner' hc' hts' =>
      have := ClosesStack.cons (.pair hopen hc hinner hinner') hc' hts'
      simpa using this

theorem closesStack_of_checkBrackets (h : checkBrackets stack tokens = .ok ()) :
    ClosesStack stack tokens := by
  fun_induction checkBrackets stack tokens with
  | case1 => exact .nil .nil
  | case2 => cases h
  | case3 => cases h
  | case4 t rest top below hclose ih => exact .cons .nil hclose (ih h)
  | case5 => cases h
  | case6 stack t rest hclose hopen ih => exact .opening hopen (ih h)
  | case7 stack t rest hclose hopen ih => exact .other (by simpa using hopen) hclose (ih h)

theorem ClosesStack.checkBrackets_eq (h : ClosesStack stack tokens) :
    checkBrackets stack tokens = .ok () := by
  induction h with
  | @nil ts h => rw [← List.append_nil ts, h.checkBrackets_append, checkBrackets_nil]
  | cons hinner hclose _ ih => rw [hinner.checkBrackets_append, checkBrackets_closing hclose, ih]

theorem checkBrackets_eq_ok_iff_closesStack :
    checkBrackets stack tokens = .ok () ↔ ClosesStack stack tokens :=
  ⟨closesStack_of_checkBrackets, ClosesStack.checkBrackets_eq⟩

/-- **The check accepts exactly the well-nested lists.** -/
theorem checkBrackets_eq_ok_iff : checkBrackets [] tokens = .ok () ↔ WellNested tokens := by
  rw [checkBrackets_eq_ok_iff_closesStack]
  exact ⟨fun h ↦ by cases h; assumption, .nil⟩

end Stack

namespace WellNested

variable {a b inner inner' before rest rest' : List Token} {o c c' : Token}

theorem append_iff (ha : WellNested a) : WellNested (a ++ b) ↔ WellNested b := by
  rw [← checkBrackets_eq_ok_iff, ← checkBrackets_eq_ok_iff, ha.checkBrackets_append]

/-- Behind a well-nested list no closing bracket can follow. -/
theorem not_append_closing (ha : WellNested a) (hc : c.kind.opening? ≠ none) :
    ¬ WellNested (a ++ c :: rest) := by
  rw [ha.append_iff]
  intro h
  cases h with
  | other _ hclose => exact hc hclose
  | pair hopen =>
    obtain ⟨k, hk⟩ := Option.ne_none_iff_exists'.1 hc
    simp [(TokenKind.isOpening_of_opening? hk).2] at hopen

/-- The inside of a bracket and the partner that closes it are determined. -/
theorem partner_unique (h : WellNested inner) (h' : WellNested inner')
    (hc : c.kind.opening? ≠ none) (hc' : c'.kind.opening? ≠ none)
    (heq : inner ++ c :: rest = inner' ++ c' :: rest') :
    inner = inner' ∧ c = c' ∧ rest = rest' := by
  rcases List.append_eq_append_iff.1 heq with ⟨as, rfl, has⟩ | ⟨as, rfl, has⟩
  · cases as with
    | nil => simpa using has
    | cons d as =>
      obtain ⟨rfl, -⟩ := List.cons.inj has
      exact absurd h' (h.not_append_closing hc)
  · cases as with
    | nil => simpa [eq_comm] using has
    | cons d as =>
      obtain ⟨rfl, -⟩ := List.cons.inj has
      exact absurd h (h'.not_append_closing hc')

end WellNested

/-! ### Lists inside a well-nested list -/

/-- The list closes whatever brackets are open in front of it. The rests of a well-nested list are
of this kind. -/
def ClosesSome (tokens : List Token) : Prop :=
  ∃ stack, ClosesStack stack tokens

theorem WellNested.closesSome {tokens : List Token} (h : WellNested tokens) : ClosesSome tokens :=
  ⟨[], .nil h⟩

namespace ClosesSome

variable {before rest : List Token} {t o : Token}

theorem tail (h : ClosesSome (t :: rest)) : ClosesSome rest := by
  obtain ⟨stack, h⟩ := h
  -- which brackets are open behind `t` is what the check says
  rw [← checkBrackets_eq_ok_iff_closesStack] at h
  rcases hclose : t.kind.opening? with - | k
  · rcases hopen : t.kind.isOpening with - | -
    · rw [checkBrackets_other hopen hclose] at h
      exact ⟨stack, closesStack_of_checkBrackets h⟩
    · rw [checkBrackets_opening hopen] at h
      exact ⟨t :: stack, closesStack_of_checkBrackets h⟩
  · rcases stack with - | ⟨top, below⟩
    · simp [checkBrackets, hclose] at h
    · simp only [checkBrackets, hclose] at h
      split at h
      · exact ⟨below, closesStack_of_checkBrackets h⟩
      · cases h

theorem of_append (h : ClosesSome (before ++ rest)) : ClosesSome rest := by
  induction before with
  | nil => exact h
  | cons t before ih => exact ih h.tail

/-- Every opening bracket has a partner. -/
theorem exists_partner (h : ClosesSome (o :: rest)) (ho : o.kind.isOpening = true) :
    ∃ inner c after, rest = inner ++ c :: after ∧ WellNested inner ∧
      c.kind.opening? = some o.kind := by
  obtain ⟨stack, h⟩ := h
  rw [← checkBrackets_eq_ok_iff_closesStack, checkBrackets_opening ho] at h
  cases closesStack_of_checkBrackets h with
  | cons hinner hclose _ => exact ⟨_, _, _, rfl, hinner, hclose⟩

end ClosesSome

/-! ### Counting braces -/

theorem TokenKind.opening?_eq_openBrace {k : TokenKind} :
    k.opening? = some .openBrace ↔ k = .closeBrace := by
  cases k <;> decide

section Count

variable {depth : Nat} {t c : Token} {inner rest after : List Token}

theorem closeBlock_openBrace (h : t.kind = .openBrace) :
    closeBlock depth (t :: rest) =
      (closeBlock (depth + 1) rest).map fun (body, c, after) ↦ (t :: body, c, after) := by
  rw [closeBlock.eq_def]
  simp [h]

theorem closeBlock_closeBrace (h : t.kind = .closeBrace) :
    closeBlock (depth + 1) (t :: rest) =
      (closeBlock depth rest).map fun (body, c, after) ↦ (t :: body, c, after) := by
  rw [closeBlock.eq_def]
  simp [h]

theorem closeBlock_other (hopen : t.kind ≠ .openBrace) (hclose : t.kind ≠ .closeBrace) :
    closeBlock depth (t :: rest) =
      (closeBlock depth rest).map fun (body, c, after) ↦ (t :: body, c, after) := by
  rw [closeBlock.eq_def]
  simp [hopen, hclose]

/-- Counting braces passes over a well-nested list. -/
theorem closeBlock_append (h : WellNested inner) (depth : Nat) (rest : List Token) :
    closeBlock depth (inner ++ rest) =
      (closeBlock depth rest).map fun (body, c, after) ↦ (inner ++ body, c, after) := by
  induction h generalizing depth rest with
  | nil => simp
  | @other t ts hopen hclose _ ih =>
    have hne : t.kind ≠ .openBrace ∧ t.kind ≠ .closeBrace := by
      constructor
      · intro hk
        simp [hk, TokenKind.isOpening] at hopen
      · intro hk
        simp [hk, TokenKind.opening?] at hclose
    rw [List.cons_append, closeBlock_other hne.1 hne.2, ih, Option.map_map]
    rfl
  | @pair o c inner ts hopen hclose _ _ ihinner ihts =>
    rw [List.append_assoc, List.cons_append]
    -- parentheses are passed over one by one; a brace raises the count for the inside
    have hkind : o.kind = .openBrace ∧ c.kind = .closeBrace ∨
        o.kind = .openParen ∧ c.kind = .closeParen := by
      revert hopen hclose
      cases o.kind <;> cases c.kind <;> decide
    rcases hkind with ⟨ho, hc⟩ | ⟨ho, hc⟩
    · rw [closeBlock_openBrace ho, ihinner, List.cons_append, closeBlock_closeBrace hc, ihts]
      simp [Option.map_map, Function.comp_def]
    · rw [closeBlock_other (by simp [ho]) (by simp [ho]), ihinner, List.cons_append,
        closeBlock_other (by simp [hc]) (by simp [hc]), ihts]
      simp [Option.map_map, Function.comp_def]

/-- **The partner of a brace.** Counting braces finds the brace that closes a well-nested inside. -/
theorem closeBlock_of_wellNested (h : WellNested inner) (hc : c.kind = .closeBrace) :
    closeBlock 0 (inner ++ c :: after) = some (inner, c, after) := by
  rw [closeBlock_append h, closeBlock.eq_def]
  simp [hc]

end Count

end YulPlus
