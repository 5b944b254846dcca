import Mathlib.Data.List.Infix
import YulPlus.Proofs.Signature.Nested

/-!
# Counting parentheses

`Balanced` describes by the shape of a text that its parentheses nest. Here the same is said by
counting: nowhere are more closed than opened, and at the end all are closed (`balanced_iff`). A
comma stands outside of parentheses where the count is zero.

`closeParen` walks with this count. What it cuts off is nested, and behind every nested text it
finds the partner (`closeParen_eq_some_iff`). -/

namespace YulPlus

open Text

/-- What a character adds to the number of open parentheses. -/
def parenWeight (c : Char) : Int :=
  if c = '(' then 1 else if c = ')' then -1 else 0

/-- How many parentheses are open at the end of the text. It is negative if more are closed in it
than opened. -/
def parenDepth : Text → Int
  | [] => 0
  | c :: rest => parenWeight c + parenDepth rest

/-- The parentheses of the text nest: nowhere are more closed than opened, and at the end all are
closed. -/
structure IsNested (s : Text) : Prop where
  depth_eq : parenDepth s = 0
  depth_nonneg : ∀ p, p <+: s → 0 ≤ parenDepth p

/-- A comma stands outside of all parentheses. -/
def HasOuterComma (s : Text) : Prop :=
  ∃ before after, s = before ++ ',' :: after ∧ parenDepth before = 0

section

variable {commas : Bool} {c : Char} {s t p inner after : Text} {depth : Nat}

/-! ### The count -/

@[simp]
theorem parenWeight_open : parenWeight '(' = 1 := rfl

@[simp]
theorem parenWeight_close : parenWeight ')' = -1 := rfl

theorem parenWeight_eq_zero (hopen : c ≠ '(') (hclose : c ≠ ')') : parenWeight c = 0 := by
  rw [parenWeight, if_neg hopen, if_neg hclose]

@[simp]
theorem parenDepth_nil : parenDepth [] = 0 := rfl

@[simp]
theorem parenDepth_cons (c : Char) (s : Text) :
    parenDepth (c :: s) = parenWeight c + parenDepth s := rfl

@[simp]
theorem parenDepth_append (s t : Text) : parenDepth (s ++ t) = parenDepth s + parenDepth t := by
  induction s with
  | nil => rw [List.nil_append, parenDepth_nil, Int.zero_add]
  | cons c s ih => rw [List.cons_append, parenDepth_cons, ih, parenDepth_cons, Int.add_assoc]

/-- A pair of parentheses adds nothing to the count. -/
theorem parenDepth_parens (inner s : Text) :
    parenDepth ('(' :: (inner ++ ')' :: s)) = parenDepth inner + parenDepth s := by
  rw [parenDepth_cons, parenDepth_append, parenDepth_cons, parenWeight_open, parenWeight_close]
  omega

/-! ### Parts of nested texts -/

theorem isNested_nil : IsNested [] where
  depth_eq := rfl
  depth_nonneg p hp := by
    obtain rfl := List.prefix_nil.1 hp
    exact Int.le_refl 0

/-- What stands behind a part that closes what it opens is nested. -/
theorem IsNested.right (h : IsNested (s ++ t)) (hs : parenDepth s = 0) : IsNested t where
  depth_eq := by
    have htotal := h.depth_eq
    rw [parenDepth_append, hs, Int.zero_add] at htotal
    exact htotal
  depth_nonneg p hp := by
    have hprefix := h.depth_nonneg (s ++ p) ((List.prefix_append_right_inj s).2 hp)
    rw [parenDepth_append, hs, Int.zero_add] at hprefix
    exact hprefix

/-- The part itself is nested. -/
theorem IsNested.left (h : IsNested (s ++ t)) (hs : parenDepth s = 0) : IsNested s where
  depth_eq := hs
  depth_nonneg p hp := h.depth_nonneg p (hp.trans (List.prefix_append s t))

theorem HasOuterComma.append (h : HasOuterComma t) (hs : parenDepth s = 0) :
    HasOuterComma (s ++ t) := by
  obtain ⟨before, after, rfl, hbefore⟩ := h
  refine ⟨s ++ before, after, by rw [List.append_assoc], ?_⟩
  rw [parenDepth_append, hs, hbefore, Int.add_zero]

/-! ### The partner of a parenthesis -/

/-- The text closes as many parentheses as are open in front of it, and never one more. -/
structure Closes (depth : Nat) (s : Text) : Prop where
  depth_eq : depth + parenDepth s = 0
  depth_nonneg : ∀ p, p <+: s → 0 ≤ depth + parenDepth p

theorem closes_zero_iff : Closes 0 s ↔ IsNested s := by
  constructor
  · rintro ⟨htotal, hprefix⟩
    exact ⟨by simpa using htotal, by simpa using hprefix⟩
  · rintro ⟨htotal, hprefix⟩
    exact ⟨by simpa using htotal, by simpa using hprefix⟩

theorem Closes.cons {depth' : Nat} (h : Closes depth' s)
    (hc : (depth' : Int) = depth + parenWeight c) : Closes depth (c :: s) where
  depth_eq := by
    have htotal := h.depth_eq
    rw [parenDepth_cons]
    omega
  depth_nonneg p hp := by
    rcases List.prefix_cons_iff.1 hp with rfl | ⟨q, rfl, hq⟩
    · rw [parenDepth_nil]
      omega
    · have hprefix := h.depth_nonneg q hq
      rw [parenDepth_cons]
      omega

/-- A character that the walk passes over without counting. -/
theorem parenWeight_of_passed (hopen : c = '(' → False) (hzero : depth = 0 → c = ')' → False)
    (hsucc : ∀ d, depth = Nat.succ d → c = ')' → False) : parenWeight c = 0 := by
  refine parenWeight_eq_zero hopen ?_
  cases depth with
  | zero => exact hzero rfl
  | succ d => exact hsucc d rfl

/-- What is passed over on the way to a partner closes what was opened since. -/
theorem closes_of_closeParen (h : closeParen depth s = some (inner, after)) :
    s = inner ++ ')' :: after ∧ Closes depth inner := by
  fun_induction closeParen depth s generalizing inner after with
  | case1 => cases h
  | case2 depth rest ih =>
    obtain ⟨⟨inner, after⟩, hrest, heq⟩ := Option.map_eq_some_iff.1 h
    cases heq
    obtain ⟨rfl, hinner⟩ := ih hrest
    exact ⟨rfl, hinner.cons (by simp)⟩
  | case3 rest =>
    cases h
    exact ⟨rfl, closes_zero_iff.2 isNested_nil⟩
  | case4 depth rest ih =>
    obtain ⟨⟨inner, after⟩, hrest, heq⟩ := Option.map_eq_some_iff.1 h
    cases heq
    obtain ⟨rfl, hinner⟩ := ih hrest
    exact ⟨rfl, hinner.cons (by rw [parenWeight_close]; omega)⟩
  | case5 depth c rest hopen hzero hsucc ih =>
    obtain ⟨⟨inner, after⟩, hrest, heq⟩ := Option.map_eq_some_iff.1 h
    cases heq
    obtain ⟨rfl, hinner⟩ := ih hrest
    exact ⟨rfl, hinner.cons (by rw [parenWeight_of_passed hopen hzero hsucc, Int.add_zero])⟩

/-- Where no partner is found, a parenthesis is left open. -/
theorem parenDepth_of_closeParen_eq_none (h : closeParen depth s = none) :
    0 ≤ depth + parenDepth s := by
  fun_induction closeParen depth s with
  | case1 depth =>
    rw [parenDepth_nil]
    omega
  | case2 depth rest ih =>
    have hrest := ih (Option.map_eq_none_iff.1 h)
    rw [parenDepth_cons, parenWeight_open]
    omega
  | case3 => cases h
  | case4 depth rest ih =>
    have hrest := ih (Option.map_eq_none_iff.1 h)
    rw [parenDepth_cons, parenWeight_close]
    omega
  | case5 depth c rest hopen hzero hsucc ih =>
    rw [parenDepth_cons, parenWeight_of_passed hopen hzero hsucc, Int.zero_add]
    exact ih (Option.map_eq_none_iff.1 h)

/-! ### The two descriptions of nesting -/

/-- A beginning of a text that begins with a pair of parentheses ends in front of the pair, in it or
behind it. -/
theorem prefix_parens (hp : p <+: '(' :: (inner ++ ')' :: s)) :
    p = [] ∨ (∃ q, q <+: inner ∧ p = '(' :: q) ∨
      ∃ q, q <+: s ∧ p = '(' :: (inner ++ ')' :: q) := by
  rcases List.prefix_cons_iff.1 hp with rfl | ⟨q, rfl, hq⟩
  · exact .inl rfl
  rcases List.prefix_or_prefix_of_prefix hq (List.prefix_append inner _) with hq' | ⟨r, rfl⟩
  · exact .inr (.inl ⟨q, hq', rfl⟩)
  · rcases List.prefix_cons_iff.1 ((List.prefix_append_right_inj inner).1 hq) with
      rfl | ⟨r, rfl, hr⟩
    · exact .inr (.inl ⟨inner, List.prefix_refl _, by rw [List.append_nil]⟩)
    · exact .inr (.inr ⟨r, hr, rfl⟩)

theorem Balanced.isNested (hs : Balanced commas s) : IsNested s := by
  induction hs with
  | nil => exact isNested_nil
  | @cons _ c s hopen hclose _ _ ih =>
    have hweight := parenWeight_eq_zero hopen hclose
    exact closes_zero_iff.1 ((closes_zero_iff.2 ih).cons (by rw [hweight, Int.add_zero]))
  | @parens _ inner s _ _ ihinner ihs =>
    refine ⟨by rw [parenDepth_parens, ihinner.depth_eq, ihs.depth_eq, Int.add_zero], ?_⟩
    intro p hp
    rcases prefix_parens hp with rfl | ⟨q, hq, rfl⟩ | ⟨q, hq, rfl⟩
    · exact isNested_nil.depth_nonneg [] (List.prefix_refl [])
    · have := ihinner.depth_nonneg q hq
      rw [parenDepth_cons, parenWeight_open]
      omega
    · rw [parenDepth_parens, ihinner.depth_eq, Int.zero_add]
      exact ihs.depth_nonneg q hq

/-- A comma outside is one that is allowed for. -/
theorem Balanced.eq_true (hs : Balanced commas s) (h : HasOuterComma s) : commas = true := by
  induction hs with
  | nil =>
    obtain ⟨before, after, heq, -⟩ := h
    simp at heq
  | @cons _ c s hopen hclose hcomma _ ih =>
    obtain ⟨before, after, heq, hbefore⟩ := h
    rcases List.cons_eq_append_iff.1 heq with ⟨rfl, heq⟩ | ⟨before, rfl, rfl⟩
    · exact hcomma (List.cons.inj heq).1
    · rw [parenDepth_cons, parenWeight_eq_zero hopen hclose, Int.zero_add] at hbefore
      exact ih ⟨before, after, rfl, hbefore⟩
  | @parens _ inner s hinner _ _ ihs =>
    obtain ⟨before, after, heq, hbefore⟩ := h
    rcases prefix_parens ⟨',' :: after, heq.symm⟩ with rfl | ⟨q, hq, rfl⟩ | ⟨q, hq, rfl⟩
    · cases heq
    -- inside of the pair the count is at least one
    · have := hinner.isNested.depth_nonneg q hq
      rw [parenDepth_cons, parenWeight_open] at hbefore
      omega
    · rw [parenDepth_parens, hinner.isNested.depth_eq, Int.zero_add] at hbefore
      exact ihs ⟨q, after, by simpa using heq, hbefore⟩

/-- A nested text that begins with a parenthesis begins with a pair, and what follows the pair is
nested. -/
theorem IsNested.exists_parens (h : IsNested ('(' :: t)) :
    ∃ inner after, t = inner ++ ')' :: after ∧ IsNested inner ∧ IsNested after := by
  cases hfound : closeParen 0 t with
  | none =>
    have hdepth := parenDepth_of_closeParen_eq_none hfound
    have htotal := h.depth_eq
    rw [parenDepth_cons, parenWeight_open] at htotal
    omega
  | some found =>
    obtain ⟨inner, after⟩ := found
    obtain ⟨rfl, hcloses⟩ := closes_of_closeParen hfound
    have hinner := closes_zero_iff.1 hcloses
    have hpair : parenDepth ('(' :: (inner ++ [')'])) = 0 := by
      rw [parenDepth_parens, hinner.depth_eq, parenDepth_nil, Int.add_zero]
    refine ⟨inner, after, rfl, hinner, IsNested.right ?_ hpair⟩
    simpa using h

/-- A nested text has the shape of one. The first pair of parentheses is found by walking to its
partner, and the inside and the rest are shorter. -/
theorem balanced_of_isNested (h : IsNested s) (hcomma : HasOuterComma s → commas = true) :
    Balanced commas s := by
  induction hn : s.length using Nat.strong_induction_on generalizing s commas with
  | _ n ih =>
    subst hn
    cases s with
    | nil => exact .nil
    | cons c t =>
      by_cases hopen : c = '('
      · subst hopen
        obtain ⟨inner, after, rfl, hinner, hafter⟩ := h.exists_parens
        refine .parens (ih _ ?_ hinner (fun _ ↦ rfl) rfl) (ih _ ?_ hafter (fun houter ↦ ?_) rfl)
        · simp only [List.length_cons, List.length_append]
          omega
        · simp only [List.length_cons, List.length_append]
          omega
        · obtain ⟨before, behind, rfl, hbefore⟩ := houter
          refine hcomma ⟨'(' :: (inner ++ ')' :: before), behind, by simp, ?_⟩
          rw [parenDepth_parens, hinner.depth_eq, hbefore, Int.add_zero]
      · by_cases hclose : c = ')'
        · subst hclose
          have := h.depth_nonneg [')'] ⟨t, rfl⟩
          rw [parenDepth_cons, parenWeight_close, parenDepth_nil] at this
          omega
        · have hweight : parenDepth [c] = 0 := by
            rw [parenDepth_cons, parenWeight_eq_zero hopen hclose, parenDepth_nil, Int.add_zero]
          have ht : IsNested t := IsNested.right (s := [c]) h hweight
          refine .cons hopen hclose ?_ (ih _ (by simp) ht (fun houter ↦ ?_) rfl)
          · rintro rfl
            exact hcomma ⟨[], t, rfl, rfl⟩
          · exact hcomma (houter.append (s := [c]) hweight)

/-- **Nesting by shape and by counting** is the same. -/
theorem balanced_iff : Balanced commas s ↔ IsNested s ∧ (HasOuterComma s → commas = true) :=
  ⟨fun hs ↦ ⟨hs.isNested, hs.eq_true⟩, fun h ↦ balanced_of_isNested h.1 h.2⟩

theorem IsNested.balanced (h : IsNested s) : Balanced true s :=
  balanced_iff.2 ⟨h, fun _ ↦ rfl⟩

/-- **The partner of a parenthesis** is the parenthesis that closes a nested text. -/
theorem closeParen_eq_some_iff :
    closeParen 0 s = some (inner, after) ↔ s = inner ++ ')' :: after ∧ IsNested inner := by
  constructor
  · intro h
    exact (closes_of_closeParen h).imp id closes_zero_iff.1
  · rintro ⟨rfl, hinner⟩
    exact hinner.balanced.closeParen_eq after

end

end YulPlus
