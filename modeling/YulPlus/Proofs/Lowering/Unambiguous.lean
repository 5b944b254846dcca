import YulPlus.Proofs.Lowering.Expression

/-!
# The grammar is unambiguous

Tokens are read in one way only. The lists of an enum and of a struct are cut at their commas and
end at the first closing parenthesis, since no member or field contains either. An expression may
contain both, but the reader of expressions takes exactly the expressions of the grammar, so two of
them that begin at the same place and may end where they end are the same. -/

namespace YulPlus

open Text

variable {t c c' closing : Token} {k : TokenKind} {ts ts' rest rest' ds ds' : List Token}
  {us us' : List (List Token)} {d d' : Declaration}

/-- A list is cut in one way at the first token of a kind. -/
theorem split_unique (hts : ∀ t ∈ ts, t.kind ≠ k) (hts' : ∀ t ∈ ts', t.kind ≠ k) (hc : c.kind = k)
    (hc' : c'.kind = k) (heq : ts ++ c :: rest = ts' ++ c' :: rest') :
    ts = ts' ∧ c = c' ∧ rest = rest' := by
  rcases List.append_eq_append_iff.1 heq with ⟨as, rfl, has⟩ | ⟨as, rfl, has⟩
  · rcases as with - | ⟨a, as⟩
    · simpa using has
    · obtain ⟨rfl, -⟩ := List.cons.inj has
      exact absurd hc (hts' c (by simp))
  · rcases as with - | ⟨a, as⟩
    · simpa [eq_comm] using has
    · obtain ⟨rfl, -⟩ := List.cons.inj has
      exact absurd hc' (hts c' (by simp))

theorem CommaList.unique (h : CommaList us ts) (h' : CommaList us' ts)
    (hus : ∀ u ∈ us, ∀ t ∈ u, t.kind ≠ .comma) (hus' : ∀ u ∈ us', ∀ t ∈ u, t.kind ≠ .comma) :
    us = us' := by
  induction h generalizing us' with
  | @single u =>
    generalize hv : u = v at h'
    cases h' with
    | single => rfl
    | @cons u' ts us comma hcomma =>
      exact absurd hcomma (hus u (by simp) comma (by simp [hv]))
  | @cons u ts us comma hcomma hts ih =>
    generalize hv : u ++ comma :: ts = v at h'
    cases h' with
    | single => exact absurd hcomma (hus' v (by simp) comma (by simp [← hv]))
    | @cons u' ts' us'' comma' hcomma' hts' =>
      obtain ⟨rfl, -, rfl⟩ := split_unique (hus u (by simp)) (hus' u' (by simp)) hcomma hcomma' hv
      rw [ih hts' (fun v hv ↦ hus v (by simp [hv])) fun v hv ↦ hus' v (by simp [hv])]

/-- The separators of a list do not occur in its units. -/
theorem IsMember.kind_ne {u : List Token} {m : Text} (h : IsMember u m) :
    ∀ t ∈ u, t.kind ≠ .comma ∧ t.kind ≠ .closeParen := by
  obtain ⟨ht⟩ := h
  simp [ht]

theorem IsField.kind_ne {u : List Token} {field : Field} (h : IsField u field) :
    ∀ t ∈ u, t.kind ≠ .comma ∧ t.kind ≠ .closeParen := by
  obtain ⟨hname, hcolon, hnumber⟩ := h
  simp [hname, hcolon, hnumber]

theorem rightUnique_isMember : Relator.RightUnique IsMember := by
  rintro u m m' ⟨-⟩ ⟨-⟩
  rfl

theorem rightUnique_isField : Relator.RightUnique IsField := by
  rintro u field field' ⟨-, -, -, hsize⟩ ⟨-, -, -, hsize'⟩
  rw [hsize] at hsize'
  cases hsize'
  rfl

/-- A parenthesised list of units without commas and closing parentheses. -/
theorem list_unique {α : Type} {R : List Token → α → Prop} {as as' : List α}
    (hR : Relator.RightUnique R)
    (hne : ∀ {u a}, R u a → ∀ t ∈ u, t.kind ≠ .comma ∧ t.kind ≠ .closeParen)
    (hts : CommaList us ts) (hts' : CommaList us' ts') (hus : List.Forall₂ R us as)
    (hus' : List.Forall₂ R us' as') (hc : c.kind = .closeParen) (hc' : c'.kind = .closeParen)
    (heq : ts ++ c :: rest = ts' ++ c' :: rest') :
    as = as' ∧ ts = ts' ∧ c = c' ∧ rest = rest' := by
  have hunits : ∀ {us as}, List.Forall₂ R us as →
      ∀ u ∈ us, ∀ t ∈ u, t.kind ≠ .comma ∧ t.kind ≠ .closeParen := by
    intro us as h u hu
    obtain ⟨a, -, ha⟩ := exists_mem_of_mem_left h hu
    exact hne ha
  have hclose : ∀ {us ts as}, List.Forall₂ R us as → CommaList us ts →
      ∀ t ∈ ts, t.kind ≠ .closeParen := by
    intro us ts as h hts
    exact hts.forall_mem (fun t ht ↦ by simp [ht]) fun u hu t ht ↦ (hunits h u hu t ht).2
  obtain ⟨rfl, rfl, rfl⟩ := split_unique (hclose hus hts) (hclose hus' hts') hc hc' heq
  obtain rfl := hts.unique hts' (fun u hu t ht ↦ (hunits hus u hu t ht).1)
    fun u hu t ht ↦ (hunits hus' u hu t ht).1
  exact ⟨List.right_unique_forall₂' hR hus hus', rfl, rfl, rfl⟩

/-- **A declaration is read in one way**, and it ends at one place. -/
theorem Declaration.Spells.unique {stop : Token} (h : d.Spells (t :: ds))
    (h' : d'.Spells (t :: ds')) (hnext : d.EndsBefore (rest.headD stop))
    (hnext' : d'.EndsBefore (rest'.headD stop)) (heq : ds ++ rest = ds' ++ rest') :
    d = d' ∧ ds = ds' ∧ rest = rest' := by
  cases h with
  | @enum _ name opening closing us ms ts hkeyword hname hopening hts hunits hclosing =>
    cases h' with
    | @enum _ name' opening' closing' us' ms' ts' _ _ _ hts' hunits' hclosing' =>
      simp only [List.cons_append, List.append_assoc, List.nil_append, List.cons.injEq] at heq
      obtain ⟨rfl, rfl, htail⟩ := heq
      obtain ⟨rfl, rfl, rfl, rfl⟩ := list_unique rightUnique_isMember IsMember.kind_ne hts hts'
        hunits hunits' hclosing hclosing' htail
      exact ⟨rfl, rfl, rfl⟩
    | const hkeyword' | struct hkeyword' => simp [hkeyword] at hkeyword'
  | @const _ name assign value hkeyword hname hassign hvalue =>
    cases h' with
    | @const _ name' assign' value' _ _ _ hvalue' =>
      simp only [List.cons_append, List.cons.injEq] at heq
      obtain ⟨rfl, rfl, htail⟩ := heq
      -- both are what the reader takes from the same tokens
      have hread := expression_eq_ok_iff.2 ⟨rfl, hvalue, hnext⟩
      rw [expression_eq_ok_iff.2 ⟨htail, hvalue', hnext'⟩] at hread
      obtain ⟨⟩ := hread
      exact ⟨rfl, rfl, rfl⟩
    | enum hkeyword' | struct hkeyword' => simp [hkeyword] at hkeyword'
  | @struct _ name opening closing us fields ts hkeyword hname hopening hts hunits _ hclosing =>
    cases h' with
    | @struct _ name' opening' closing' us' fields' ts' _ _ _ hts' hunits' _ hclosing' =>
      simp only [List.cons_append, List.append_assoc, List.nil_append, List.cons.injEq] at heq
      obtain ⟨rfl, rfl, htail⟩ := heq
      obtain ⟨rfl, rfl, rfl, rfl⟩ := list_unique rightUnique_isField IsField.kind_ne hts hts' hunits
        hunits' hclosing hclosing' htail
      exact ⟨rfl, rfl, rfl⟩
    | enum hkeyword' | const hkeyword' => simp [hkeyword] at hkeyword'

/-- **A body has one list of parts.** -/
theorem IsBody.unique {parts parts' : List Part} (h : IsBody closing ts parts)
    (h' : IsBody closing ts parts') : parts = parts' := by
  induction h generalizing parts' with
  | nil =>
    cases h'
    rfl
  | @kept t ts parts ht _ ih =>
    cases h' with
    | kept _ hts' => rw [ih hts']
    | declared hd =>
      rw [hd.isDeclaration] at ht
      cases ht
  | @declared t ds ts d parts hd hnext _ ih =>
    generalize hall : ds ++ ts = all at h'
    cases h' with
    | kept ht =>
      rw [hd.isDeclaration] at ht
      cases ht
    | declared hd' hnext' hts' =>
      obtain ⟨rfl, rfl, rfl⟩ := hd.unique hd' hnext hnext' hall
      rw [ih hts']

end YulPlus
