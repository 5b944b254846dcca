import YulPlus.Signature.Parameter

/-!
# Nested lists

`Balanced` texts are those whose parentheses nest, told apart by whether a comma may stand outside
of all parentheses. Both scanners pass over a balanced text as a whole: `closeParen` does not find
the partner of an outer parenthesis in it (`Balanced.closeParen_append`), and `cutCommas` does not
cut it unless a comma stands outside (`Balanced.cutCommas_append`). So a list of parts without such
commas is cut into these parts (`cutCommas_joinWith`). -/

namespace YulPlus

open Text

/-- The parentheses of the text nest, and only with `commas` a comma stands outside of them. -/
inductive Balanced : Bool → Text → Prop
  | nil {commas : Bool} : Balanced commas []
  | cons {commas : Bool} {c : Char} {s : Text} (hopen : c ≠ '(') (hclose : c ≠ ')')
      (hcomma : c = ',' → commas = true) (hs : Balanced commas s) : Balanced commas (c :: s)
  | parens {commas : Bool} {inner s : Text} (hinner : Balanced true inner)
      (hs : Balanced commas s) : Balanced commas ('(' :: (inner ++ ')' :: s))

namespace Balanced

variable {commas : Bool} {s t : Text}

theorem append (hs : Balanced commas s) (ht : Balanced commas t) : Balanced commas (s ++ t) := by
  induction hs with
  | nil => exact ht
  | cons hopen hclose hcomma _ ih => exact .cons hopen hclose hcomma (ih ht)
  | parens hinner _ _ ih =>
    rw [List.cons_append, List.append_assoc, List.cons_append]
    exact .parens hinner (ih ht)

/-- Commas may be allowed. -/
theorem allow (hs : Balanced commas s) : Balanced true s := by
  induction hs with
  | nil => exact .nil
  | cons hopen hclose _ _ ih => exact .cons hopen hclose (fun _ ↦ rfl) ih
  | parens hinner _ _ ih => exact .parens hinner ih

theorem of_forall (h : ∀ c ∈ s, c ≠ '(' ∧ c ≠ ')' ∧ c ≠ ',') : Balanced commas s := by
  induction s with
  | nil => exact .nil
  | cons c s ih =>
    obtain ⟨hopen, hclose, hcomma⟩ := h c (by simp)
    exact .cons hopen hclose (fun hc ↦ absurd hc hcomma) (ih fun d hd ↦ h d (by simp [hd]))

/-! ### The partner of a parenthesis -/

theorem closeParen_cons {c : Char} (hopen : c ≠ '(') (hclose : c ≠ ')') (depth : Nat) (s : Text) :
    closeParen depth (c :: s) =
      (closeParen depth s).map fun (inner, after) ↦ (c :: inner, after) := by
  rw [closeParen.eq_def]
  split <;> simp_all

/-- **A balanced text is passed over** on the way to a partner. -/
theorem closeParen_append (hs : Balanced commas s) (depth : Nat) (r : Text) :
    closeParen depth (s ++ r) =
      (closeParen depth r).map fun (inner, after) ↦ (s ++ inner, after) := by
  induction hs generalizing depth r with
  | nil => simp
  | cons hopen hclose _ _ ih =>
    rw [List.cons_append, closeParen_cons hopen hclose, ih, Option.map_map]
    rfl
  | @parens _ inner s _ _ ihinner ihs =>
    rw [List.cons_append, List.append_assoc, List.cons_append, closeParen, ihinner, closeParen, ihs,
      Option.map_map, Option.map_map, Option.map_map]
    congr 1
    funext p
    simp

/-- The partner of the parenthesis around a balanced text. -/
theorem closeParen_eq (hs : Balanced commas s) (r : Text) :
    closeParen 0 (s ++ ')' :: r) = some (s, r) := by
  rw [hs.closeParen_append, closeParen]
  simp

/-! ### Cutting at commas -/

theorem cutCommas_cons {c : Char} (hopen : c ≠ '(') (hclose : c ≠ ')') {depth : Nat}
    (hcomma : c = ',' → depth ≠ 0) (s : Text) :
    cutCommas depth (c :: s) = pushFirst c (cutCommas depth s) := by
  rw [cutCommas.eq_def]
  split <;> simp_all

theorem foldr_pushFirst (s p : Text) (ps : List Text) :
    s.foldr pushFirst (p :: ps) = (s ++ p) :: ps := by
  induction s with
  | nil => rfl
  | cons c s ih => rw [List.foldr_cons, ih, pushFirst, List.cons_append]

/-- **A balanced text is not cut**, if it has no comma outside or stands inside of parentheses. -/
theorem cutCommas_append (hs : Balanced commas s) {depth : Nat}
    (hdepth : commas = true → depth ≠ 0) (r : Text) :
    cutCommas depth (s ++ r) = s.foldr pushFirst (cutCommas depth r) := by
  induction hs generalizing depth r with
  | nil => rfl
  | cons hopen hclose hcomma _ ih =>
    rw [List.cons_append, cutCommas_cons hopen hclose (fun hc ↦ hdepth (hcomma hc)), ih hdepth,
      List.foldr_cons]
  | @parens _ inner s _ _ ihinner ihs =>
    rw [List.cons_append, List.append_assoc, List.cons_append, cutCommas,
      ihinner fun _ ↦ Nat.succ_ne_zero depth, cutCommas, Nat.succ_sub_one, ihs hdepth]
    rw [List.foldr_cons, List.foldr_append, List.foldr_cons]

end Balanced

/-- **The parts of a list**, put together with commas, are cut apart again. -/
theorem cutCommas_joinWith {parts : List Text} (hne : parts ≠ [])
    (h : ∀ part ∈ parts, Balanced false part) : cutCommas 0 (joinWith [','] parts) = parts := by
  induction parts with
  | nil => exact absurd rfl hne
  | cons part parts ih =>
    have hpart : ∀ r, cutCommas 0 (part ++ r) = part.foldr pushFirst (cutCommas 0 r) :=
      fun r ↦ (h part (by simp)).cutCommas_append (by simp) r
    cases parts with
    | nil =>
      have hwhole := hpart []
      rw [List.append_nil, cutCommas, Balanced.foldr_pushFirst, List.append_nil] at hwhole
      exact hwhole
    | cons next parts =>
      have hrest := ih (by simp) fun p hp ↦ h p (by simp [hp])
      rw [joinWith_cons_cons, List.append_assoc, hpart]
      show part.foldr pushFirst ([] :: cutCommas 0 (joinWith [','] (next :: parts))) = _
      rw [hrest, Balanced.foldr_pushFirst, List.append_nil]

/-- The list itself is balanced, with commas. -/
theorem balanced_joinWith {parts : List Text} (h : ∀ part ∈ parts, Balanced false part) :
    Balanced true (joinWith [','] parts) := by
  induction parts with
  | nil => exact .nil
  | cons part parts ih =>
    cases parts with
    | nil => exact (h part (by simp)).allow
    | cons next parts =>
      have hrest := ih fun p hp ↦ h p (by simp [hp])
      rw [joinWith_cons_cons, List.append_assoc]
      exact (h part (by simp)).allow.append (.cons (by decide) (by decide) (fun _ ↦ rfl) hrest)

end YulPlus
