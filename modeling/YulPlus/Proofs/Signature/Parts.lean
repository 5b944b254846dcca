import YulPlus.Proofs.Signature.Depth
import YulPlus.Proofs.Text.Words

/-!
# The parts of a parameter list

A list of parameters is cut at the commas that stand outside of all parentheses. Nothing is lost by
that: the parts, with commas between them, are the list again, and each part is nested and has no
such comma left in it (`parameterParts_lossless`). The list is refused exactly if one of the
stretches between these commas is blank.

The stretches are described without the cutting, by where the commas stand (`IsStretch`). The two
meet in one equation: a nested list splits at every comma outside (`cutCommas_append_comma`). -/

namespace YulPlus

open Text

/-- The text is empty or ends with a comma outside of all parentheses. -/
def EndsOutside (before : Text) : Prop :=
  before = [] ∨ ∃ b, before = b ++ [','] ∧ parenDepth b = 0

/-- The part reaches from the front of the list, or from a comma outside of all parentheses, to the
next such comma, or to the end. -/
def IsStretch (list part : Text) : Prop :=
  ∃ before after, list = before ++ (part ++ after) ∧ EndsOutside before ∧
    (after = [] ∨ ∃ a, after = ',' :: a ∧ parenDepth (before ++ part) = 0) ∧
    ¬ HasOuterComma part

section

variable {commas : Bool} {s t part list : Text} {parts : List Text} {fault : SignatureFault}

/-! ### Lists of parts -/

theorem joinWith_append_cons (separator x part : Text) (parts : List Text) :
    joinWith separator ((x ++ part) :: parts) = x ++ joinWith separator (part :: parts) := by
  cases parts with
  | nil => rfl
  | cons next parts => simp only [joinWith_cons_cons, List.append_assoc]

/-- Two lists of parts are put together with one more separator. -/
theorem joinWith_append (separator : Text) {ps qs : List Text} (hps : ps ≠ []) (hqs : qs ≠ []) :
    joinWith separator (ps ++ qs) =
      joinWith separator ps ++ (separator ++ joinWith separator qs) := by
  induction ps with
  | nil => exact absurd rfl hps
  | cons p ps ih =>
    cases ps with
    | nil =>
      obtain ⟨q, qs, rfl⟩ := List.exists_cons_of_ne_nil hqs
      rw [List.cons_append, List.nil_append, joinWith_cons_cons, List.append_assoc, joinWith]
    | cons next ps =>
      have hrest := ih (by simp)
      rw [List.cons_append] at hrest ⊢
      rw [List.cons_append, joinWith_cons_cons, hrest, joinWith_cons_cons]
      simp only [List.append_assoc]

/-- **A nested text is a list of parts** without commas outside. -/
theorem Balanced.exists_parts (hs : Balanced commas s) :
    ∃ parts, parts ≠ [] ∧ joinWith [','] parts = s ∧ ∀ part ∈ parts, Balanced false part := by
  induction hs with
  | nil => exact ⟨[[]], by simp, rfl, by simpa using .nil⟩
  | @cons _ c s hopen hclose _ _ ih =>
    obtain ⟨parts, hne, rfl, hparts⟩ := ih
    obtain ⟨part, parts, rfl⟩ := List.exists_cons_of_ne_nil hne
    by_cases hc : c = ','
    · subst hc
      exact ⟨[] :: part :: parts, by simp, rfl, List.forall_mem_cons.2 ⟨.nil, hparts⟩⟩
    · obtain ⟨hpart, hparts⟩ := List.forall_mem_cons.1 hparts
      refine ⟨([c] ++ part) :: parts, by simp, joinWith_append_cons _ _ _ _,
        List.forall_mem_cons.2 ⟨?_, hparts⟩⟩
      exact .cons hopen hclose (fun h ↦ absurd h hc) hpart
  | @parens _ inner s hinner _ _ ih =>
    obtain ⟨parts, hne, rfl, hparts⟩ := ih
    obtain ⟨part, parts, rfl⟩ := List.exists_cons_of_ne_nil hne
    obtain ⟨hpart, hparts⟩ := List.forall_mem_cons.1 hparts
    refine ⟨(('(' :: (inner ++ [')'])) ++ part) :: parts, by simp, ?_,
      List.forall_mem_cons.2 ⟨?_, hparts⟩⟩
    · rw [joinWith_append_cons]
      simp
    · have := Balanced.parens hinner hpart
      simpa using this

/-! ### Cutting nested lists -/

theorem IsNested.exists_parts (hs : IsNested s) :
    ∃ parts, parts ≠ [] ∧ joinWith [','] parts = s ∧ ∀ part ∈ parts, Balanced false part :=
  hs.balanced.exists_parts

/-- **Nothing is lost** when a nested list is cut. -/
theorem joinWith_cutCommas (hs : IsNested s) : joinWith [','] (cutCommas 0 s) = s := by
  obtain ⟨parts, hne, rfl, hparts⟩ := hs.exists_parts
  rw [cutCommas_joinWith hne hparts]

/-- Every part is nested, and no comma outside is left in it. -/
theorem balanced_of_mem_cutCommas (hs : IsNested s) :
    ∀ part ∈ cutCommas 0 s, Balanced false part := by
  obtain ⟨parts, hne, rfl, hparts⟩ := hs.exists_parts
  rwa [cutCommas_joinWith hne hparts]

/-- **A list splits at a comma outside.** -/
theorem cutCommas_append_comma (hs : IsNested s) (ht : IsNested t) :
    cutCommas 0 (s ++ ',' :: t) = cutCommas 0 s ++ cutCommas 0 t := by
  obtain ⟨ps, hps, rfl, hp⟩ := hs.exists_parts
  obtain ⟨qs, hqs, rfl, hq⟩ := ht.exists_parts
  have hjoin : joinWith [','] ps ++ ',' :: joinWith [','] qs = joinWith [','] (ps ++ qs) :=
    (joinWith_append [','] hps hqs).symm
  have hall : ∀ part ∈ ps ++ qs, Balanced false part := fun part hpart ↦
    (List.mem_append.1 hpart).elim (hp part) (hq part)
  rw [hjoin, cutCommas_joinWith (by simp [hps]) hall, cutCommas_joinWith hps hp,
    cutCommas_joinWith hqs hq]

/-- A list without such a comma is its only part. -/
theorem cutCommas_of_not_hasOuterComma (hs : IsNested s) (hcomma : ¬ HasOuterComma s) :
    cutCommas 0 s = [s] := by
  have hbalanced : Balanced false s := balanced_iff.2 ⟨hs, fun h ↦ absurd h hcomma⟩
  exact @cutCommas_joinWith [s] (by simp) (by simpa using hbalanced)

/-! ### Stretches -/

/-- In front of a stretch no parenthesis is open. -/
theorem EndsOutside.parenDepth_eq (h : EndsOutside s) : parenDepth s = 0 := by
  rcases h with rfl | ⟨b, rfl, hb⟩
  · rfl
  · rw [parenDepth_append, hb]
    rfl

theorem IsStretch.mem_cutCommas (hlist : IsNested list) (h : IsStretch list part) :
    part ∈ cutCommas 0 list := by
  obtain ⟨before, after, rfl, hbefore, hafter, hcomma⟩ := h
  have hrest := hlist.right hbefore.parenDepth_eq
  have hmem : part ∈ cutCommas 0 (part ++ after) := by
    rcases hafter with rfl | ⟨a, rfl, hdepth⟩
    · rw [List.append_nil] at hrest ⊢
      rw [cutCommas_of_not_hasOuterComma hrest hcomma]
      exact List.mem_singleton_self part
    · rw [parenDepth_append, hbefore.parenDepth_eq, Int.zero_add] at hdepth
      have hpart := hrest.left hdepth
      have ha : IsNested a := (hrest.right hdepth).right (s := [',']) rfl
      rw [cutCommas_append_comma hpart ha, cutCommas_of_not_hasOuterComma hpart hcomma]
      exact List.mem_cons_self
  rcases hbefore with rfl | ⟨b, rfl, hb⟩
  · exact hmem
  · rw [List.append_assoc] at hlist ⊢
    have hsplit := cutCommas_append_comma (hlist.left hb) hrest
    rw [List.singleton_append, hsplit]
    exact List.mem_append_right _ hmem

/-- The parts in front of a part are a front of the list. -/
theorem exists_endsOutside {ps : List Text} (hps : ∀ p ∈ ps, Balanced false p) (part : Text)
    (qs : List Text) : ∃ before, EndsOutside before ∧
      joinWith [','] (ps ++ part :: qs) = before ++ joinWith [','] (part :: qs) := by
  by_cases hnil : ps = []
  · subst hnil
    exact ⟨[], .inl rfl, rfl⟩
  · refine ⟨joinWith [','] ps ++ [','], .inr ⟨_, rfl, ?_⟩, ?_⟩
    · exact (balanced_joinWith hps).isNested.depth_eq
    · rw [joinWith_append _ hnil (by simp), List.append_assoc]

/-- Behind a part stands nothing, or a comma and the parts that follow. -/
theorem exists_joinWith_eq (part : Text) (qs : List Text) :
    ∃ after, (after = [] ∨ ∃ a, after = ',' :: a) ∧
      joinWith [','] (part :: qs) = part ++ after := by
  cases qs with
  | nil => exact ⟨[], .inl rfl, (List.append_nil part).symm⟩
  | cons q qs =>
    refine ⟨',' :: joinWith [','] (q :: qs), .inr ⟨_, rfl⟩, ?_⟩
    rw [joinWith_cons_cons, List.append_assoc, List.singleton_append]

theorem isStretch_of_mem_cutCommas (hlist : IsNested list) (h : part ∈ cutCommas 0 list) :
    IsStretch list part := by
  have hjoin := joinWith_cutCommas hlist
  have hbalanced := balanced_of_mem_cutCommas hlist
  obtain ⟨ps, qs, hparts⟩ := List.append_of_mem h
  rw [hparts] at hjoin hbalanced
  obtain ⟨before, hbefore, hfront⟩ :=
    exists_endsOutside (fun p hp ↦ hbalanced p (List.mem_append_left (part :: qs) hp)) part qs
  obtain ⟨after, hafter, hback⟩ := exists_joinWith_eq part qs
  obtain ⟨hpart, houter⟩ := balanced_iff.1 (hbalanced part (by simp))
  refine ⟨before, after, by rw [← hjoin, hfront, hback], hbefore, ?_, fun hcomma ↦ ?_⟩
  · refine hafter.imp id fun ⟨a, ha⟩ ↦ ⟨a, ha, ?_⟩
    rw [parenDepth_append, hbefore.parenDepth_eq, hpart.depth_eq, Int.add_zero]
  · exact absurd (houter hcomma) (by decide)

/-- **The parts are the stretches** between the commas outside. -/
theorem mem_cutCommas_iff (hlist : IsNested list) :
    part ∈ cutCommas 0 list ↔ IsStretch list part :=
  ⟨isStretch_of_mem_cutCommas hlist, fun h ↦ h.mem_cutCommas hlist⟩

/-! ### Parameter lists -/

theorem all_isBlank_iff : s.all isBlank = true ↔ AllBlank s :=
  List.all_eq_true

/-- A list is refused for a blank part. -/
theorem parameterParts_eq_error_iff : parameterParts list = .error fault ↔
    ¬ AllBlank list ∧ fault = .emptyParameter list ∧ ∃ part ∈ cutCommas 0 list, AllBlank part := by
  unfold parameterParts
  dsimp only
  split_ifs with hlist hparts
  · exact ⟨nofun, fun h ↦ absurd (all_isBlank_iff.1 hlist) h.1⟩
  · have hsome : ∃ part ∈ cutCommas 0 list, AllBlank part := by
      simpa only [List.any_eq_true, all_isBlank_iff] using hparts
    exact ⟨fun h ↦ ⟨mt all_isBlank_iff.2 hlist, (Except.error.inj h).symm, hsome⟩,
      fun h ↦ by rw [h.2.1]⟩
  · have hnone : ¬ ∃ part ∈ cutCommas 0 list, AllBlank part := by
      simpa only [List.any_eq_true, all_isBlank_iff] using hparts
    exact ⟨nofun, fun h ↦ absurd h.2.2 hnone⟩

/-- A list that is accepted is blank, or none of its parts is. -/
theorem parameterParts_eq_ok_iff : parameterParts list = .ok parts ↔
    AllBlank list ∧ parts = [] ∨
      ¬ AllBlank list ∧ parts = cutCommas 0 list ∧ ∀ part ∈ parts, ¬ AllBlank part := by
  unfold parameterParts
  dsimp only
  split_ifs with hlist hparts
  · have hblank := all_isBlank_iff.1 hlist
    simp [hblank, eq_comm]
  · obtain ⟨part, hmem, hblank⟩ : ∃ part ∈ cutCommas 0 list, AllBlank part := by
      simpa only [List.any_eq_true, all_isBlank_iff] using hparts
    refine ⟨nofun, ?_⟩
    rintro (⟨h, -⟩ | ⟨-, rfl, h⟩)
    · exact absurd (all_isBlank_iff.2 h) hlist
    · exact absurd hblank (h part hmem)
  · have hnone : ∀ part ∈ cutCommas 0 list, ¬ AllBlank part := by
      simpa only [List.any_eq_true, all_isBlank_iff, not_exists, not_and] using hparts
    have hblank := mt all_isBlank_iff.2 hlist
    constructor
    · intro h
      obtain rfl := Except.ok.inj h
      exact .inr ⟨hblank, rfl, hnone⟩
    · rintro (⟨h, -⟩ | ⟨-, rfl, -⟩)
      · exact absurd h hblank
      · rfl

/-- **Cutting a parameter list is lossless.** A nested list that is not blank is refused exactly if
a stretch between its commas outside of parentheses is blank. Else it is cut into parts that are the
list again when commas are put between them, and each of them is nested and has no comma outside.
What stands between a parenthesis and its partner is such a nested list, in every text. -/
theorem parameterParts_lossless (hnested : IsNested list) (hblank : ¬ AllBlank list) :
    (∀ fault, parameterParts list = .error fault ↔
      fault = .emptyParameter list ∧ ∃ part, IsStretch list part ∧ AllBlank part) ∧
    (∀ parts, parameterParts list = .ok parts →
      joinWith [','] parts = list ∧ ∀ part ∈ parts, IsNested part ∧ ¬ HasOuterComma part) ∧
    ∀ s inner after, closeParen 0 s = some (inner, after) ↔
      s = inner ++ ')' :: after ∧ IsNested inner := by
  refine ⟨fun fault ↦ ?_, fun parts h ↦ ?_, fun s inner after ↦ closeParen_eq_some_iff⟩
  · simp only [parameterParts_eq_error_iff, mem_cutCommas_iff hnested, hblank, not_false_eq_true,
      true_and]
  · rcases parameterParts_eq_ok_iff.1 h with ⟨h, -⟩ | ⟨-, rfl, -⟩
    · exact absurd h hblank
    · refine ⟨joinWith_cutCommas hnested, fun part hpart ↦ ?_⟩
      obtain ⟨hpart, houter⟩ := balanced_iff.1 (balanced_of_mem_cutCommas hnested part hpart)
      exact ⟨hpart, fun h ↦ absurd (houter h) (by decide)⟩

/-- A comma in a tuple does not count, and a tab between two commas is blank. -/
theorem parameterParts_lossless_tuple :
    (parameterParts "uint a,(int,byte) b".toList = .ok ["uint a".toList, "(int,byte) b".toList] ∧
      joinWith [','] ["uint a".toList, "(int,byte) b".toList] = "uint a,(int,byte) b".toList ∧
      IsNested "(int,byte) b".toList ∧ ¬ HasOuterComma "(int,byte) b".toList) ∧
    parameterParts "(int,byte),\t,uint".toList =
        .error (.emptyParameter "(int,byte),\t,uint".toList) ∧
      ∃ part, IsStretch "(int,byte),\t,uint".toList part ∧ AllBlank part := by
  have hnested : ∀ s, closeParen 0 (s ++ [')']) = some (s, []) → IsNested s := fun s h ↦
    (closeParen_eq_some_iff.1 h).2
  have hcut : parameterParts "uint a,(int,byte) b".toList =
      .ok ["uint a".toList, "(int,byte) b".toList] := by decide
  have hrefused : parameterParts "(int,byte),\t,uint".toList =
      .error (.emptyParameter "(int,byte),\t,uint".toList) := by decide
  obtain ⟨-, hok, -⟩ := parameterParts_lossless (hnested "uint a,(int,byte) b".toList (by decide))
    (by decide)
  obtain ⟨hjoin, hparts⟩ := hok _ hcut
  obtain ⟨herror, -, -⟩ := parameterParts_lossless
    (hnested "(int,byte),\t,uint".toList (by decide)) (by decide)
  exact ⟨⟨hcut, hjoin, hparts _ (by simp)⟩, hrefused, ((herror _).1 hrefused).2⟩

end

end YulPlus
