import Mathlib.Data.List.Forall2
import YulPlus.Proofs.Json.RoundTrip

/-!
# The limit of a reader

A reader with a limit cuts a text in the same places as one without; only an integer of too many
digits is another token (`Token.Cut`), and the first of these ends the reading. So a text is read to
the same value, or it is `Oversized` and refused for the number of digits
(`parseWithin_of_parseWithin_none`). -/

namespace YulPlus

open Text

namespace Json

/-- A token of a reader without a limit, and what a reader with a limit makes of it. -/
inductive Token.Cut (most : Nat) : Token → Token → Prop
  | same (t : Token) : Cut most t t
  | oversized (n : Int) {digits : Nat} (h : most < digits) :
    Cut most (.scalar (.int n)) (.oversized digits)

/-- The text holds an integer of more digits than the reader takes. -/
def Oversized (limit : Option Nat) (s : Text) : Prop :=
  ∃ ts digits, tokens? limit s = some ts ∧ .oversized digits ∈ ts

section

variable {most : Nat} {negative : Bool} {s rest : Text} {t t' : Token} {ts ts' : List Token}
  {state : State} {v : Value}

/-! ### Tokens under a limit -/

theorem exists_number?_cut (h : number? none negative s = some (t, rest)) :
    ∃ t', number? (some most) negative s = some (t', rest) ∧ t.Cut most t' := by
  unfold number? at h ⊢
  dsimp only at h ⊢
  split at h
  · cases h
  · next hdigits =>
    rw [if_neg hdigits]
    split at h
    · next hinteger =>
      rw [if_pos hinteger]
      simp only [isOversized, Option.any_none, Bool.false_eq_true, if_false, Option.any_some,
        decide_eq_true_eq] at h ⊢
      cases h
      split
      · next hmore => exact ⟨_, rfl, .oversized _ hmore⟩
      · exact ⟨_, rfl, .same _⟩
    · next hfloat =>
      rw [if_neg hfloat]
      exact ⟨t, h, .same t⟩

theorem exists_token?_cut (h : token? none s = some (t, rest)) :
    ∃ t', token? (some most) s = some (t', rest) ∧ t.Cut most t' := by
  -- Only the branch of numbers asks for the limit.
  unfold token? at h ⊢
  split at h
  all_goals try exact ⟨t, h, .same t⟩
  split at h
  · exact ⟨t, h, .same t⟩
  · next c rest' _ _ _ _ _ _ _ hword =>
    split at h
    · next hminus =>
      obtain ⟨t', ht', hcut⟩ := exists_number?_cut h
      exact ⟨t', by simpa [hword, hminus] using ht', hcut⟩
    · next hminus =>
      obtain ⟨t', ht', hcut⟩ := exists_number?_cut h
      exact ⟨t', by simpa [hword, hminus] using ht', hcut⟩

theorem exists_tokens?_cut (h : tokens? none s = some ts) :
    ∃ ts', tokens? (some most) s = some ts' ∧ List.Forall₂ (Token.Cut most) ts ts' := by
  fun_induction tokens? none s generalizing ts with
  | case1 =>
    cases h
    exact ⟨[], by rw [tokens?], .nil⟩
  | case2 c rest hspace ih =>
    obtain ⟨ts', hts', hcut⟩ := ih h
    exact ⟨ts', by rwa [tokens?, if_pos hspace], hcut⟩
  | case3 => cases h
  | case4 c rest hspace t after htoken ih =>
    obtain ⟨more, hmore, rfl⟩ := Option.map_eq_some_iff.mp h
    obtain ⟨t', ht', hcut⟩ := exists_token?_cut htoken
    obtain ⟨ts', hts', hcuts⟩ := ih hmore
    refine ⟨t' :: ts', ?_, .cons hcut hcuts⟩
    rw [tokens?, if_neg hspace]
    split
    · next hnone => cases hnone.symm.trans ht'
    · next hsome =>
      cases hsome.symm.trans ht'
      rw [hts']
      rfl

/-! ### Reading under a limit -/

/-- Where a scalar may stand, an oversized integer is refused. -/
theorem step_oversized {n : Int} {digits : Nat} {next : State}
    (h : step state (.scalar (.int n)) = .ok next) :
    step state (.oversized digits) = .error (.tooManyDigits digits) := by
  cases state with
  | value | firstItem => rfl
  | afterItem | firstKey | key | colon | afterEntry | done => cases h

theorem step_oversized_ne_ok {digits : Nat} {next : State} :
    step state (.oversized digits) ≠ .ok next := by
  cases state <;> exact nofun

theorem run_cons : run state (t :: ts) = (step state t).bind (run · ts) := by
  rw [run]
  cases step state t <;> rfl

/-- What is read without a limit is read under one, unless an oversized integer is met. -/
theorem run_cut (hcut : List.Forall₂ (Token.Cut most) ts ts') (h : run state ts = .ok v) :
    (run state ts' = .ok v ∧ ∀ digits, .oversized digits ∉ ts') ∨
      ∃ digits, most < digits ∧ .oversized digits ∈ ts' ∧
        run state ts' = .error (.tooManyDigits digits) := by
  -- Up to the first oversized integer both readers are in the same state.
  induction hcut generalizing state with
  | nil => exact .inl ⟨h, fun _ ↦ List.not_mem_nil⟩
  | @cons t t' ts ts' hhead _ ih =>
    rw [run_cons] at h
    obtain ⟨next, hnext, hrest⟩ : ∃ next, step state t = .ok next ∧ run next ts = .ok v := by
      cases hstep : step state t <;> rw [hstep] at h
      · cases h
      · exact ⟨_, rfl, h⟩
    rw [run_cons]
    cases hhead with
    | same =>
      rw [hnext]
      rcases ih hrest with ⟨hrun, hnot⟩ | ⟨digits, hmore, hmem, hrun⟩
      · refine .inl ⟨hrun, fun digits hmem ↦ ?_⟩
        rcases List.mem_cons.mp hmem with rfl | hmem
        · exact step_oversized_ne_ok hnext
        · exact hnot digits hmem
      · exact .inr ⟨digits, hmore, List.mem_cons_of_mem _ hmem, hrun⟩
    | @oversized n digits hmore =>
      rw [step_oversized hnext]
      exact .inr ⟨digits, hmore, List.mem_cons_self, rfl⟩

/-- **A text is read to the same value under a limit, unless it is oversized.** Then it is refused
for the number of digits of an integer in it. -/
theorem parseWithin_of_parseWithin_none (h : parseWithin none s = .ok v) :
    (¬ Oversized (some most) s → parseWithin (some most) s = .ok v) ∧
      (Oversized (some most) s → ∃ digits, most < digits ∧
        parseWithin (some most) s = .error (.tooManyDigits digits)) := by
  obtain ⟨ts, htokens, hrun⟩ : ∃ ts, tokens? none s = some ts ∧ run (.value []) ts = .ok v := by
    unfold parseWithin at h
    split at h
    · cases h
    · next ts htokens => exact ⟨ts, htokens, h⟩
  obtain ⟨ts', hts', hcut⟩ := exists_tokens?_cut htokens
  have hparse : parseWithin (some most) s = run (.value []) ts' := by
    rw [parseWithin, hts']
  rw [hparse]
  rcases run_cut hcut hrun with ⟨hvalue, hnot⟩ | ⟨digits, hmore, hmem, hrefused⟩
  · refine ⟨fun _ ↦ hvalue, fun hover ↦ ?_⟩
    obtain ⟨_, digits, htokens', hmem⟩ := hover
    cases hts'.symm.trans htokens'
    exact absurd hmem (hnot digits)
  · exact ⟨fun hnot ↦ absurd ⟨ts', digits, hts', hmem⟩ hnot, fun _ ↦ ⟨digits, hmore, hrefused⟩⟩

/-- The reader of the program takes a text that is not oversized. -/
theorem parse_of_parseWithin_none (h : parseWithin none s = .ok v) :
    (¬ Oversized (some Decimal.maxDigits) s → parse s = .ok v) ∧
      (Oversized (some Decimal.maxDigits) s → ∃ digits, Decimal.maxDigits < digits ∧
        parse s = .error (.tooManyDigits digits)) :=
  parseWithin_of_parseWithin_none h

/-- What is written compactly from a value with short integers is not oversized. -/
theorem not_oversized_compact (hnone : Portable none v) (h : Portable (some most) v) :
    ¬ Oversized (some most) (compact v) := by
  intro hover
  obtain ⟨_, -, hrefused⟩ :=
    (parseWithin_of_parseWithin_none (parseWithin_compact hnone)).2 hover
  cases hrefused.symm.trans (parseWithin_compact h)

end

end Json

end YulPlus
