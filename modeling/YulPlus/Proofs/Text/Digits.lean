import Mathlib.Algebra.Group.Nat.Defs
import Mathlib.Data.List.Basic
import YulPlus.Text.Basic
import YulPlus.Text.Numeral

/-!
# Digits

A number that is written in a base is read from its digits as it was (`numberOf_toDigits`), and
zeros in front of the digits change nothing, so the same holds of digits that are filled up to a
width (`hexNumber_hexPadded`). -/

namespace YulPlus

open Text

/-! ### Hexadecimal digits -/

theorem isHexDigit_digitChar {n : Nat} (h : n < 16) : isHexDigit n.digitChar = true := by
  revert n
  decide

theorem isHexDigit_of_mem_toDigits {n : Nat} {c : Char} (hc : c ∈ Nat.toDigits 16 n) :
    isHexDigit c = true := by
  induction n using Nat.strongRecOn with
  | ind n ih =>
    rw [Nat.toDigits_eq_if (by decide)] at hc
    split at hc
    · rename_i hn
      obtain rfl := List.mem_singleton.1 hc
      exact isHexDigit_digitChar hn
    · rename_i hn
      rcases List.mem_append.1 hc with hc | hc
      · exact ih (n / 16) (by omega) hc
      · obtain rfl := List.mem_singleton.1 hc
        exact isHexDigit_digitChar (Nat.mod_lt n (by decide))

theorem isHexDigit_of_mem_hexPadded {width n : Nat} {c : Char} (hc : c ∈ hexPadded width n) :
    isHexDigit c = true := by
  rcases List.mem_append.1 hc with hc | hc
  · obtain rfl := List.eq_of_mem_replicate hc
    decide
  · exact isHexDigit_of_mem_toDigits hc

theorem hexPadded_ne_nil (width n : Nat) : hexPadded width n ≠ [] :=
  List.append_ne_nil_of_right_ne_nil _ Nat.toDigits_ne_nil

theorem length_hexPadded {width n : Nat} (hwidth : 0 < width) (h : n < 16 ^ width) :
    (hexPadded width n).length = width := by
  have hdigits := (Nat.length_toDigits_le_iff (b := 16) (by decide) hwidth).mpr h
  simp only [hexPadded, List.length_append, List.length_replicate]
  omega

/-! ### Decimal digits -/

theorem not_mem_toDigits {c : Char} (hc : c.isDigit = false) (n : Nat) : c ∉ Nat.toDigits 10 n := by
  intro h
  rw [Nat.isDigit_of_mem_toDigits (by decide) (by decide) h] at hc
  cases hc

/-- An integer is written in digits and perhaps a minus sign. -/
theorem not_mem_toString {c : Char} (hc : c.isDigit = false) (hminus : c ≠ '-') (n : Int) :
    c ∉ (toString n).toList := by
  rw [Int.toString_eq_repr, Int.repr_eq_if]
  split
  · rw [Nat.toList_repr]
    exact not_mem_toDigits hc _
  · rw [String.toList_append, Nat.toList_repr, List.mem_append]
    exact fun h ↦ h.elim (fun h ↦ hminus (List.mem_singleton.1 h)) (not_mem_toDigits hc _)

/-! ### The number that digits spell -/

section

variable {base : Nat} {value : Char → Nat}

theorem numberOf_append_singleton (s : Text) (c : Char) :
    numberOf base value (s ++ [c]) = numberOf base value s * base + value c := by
  simp [numberOf]

/-- **A number is read from the digits that it is written in.** -/
theorem numberOf_toDigits (hbase : 1 < base) (hvalue : ∀ d < base, value d.digitChar = d)
    (n : Nat) : numberOf base value (Nat.toDigits base n) = n := by
  induction n using Nat.strongRecOn with
  | ind n ih =>
    rw [Nat.toDigits_eq_if hbase]
    split
    · next hn => simp [numberOf, hvalue n hn]
    · next hn =>
      rw [numberOf_append_singleton, ih (n / base) (Nat.div_lt_self (by omega) hbase),
        hvalue _ (Nat.mod_lt n (by omega)), Nat.div_add_mod']

theorem numberOf_replicate_append (hzero : value '0' = 0) (k : Nat) (s : Text) :
    numberOf base value (List.replicate k '0' ++ s) = numberOf base value s := by
  induction k with
  | zero => rfl
  | succ k ih => simpa [numberOf, List.replicate_succ, hzero] using ih

end

theorem hexDigitValue_digitChar : ∀ d < 16, hexDigitValue d.digitChar = d := by
  decide

theorem hexNumber_hexPadded (width n : Nat) : hexNumber (hexPadded width n) = n := by
  show numberOf 16 hexDigitValue (List.replicate _ '0' ++ Nat.toDigits 16 n) = n
  rw [numberOf_replicate_append (by decide)]
  exact numberOf_toDigits (by decide) hexDigitValue_digitChar n

/-- A positive number is written without a zero in front. -/
theorem head?_toDigits_ne_zero {n : Nat} (h : 0 < n) : (Nat.toDigits 10 n).head? ≠ some '0' := by
  induction n using Nat.strongRecOn with
  | ind n ih =>
    rw [Nat.toDigits_eq_if (by decide)]
    split
    · simp
      omega
    · next hn =>
      have hfront := ih (n / 10) (by omega) (by omega)
      rwa [List.head?_append_of_ne_nil _ Nat.toDigits_ne_nil]

end YulPlus
