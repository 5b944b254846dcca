import YulPlus.Decimal.Shortest
import YulPlus.Text.Basic

/-!
# Writing floating-point numbers

A notation decides how shortest digits are laid out: which magnitudes are written without an
exponent, how an exponent is written, and what stands for the values that are no numbers. A number
without an exponent always has a point, and an integral one has a zero behind it.

Two notations are in use. `plainNotation` is how numbers appear in records and messages: positional
from `0.0001` up to sixteen digits, and an exponent of two digits at least. `wireNotation` belongs
to the compiler input: positional from `0.00001` up to sixteen digits, and an exponent without
padding.
-/

namespace YulPlus

open Text

/-- How floating-point numbers are laid out. -/
structure Notation where
  /-- The least leading exponent that is written positionally. -/
  least : Int
  /-- The greatest leading exponent that is written positionally. -/
  greatest : Int
  /-- The least number of digits of an exponent. -/
  exponentWidth : Nat
  infinity : Text
  nan : Text

namespace Notation

/-- A nonzero number in positional notation. -/
def positional (d : Decimal.Digits) : Text :=
  let digits := d.text
  let before := d.leadingExponent + 1
  if before ≤ 0 then
    '0' :: '.' :: List.replicate before.natAbs '0' ++ digits
  else if digits.length ≤ before.toNat then
    digits ++ List.replicate (before.toNat - digits.length) '0' ++ ['.', '0']
  else digits.take before.toNat ++ '.' :: digits.drop before.toNat

/-- A nonzero number with an exponent. -/
def scientific (width : Nat) (d : Decimal.Digits) : Text :=
  let exponent := d.leadingExponent
  let digits := decimal exponent.natAbs
  let padded := List.replicate (width - digits.length) '0' ++ digits
  let sign := if exponent < 0 then '-' else '+'
  let mantissa :=
    match d.text with
    | [] => []
    | [c] => [c]
    | c :: rest => c :: '.' :: rest
  mantissa ++ 'e' :: sign :: padded

/-- The text of a number. -/
def render (f : Notation) (x : Binary64) : Text :=
  match x.view with
  | .nan => f.nan
  | .infinite negative => if negative then '-' :: f.infinity else f.infinity
  | .finite negative 0 _ => if negative then ['-', '0', '.', '0'] else ['0', '.', '0']
  | .finite negative significand exponent =>
    let d := Decimal.shortest significand exponent
    let body :=
      if f.least ≤ d.leadingExponent && d.leadingExponent ≤ f.greatest then positional d
      else scientific f.exponentWidth d
    if negative then '-' :: body else body

end Notation

/-- The notation of messages and of keys. -/
def plainNotation : Notation :=
  ⟨-4, 15, 2, ['i', 'n', 'f'], ['n', 'a', 'n']⟩

/-- The notation of artifact records, which spells the values that are no numbers out. -/
def recordNotation : Notation :=
  { plainNotation with infinity := "Infinity".toList, nan := "NaN".toList }

/-- The notation of the compiler input. -/
def wireNotation : Notation :=
  { plainNotation with least := -5, exponentWidth := 1 }

end YulPlus
