import YulPlus.Decimal.Binary64

/-!
# The shortest decimal digits of a number

The digits a floating-point number is written with are the fewest that read back as the same number,
and among those the nearest to it. The reals that round to a number form an interval around it; its
ends belong to it if the significand is even. For one digit, two digits and so on up to seventeen,
the two neighbours of the number on that decimal grid are tested against the interval; the first
grid with a hit wins, of two hits the nearer one, and a tie goes to the even digit.
-/

namespace YulPlus

namespace Decimal

/-- The number `significand · 10 ^ exponent`. -/
structure Digits where
  significand : Nat
  exponent : Int
deriving DecidableEq, Repr

namespace Digits

/-- The digits of the significand. -/
def text (d : Digits) : List Char :=
  Nat.toDigits 10 d.significand

/-- The exponent that the number has when a point stands behind its first digit. -/
def leadingExponent (d : Digits) : Int :=
  Int.ofNat d.text.length - 1 + d.exponent

/-- Drop zeros at the end of the significand, at most as many as the first argument says. -/
def dropZeros : Nat → Digits → Digits
  | 0, d => d
  | n + 1, d =>
    if d.significand % 10 = 0 && d.significand ≠ 0 then
      dropZeros n ⟨d.significand / 10, d.exponent + 1⟩
    else d

end Digits

/-- A positive number and the interval of the reals that round to it, over one denominator. -/
structure Interval where
  value : Nat
  low : Nat
  high : Nat
  denominator : Nat
  /-- Do the ends belong to the interval? -/
  closed : Bool

namespace Interval

/-- The interval of `significand · 2 ^ exponent`. Below a power of two the numbers lie twice as
close, so the lower end is half as far away. -/
def ofBinary (significand : Nat) (exponent : Int) : Interval :=
  let factor := if exponent < 2 then 1 else Nat.pow 2 (exponent - 2).toNat
  let denominator := if exponent < 2 then Nat.pow 2 (2 - exponent).toNat else 1
  let narrow := significand = Binary64.hiddenBit && exponent > -1074
  { value := 4 * significand * factor
    low := (4 * significand - if narrow then 1 else 2) * factor
    high := (4 * significand + 2) * factor
    denominator := denominator
    closed := significand % 2 = 0 }

/-- Does `d` lie in the interval? -/
def contains (i : Interval) (d : Digits) : Bool :=
  let (n, scale) :=
    if d.exponent < 0 then (d.significand * i.denominator, Nat.pow 10 d.exponent.natAbs)
    else (d.significand * Nat.pow 10 d.exponent.natAbs * i.denominator, 1)
  if i.closed then i.low * scale ≤ n && n ≤ i.high * scale
  else i.low * scale < n && n < i.high * scale

/-- The largest multiple of `10 ^ exponent` that does not exceed the number, in units of that power,
and whether the next multiple is nearer (or as near, and even). -/
def below (i : Interval) (exponent : Int) : Nat × Bool :=
  let (n, d) :=
    if exponent < 0 then (i.value * Nat.pow 10 exponent.natAbs, i.denominator)
    else (i.value, i.denominator * Nat.pow 10 exponent.natAbs)
  let quotient := n / d
  let twice := 2 * (n % d)
  (quotient, twice > d || (twice = d && quotient % 2 = 1))

/-- The number of digits before the decimal point, negative for a number that begins with zeros
behind the point. -/
def magnitude (i : Interval) : Int :=
  Int.ofNat (Nat.toDigits 10 (i.value * Nat.pow 10 330 / i.denominator)).length - 330

/-- The nearest of the two neighbours on the grid of `places` digits that lie in the interval. -/
def onGrid? (i : Interval) (places : Nat) : Option Digits :=
  let exponent := i.magnitude - Int.ofNat places
  let (quotient, up) := i.below exponent
  let lower : Digits := ⟨quotient, exponent⟩
  let upper : Digits := ⟨quotient + 1, exponent⟩
  match i.contains lower, i.contains upper with
  | true, true => some (if up then upper else lower)
  | true, false => some lower
  | false, true => some upper
  | false, false => none

end Interval

/-- The shortest digits of the positive number `significand · 2 ^ exponent`. -/
def shortest (significand : Nat) (exponent : Int) : Digits :=
  let i := Interval.ofBinary significand exponent
  let found := (List.range 17).findSome? fun n => i.onGrid? (n + 1)
  (found.getD ⟨0, 0⟩).dropZeros 17

end Decimal

end YulPlus
