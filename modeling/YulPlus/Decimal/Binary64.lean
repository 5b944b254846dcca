/-!
# Binary floating-point numbers of 64 bits

A number is kept by its bit pattern: sign, eleven bits of exponent, 52 bits of fraction. Everything
here is arithmetic on natural numbers, so two numbers are equal exactly if their patterns are.

`Binary64.ofDecimal` rounds `digits · 10 ^ exponent` to the nearest number, a tie to the one with
the even significand. It looks for the scale at which the quotient has 53 bits, or for the smallest
scale there is, and rounds once; the pattern of a rounded quotient is the quotient plus an offset
that depends on the scale alone, also where rounding carries into the next power of two.
-/

namespace YulPlus

/-- A floating-point number, by its bit pattern. -/
structure Binary64 where
  bits : UInt64
deriving DecidableEq, Repr, Inhabited

namespace Binary64

/-- What a bit pattern stands for. -/
inductive View
  /-- The number `± significand · 2 ^ exponent`. -/
  | finite (negative : Bool) (significand : Nat) (exponent : Int)
  | infinite (negative : Bool)
  | nan
deriving DecidableEq, Repr

/-- The patterns of the positive numbers end at this one, which is infinity. -/
def infinityBits : Nat := 0x7ff0000000000000

/-- The bit that is set in negative numbers. -/
def signBit : Nat := 0x8000000000000000

/-- The bit in front of the fraction, which is set but not stored in all but the smallest numbers;
so it is also the distance between the patterns of a number and of its double. -/
def hiddenBit : Nat := 0x10000000000000

/-- The number whose pattern is `magnitude`, with a sign. -/
def ofMagnitude (negative : Bool) (magnitude : Nat) : Binary64 :=
  ⟨UInt64.ofNat (if negative then signBit + magnitude else magnitude)⟩

/-- Positive or negative infinity. -/
def infinity (negative : Bool) : Binary64 :=
  ofMagnitude negative infinityBits

/-- The number that is none. -/
def notANumber : Binary64 :=
  ⟨0x7ff8000000000000⟩

/-- Read a bit pattern. -/
def view (x : Binary64) : View :=
  let n := x.bits.toNat
  let negative := signBit ≤ n
  let magnitude := n % signBit
  let biased := magnitude / hiddenBit
  let fraction := magnitude % hiddenBit
  if biased = 0x7ff then if fraction = 0 then .infinite negative else .nan
  else if biased = 0 then .finite negative fraction (-1074)
  else .finite negative (fraction + hiddenBit) (Int.ofNat biased - 1075)

/-- `numerator / denominator` rounded to the nearest integer, a tie to the even one. -/
def roundQuotient (numerator denominator : Nat) : Nat :=
  let quotient := numerator / denominator
  let twice := 2 * (numerator % denominator)
  if twice > denominator || (twice = denominator && quotient % 2 = 1) then quotient + 1
  else quotient

/-- `numerator · 2 ^ scale / denominator` as a fraction of natural numbers. -/
def scaled (numerator denominator : Nat) (scale : Int) : Nat × Nat :=
  if scale < 0 then (numerator, denominator * Nat.pow 2 scale.natAbs)
  else (numerator * Nat.pow 2 scale.natAbs, denominator)

/-- The magnitude of the number nearest to a positive fraction. -/
def magnitudeOfRatio (numerator denominator : Nat) : Nat :=
  let guess : Int := 52 - (Int.ofNat numerator.log2 - Int.ofNat denominator.log2)
  let (n, d) := scaled numerator denominator guess
  let scale := min 1074 (if n / d < hiddenBit then guess + 1 else guess)
  let (n, d) := scaled numerator denominator scale
  min infinityBits (roundQuotient n d + (1074 - scale).toNat * hiddenBit)

/-- The number nearest to `± digits · 10 ^ exponent`. The two early answers are those that the
general computation would give for the numbers beyond the range, found without large powers. -/
def ofDecimal (negative : Bool) (digits : Nat) (exponent : Int) : Binary64 :=
  let places := Int.ofNat (Nat.toDigits 10 digits).length
  if digits = 0 || places + exponent < -400 then ofMagnitude negative 0
  else if places + exponent > 400 then infinity negative
  else if exponent < 0 then
    ofMagnitude negative (magnitudeOfRatio digits (Nat.pow 10 exponent.natAbs))
  else ofMagnitude negative (magnitudeOfRatio (digits * Nat.pow 10 exponent.natAbs) 1)

/-- Is the number equal to the integer `n`? -/
def equalsInt (x : Binary64) (n : Int) : Bool :=
  match x.view with
  | .finite negative significand exponent =>
    (negative == decide (n < 0) || n = 0) &&
      (if exponent < 0 then significand = n.natAbs * Nat.pow 2 exponent.natAbs
       else significand * Nat.pow 2 exponent.natAbs = n.natAbs)
  | _ => false

/-- Are the two numbers equal? The two zeros are, and the number that is none is equal to
nothing. -/
def equals (x y : Binary64) : Bool :=
  match x.view, y.view with
  | .nan, _ => false
  | _, .nan => false
  | .finite _ 0 _, .finite _ 0 _ => true
  | _, _ => x = y

end Binary64

end YulPlus
