import YulPlus.Text.Numeral
import YulPlus.Text.Quoted

/-!
# Integers in decimal digits

A decimal integer may be written in the digits of any script. At most 4300 digits are read; they are
counted before anything else is looked at, up to the first character that is no decimal digit. An
integer is shown in at most as many digits.
-/

namespace YulPlus

open Text

/-- Why a text is not read as an integer, or an integer is not shown as a text. -/
inductive IntegerFault
  | invalid (text : Text)
  | tooManyDigits (count : Nat)
  | notShown
deriving DecidableEq, Repr

namespace IntegerFault

/-- The wording of a fault; a long text is shown by the first 200 characters of its display. -/
def message : IntegerFault → Text
  | invalid text =>
    "invalid literal for int() with base 10: ".toList ++ (quoted text).take 200
  | tooManyDigits count =>
    "Exceeds the limit (4300 digits) for integer string conversion: value has ".toList ++
      decimal count ++ " digits; use sys.set_int_max_str_digits() to increase the limit".toList
  | notShown =>
    ("Exceeds the limit (4300 digits) for integer string conversion; " ++
      "use sys.set_int_max_str_digits() to increase the limit").toList

end IntegerFault

namespace Decimal

/-- The most digits that are read or shown. -/
def maxDigits : Nat := 4300

/-- Is `c` a decimal digit of some script? -/
def isDecimalDigit (c : Char) : Bool :=
  (digitValue? c).isSome

/-- The number that decimal digits spell. -/
def numberOfDigits (s : Text) : Nat :=
  numberOf 10 (fun c => (digitValue? c).getD 0) s

/-- Read a natural number that is written in decimal digits and nothing else. -/
def readNatural (s : Text) : Except IntegerFault Nat :=
  let digits := s.takeWhile isDecimalDigit
  if digits.length > maxDigits then .error (.tooManyDigits digits.length)
  else if digits.isEmpty || digits.length < s.length then .error (.invalid s)
  else .ok (numberOfDigits digits)

/-- Show an integer in decimal digits, behind a minus sign if it is negative. -/
def showInteger (n : Int) : Except IntegerFault Text :=
  if (decimal n.natAbs).length > maxDigits then .error .notShown else .ok (toString n).toList

end Decimal

end YulPlus
