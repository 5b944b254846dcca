/-!
# Membership in a table of ranges

Character classes are stored as ascending lists of inclusive ranges of code points. Membership is
one walk that stops at the first range that starts above the code point, so the common characters,
which stand at the front of every table, are settled in a few steps.
-/

namespace YulPlus

namespace Text

/-- Does `n` lie in one of the inclusive ranges of an ascending table? -/
def inRanges : List (Nat × Nat) → Nat → Bool
  | [], _ => false
  | (lo, hi) :: rest, n =>
    if n < lo then false
    else if n ≤ hi then true
    else inRanges rest n

end Text

end YulPlus
