import YulPlus.Text.Basic
import YulPlus.Text.Ranges

/-!
# Blank characters, stripping and words

Signatures are written with free spacing, and every Unicode space counts: the controls from tab to
carriage return, the four separators U+001C to U+001F, the space, U+0085, U+00A0 and the spaces of
the punctuation blocks. `strip` removes blanks at both ends and `words` cuts a text at its blanks;
both use the same class, so a text that `strip` leaves nonempty has a first word.
-/

namespace YulPlus

namespace Text

/-- The blank characters, ascending. -/
def blankRanges : List (Nat × Nat) :=
  [(0x9, 0xd), (0x1c, 0x20), (0x85, 0x85), (0xa0, 0xa0), (0x1680, 0x1680), (0x2000, 0x200a),
   (0x2028, 0x2029), (0x202f, 0x202f), (0x205f, 0x205f), (0x3000, 0x3000)]

/-- Is `c` a space of any kind? -/
def isBlank (c : Char) : Bool :=
  inRanges blankRanges c.toNat

/-- Remove the blanks at the front. -/
def stripLeft (s : Text) : Text :=
  s.dropWhile isBlank

/-- Remove the blanks at the back. -/
def stripRight (s : Text) : Text :=
  (s.reverse.dropWhile isBlank).reverse

/-- Remove the blanks at both ends. -/
def strip (s : Text) : Text :=
  stripRight (stripLeft s)

/-- The words of `s` when `word` holds the characters of the word under way, last first. -/
def wordsFrom (word : List Char) : Text → List Text
  | [] => if word.isEmpty then [] else [word.reverse]
  | c :: rest =>
    if isBlank c then
      if word.isEmpty then wordsFrom [] rest else word.reverse :: wordsFrom [] rest
    else wordsFrom (c :: word) rest

/-- The maximal stretches of `s` without a blank, in order. -/
def words (s : Text) : List Text :=
  wordsFrom [] s

end Text

end YulPlus
