import YulPlus.Text.Basic
import YulPlus.Text.Printable

/-!
# Quoted display

Error messages show a piece of text between quotes. The quote is `'`, or `"` when the text holds a
`'` and no `"`. Inside, the backslash and the quote get a backslash, line feed, carriage return and
tab have their short escapes, and every other character that is not printable is written by number:
`\xNN` below U+0100, `\uNNNN` below U+10000, `\UNNNNNNNN` above.
-/

namespace YulPlus

namespace Text

namespace Quoted

/-- The quote that `s` is shown between. -/
def quoteOf (s : Text) : Char :=
  if s.contains '\'' && !s.contains '"' then '"' else '\''

/-- The number escape of a character. -/
def numberEscape (c : Char) : Text :=
  if c.toNat < 0x100 then '\\' :: 'x' :: hexPadded 2 c.toNat
  else if c.toNat < 0x10000 then '\\' :: 'u' :: hexPadded 4 c.toNat
  else '\\' :: 'U' :: hexPadded 8 c.toNat

/-- One character as it stands between the quotes `quote`. -/
def encodeChar (quote c : Char) : Text :=
  if c = '\\' then ['\\', '\\']
  else if c = quote then ['\\', c]
  else if c = '\n' then ['\\', 'n']
  else if c = '\r' then ['\\', 'r']
  else if c = '\t' then ['\\', 't']
  else if isPrintable c then [c]
  else numberEscape c

end Quoted

/-- The quoted display of `s`. -/
def quoted (s : Text) : Text :=
  let quote := Quoted.quoteOf s
  quote :: s.flatMap (Quoted.encodeChar quote) ++ [quote]

end Text

end YulPlus
