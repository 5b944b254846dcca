import YulPlus.Data.Value

/-!
# Writing JSON

Two layouts of the same values.

* `Json.compact` is the compiler input: no space at all, characters as they are except for the
  quote, the backslash and the controls below U+0020, and `null` for a number that is none.
* `Json.indented` is the artifact record: two spaces per level, one item or entry a line, nothing
  but printable ASCII, and an empty container as its two brackets.

A key that is no text is written as the text of its scalar; the two layouts name truth values alike
and the null key differently. A character beyond U+FFFF is escaped by its surrogate pair.
-/

namespace YulPlus

open Text

namespace Json

/-! ### Strings -/

/-- The short escape of a character, if it has one. -/
def shortEscape? : Char → Option Text
  | '"' => some ['\\', '"']
  | '\\' => some ['\\', '\\']
  | '\n' => some ['\\', 'n']
  | '\r' => some ['\\', 'r']
  | '\t' => some ['\\', 't']
  | '\x08' => some ['\\', 'b']
  | '\x0c' => some ['\\', 'f']
  | _ => none

/-- The escape of a code unit by number. -/
def unitEscape (n : Nat) : Text :=
  '\\' :: 'u' :: hexPadded 4 n

/-- The escape of a character by number, in one code unit or two. -/
def numberEscape (c : Char) : Text :=
  let n := c.toNat
  if n < 0x10000 then unitEscape n
  else
    unitEscape (0xd800 + (n - 0x10000) / 0x400) ++ unitEscape (0xdc00 + (n - 0x10000) % 0x400)

/-- One character of a string whose characters are written plainly where `plain` allows it. -/
def encodeChar (plain : Char → Bool) (c : Char) : Text :=
  match shortEscape? c with
  | some escape => escape
  | none => if plain c then [c] else numberEscape c

/-- A string between quotes. -/
def encodeString (plain : Char → Bool) (s : Text) : Text :=
  '"' :: s.flatMap (encodeChar plain) ++ ['"']

/-- The characters that the compiler input does not escape. -/
def isPlain (c : Char) : Bool :=
  0x20 ≤ c.toNat

/-- The characters that an artifact record does not escape. -/
def isPlainAscii (c : Char) : Bool :=
  0x20 ≤ c.toNat && c.toNat < 0x7f

/-! ### Scalars and keys -/

/-- What a layout decides about scalars. -/
structure Style where
  plain : Char → Bool
  number : Binary64 → Text
  nullKey : Text

/-- The scalars of the compiler input. -/
def wireStyle : Style where
  plain := isPlain
  number x :=
    match x.view with
    | .finite _ _ _ => wireNotation.render x
    | _ => "null".toList
  nullKey := "None".toList

/-- The scalars of an artifact record. -/
def recordStyle : Style where
  plain := isPlainAscii
  number := recordNotation.render
  nullKey := "null".toList

/-- The text of a scalar. -/
def encodeScalar (style : Style) : Scalar → Text
  | .null => "null".toList
  | .bool b => if b then "true".toList else "false".toList
  | .int n => (toString n).toList
  | .float x => style.number x
  | .text s => encodeString style.plain s

/-- The text that a key is written as, before it is put between quotes. -/
def keyText (style : Style) : Scalar → Text
  | .null => style.nullKey
  | .bool b => if b then "true".toList else "false".toList
  | .int n => (toString n).toList
  | .float x => plainNotation.render x
  | .text s => s

/-- A key between quotes. -/
def encodeKey (style : Style) (key : Scalar) : Text :=
  encodeString style.plain (keyText style key)

/-! ### The compact layout -/

mutual

/-- A value without any space. -/
def compactWith (style : Style) : Value → Text
  | .scalar s => encodeScalar style s
  | .list items => '[' :: compactItems style items ++ [']']
  | .map entries => '\x7b' :: compactEntries style entries ++ ['\x7d']

/-- Items with commas between them. -/
def compactItems (style : Style) : List Value → Text
  | [] => []
  | [v] => compactWith style v
  | v :: next :: rest => compactWith style v ++ ',' :: compactItems style (next :: rest)

/-- Entries with commas between them. -/
def compactEntries (style : Style) : List (Scalar × Value) → Text
  | [] => []
  | [(key, v)] => encodeKey style key ++ ':' :: compactWith style v
  | (key, v) :: next :: rest =>
    encodeKey style key ++ ':' :: compactWith style v ++ ',' :: compactEntries style (next :: rest)

end

/-- The text of a value as compiler input. -/
def compact (v : Value) : Text :=
  compactWith wireStyle v

/-! ### The indented layout -/

/-- A line break and the spaces of a level. -/
def newLine (level : Nat) : Text :=
  '\n' :: List.replicate (2 * level) ' '

mutual

/-- A value that stands at a level, its parts one level deeper. -/
def indentedAt (style : Style) (level : Nat) : Value → Text
  | .scalar s => encodeScalar style s
  | .list [] => ['[', ']']
  | .list (v :: rest) =>
    '[' :: newLine (level + 1) ++ indentedItems style (level + 1) (v :: rest) ++
      newLine level ++ [']']
  | .map [] => ['\x7b', '\x7d']
  | .map (entry :: rest) =>
    '\x7b' :: newLine (level + 1) ++ indentedEntries style (level + 1) (entry :: rest) ++
      newLine level ++ ['\x7d']

/-- Items, each on a line of its own but for the first. -/
def indentedItems (style : Style) (level : Nat) : List Value → Text
  | [] => []
  | [v] => indentedAt style level v
  | v :: next :: rest =>
    indentedAt style level v ++ ',' :: newLine level ++ indentedItems style level (next :: rest)

/-- Entries, each on a line of its own but for the first. -/
def indentedEntries (style : Style) (level : Nat) : List (Scalar × Value) → Text
  | [] => []
  | [(key, v)] => encodeKey style key ++ ':' :: ' ' :: indentedAt style level v
  | (key, v) :: next :: rest =>
    encodeKey style key ++ ':' :: ' ' :: indentedAt style level v ++ ',' :: newLine level ++
      indentedEntries style level (next :: rest)

end

/-- The text of a value as a record of its own. -/
def indented (v : Value) : Text :=
  indentedAt recordStyle 0 v

end Json

end YulPlus
