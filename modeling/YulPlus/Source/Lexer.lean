import YulPlus.Source.Token
import YulPlus.Text.Letter
import YulPlus.Text.Numeral

/-!
# From text to tokens

A text is cut into lexemes: gaps (a blank character or a comment) and tokens. One cut looks at the
head of the remaining text and nothing else, so the lexer carries no state besides its position. The
shape of a cut is in its type: `Cut s` holds a nonempty piece and the rest, and together they are
`s`; that is also why the recursion ends.

Every fault is reported where the lexeme under way begins, however far the scan had run before it
noticed: `tokenizeFrom` attaches the position, the cuts only name the cause.

* `Cut.next` cuts one lexeme off a nonempty text.
* `tokenize` gives the tokens of a whole text, closed by `Token.endOfText`.
-/

namespace YulPlus

open Text

/-- Why no lexeme can be cut off. -/
inductive LexicalFault
  | unterminatedComment
  | unexpectedCharacter (c : Char)
  | unterminatedString
  | hexWithoutDigits
  | characterInNumber (c : Char)
deriving DecidableEq, Repr

/-- A lexical fault and the beginning of the lexeme it was found in. -/
structure LexicalError where
  position : Position
  fault : LexicalFault
deriving DecidableEq, Repr

/-- Can `c` begin an identifier? -/
def isIdentifierStart (c : Char) : Bool :=
  isLetter c || c = '_' || c = '$'

/-- Can `c` stand inside an identifier? -/
def isIdentifierPart (c : Char) : Bool :=
  isLetter c || isNumeral c || c = '_' || c = '$' || c = '.'

/-- Is `c` a character that may stand between tokens? -/
def isLayout (c : Char) : Bool :=
  c = ' ' || c = '\t' || c = '\r' || c = '\n'

/-- What a piece of text is: layout to pass over, or a token with its kind and value. -/
inductive Lexeme
  | gap
  | token (kind : TokenKind) (value : Text)
deriving DecidableEq, Repr

/-- A first lexeme of `s` with the characters it takes and those it leaves. -/
structure Cut (s : Text) where
  lexeme : Lexeme
  text : Text
  rest : Text
  text_append_rest : text ++ rest = s
  text_ne_nil : text ≠ []

/-- The end of a block comment: the characters up to and with the first `*/`, and the rest. -/
def closeComment : Text → Option (Text × Text)
  | [] => none
  | '*' :: '/' :: rest => some (['*', '/'], rest)
  | c :: rest => (closeComment rest).map fun (inner, after) => (c :: inner, after)

/-- The inside of a string, up to its closing quote, and the rest behind that quote. A backslash
keeps the character after it, whatever it is; a bare line feed ends the string too early. -/
def closeString : Text → Option (Text × Text)
  | [] => none
  | '"' :: rest => some ([], rest)
  | '\n' :: _ => none
  | '\\' :: c :: rest => (closeString rest).map fun (inner, after) => ('\\' :: c :: inner, after)
  | '\\' :: [] => none
  | c :: rest => (closeString rest).map fun (inner, after) => (c :: inner, after)

theorem append_of_closeComment {s inner after : Text}
    (h : closeComment s = some (inner, after)) : inner ++ after = s := by
  fun_induction closeComment s generalizing inner after with
  | case1 => simp at h
  | case2 rest => simp at h; obtain ⟨rfl, rfl⟩ := h; rfl
  | case3 c rest _ ih =>
    obtain ⟨⟨i, a⟩, hia, heq⟩ := Option.map_eq_some_iff.1 h
    simp at heq
    obtain ⟨rfl, rfl⟩ := heq
    simp [ih hia]

theorem append_of_closeString {s inner after : Text}
    (h : closeString s = some (inner, after)) : inner ++ '"' :: after = s := by
  fun_induction closeString s generalizing inner after with
  | case1 => simp at h
  | case2 rest => simp at h; obtain ⟨rfl, rfl⟩ := h; rfl
  | case3 => simp at h
  | case4 c rest ih =>
    obtain ⟨⟨i, a⟩, hia, heq⟩ := Option.map_eq_some_iff.1 h
    simp at heq
    obtain ⟨rfl, rfl⟩ := heq
    simp [ih hia]
  | case5 => simp at h
  | case6 c rest _ _ _ _ ih =>
    obtain ⟨⟨i, a⟩, hia, heq⟩ := Option.map_eq_some_iff.1 h
    simp at heq
    obtain ⟨rfl, rfl⟩ := heq
    simp [ih hia]

namespace Cut

/-- The rest is shorter than the whole. -/
theorem rest_length_lt {s : Text} (cut : Cut s) : cut.rest.length < s.length := by
  have := congrArg List.length cut.text_append_rest
  have := List.length_pos_iff.2 cut.text_ne_nil
  simp at *
  omega

/-- A cut that takes `head` and then the longest run of characters in `p`. -/
def run (head : Text) (p : Char → Bool) (tail : Text) (nonempty : head ≠ [])
    (lexeme : Text → Lexeme) : Cut (head ++ tail) where
  lexeme := lexeme (head ++ tail.takeWhile p)
  text := head ++ tail.takeWhile p
  rest := tail.dropWhile p
  text_append_rest := by simp [List.takeWhile_append_dropWhile]
  text_ne_nil := by simp [nonempty]

/-- A cut that takes exactly the characters `head`, which are also the value of the token. -/
def symbol (head tail : Text) (nonempty : head ≠ []) (kind : TokenKind) : Cut (head ++ tail) where
  lexeme := .token kind head
  text := head
  rest := tail
  text_append_rest := rfl
  text_ne_nil := nonempty

/-- A block comment whose opening characters are followed by `tail`. -/
def comment (tail : Text) : Except LexicalFault (Cut ('/' :: '*' :: tail)) :=
  match h : closeComment tail with
  | none => .error .unterminatedComment
  | some (inner, after) =>
    .ok
      { lexeme := .gap
        text := '/' :: '*' :: inner
        rest := after
        text_append_rest := by simp [append_of_closeComment h]
        text_ne_nil := by simp }

/-- A string literal whose opening quote is followed by `tail`. -/
def string (tail : Text) : Except LexicalFault (Cut ('"' :: tail)) :=
  match h : closeString tail with
  | none => .error .unterminatedString
  | some (inner, after) =>
    .ok
      { lexeme := .token .string ('"' :: inner ++ ['"'])
        text := '"' :: inner ++ ['"']
        rest := after
        text_append_rest := by simp [append_of_closeString h]
        text_ne_nil := by simp }

/-- A number may not run into a character that an identifier could go on with. -/
def checkNumberEnd {s : Text} (cut : Cut s) : Except LexicalFault (Cut s) :=
  match cut.rest with
  | [] => .ok cut
  | c :: _ => if isIdentifierPart c then .error (.characterInNumber c) else .ok cut

/-- A hexadecimal number whose `0x` is followed by `tail`: one digit at least. -/
def hexNumber (tail : Text) : Except LexicalFault (Cut ('0' :: 'x' :: tail)) :=
  match tail with
  | [] => .error .hexWithoutDigits
  | d :: more =>
    if isHexDigit d then
      checkNumberEnd (run ['0', 'x'] isHexDigit (d :: more) (by simp) (.token .number))
    else .error .hexWithoutDigits

/-- A word whose first character is `c`: a hash literal if it is a framing word with a quote right
behind it, else a keyword or an identifier. -/
def word (c : Char) (tail : Text) : Except LexicalFault (Cut (c :: tail)) :=
  let name := c :: tail.takeWhile isIdentifierPart
  match TokenKind.ofFrame? name, h : tail.dropWhile isIdentifierPart with
  | some kind, '"' :: quoted =>
    match hq : closeString quoted with
    | none => .error .unterminatedString
    | some (inner, after) =>
      .ok
        { lexeme := .token kind inner
          text := name ++ '"' :: inner ++ ['"']
          rest := after
          text_append_rest := by
            have hs := List.takeWhile_append_dropWhile (p := isIdentifierPart) (l := tail)
            rw [h, ← append_of_closeString hq] at hs
            simp [name, hs]
          text_ne_nil := by simp [name] }
  | _, _ =>
    .ok (run [c] isIdentifierPart tail (by simp) fun name => .token (TokenKind.ofWord name) name)

/-- Cut the first lexeme off the text `c :: tail`. -/
def next (c : Char) (tail : Text) : Except LexicalFault (Cut (c :: tail)) :=
  if isLayout c then
    .ok ⟨.gap, [c], tail, rfl, by simp⟩
  else
    match c, tail with
    | '/', '/' :: rest => .ok (run ['/', '/'] (· != '\n') rest (by simp) fun _ => .gap)
    | '/', '*' :: rest => comment rest
    | '\x7b', rest => .ok (symbol ['\x7b'] rest (by simp) .openBrace)
    | '\x7d', rest => .ok (symbol ['\x7d'] rest (by simp) .closeBrace)
    | '(', rest => .ok (symbol ['('] rest (by simp) .openParen)
    | ')', rest => .ok (symbol [')'] rest (by simp) .closeParen)
    | ',', rest => .ok (symbol [','] rest (by simp) .comma)
    | ':', '=' :: rest => .ok (symbol [':', '='] rest (by simp) .assign)
    | ':', rest => .ok (symbol [':'] rest (by simp) .colon)
    | '-', '>' :: rest => .ok (symbol ['-', '>'] rest (by simp) .arrow)
    | '"', rest => string rest
    | '0', 'x' :: rest => hexNumber rest
    | c, rest =>
      if isDigit c then checkNumberEnd (run [c] isDigit rest (by simp) (.token .number))
      else if isIdentifierStart c then word c rest
      else .error (.unexpectedCharacter c)

end Cut

/-- The tokens of a text that begins at position `p`. -/
def tokenizeFrom (p : Position) : Text → Except LexicalError (List Token)
  | [] => .ok [Token.endOfText p]
  | c :: tail =>
    match Cut.next c tail with
    | .error fault => .error ⟨p, fault⟩
    | .ok cut =>
      let q := p.after cut.text
      match tokenizeFrom q cut.rest with
      | .error e => .error e
      | .ok tokens =>
        match cut.lexeme with
        | .gap => .ok tokens
        | .token kind value => .ok (⟨kind, value, p, q.offset⟩ :: tokens)
termination_by s => s.length
decreasing_by exact cut.rest_length_lt

/-- The tokens of a whole text. -/
def tokenize (source : Text) : Except LexicalError (List Token) :=
  tokenizeFrom Position.start source

end YulPlus
