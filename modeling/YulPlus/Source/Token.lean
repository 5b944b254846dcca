import YulPlus.Source.Position

/-!
# Tokens of the source language

The language is Yul with a few additional keywords and with two kinds of hash literal, a string
framed by the word `sig` or `topic`. A token keeps its place in the source, so that an edit can
replace single tokens and leave the text between them alone. `Token.text` gives back the characters
that the token was read from; only for the two hash literals do they differ from the value.
-/

namespace YulPlus

/-- The kinds of token. -/
inductive TokenKind
  | objectWord
  | codeWord
  | functionWord
  | letWord
  | enumWord
  | constWord
  | structWord
  | openBrace
  | closeBrace
  | openParen
  | closeParen
  | comma
  | colon
  | assign
  | arrow
  | string
  | number
  | selector
  | topic
  | identifier
  | endOfText
deriving DecidableEq, Repr

namespace TokenKind

/-- What an error message calls the kind: its fixed spelling, or the name of its class. -/
def label : TokenKind → String
  | objectWord => "object"
  | codeWord => "code"
  | functionWord => "function"
  | letWord => "let"
  | enumWord => "enum"
  | constWord => "const"
  | structWord => "mstruct"
  | openBrace => "\x7b"
  | closeBrace => "\x7d"
  | openParen => "("
  | closeParen => ")"
  | comma => ","
  | colon => ":"
  | assign => ":="
  | arrow => "->"
  | string => "STRING"
  | number => "NUMBER"
  | selector => "SIG"
  | topic => "TOPIC"
  | identifier => "IDENTIFIER"
  | endOfText => "EOF"

/-- The kind of an identifier-like word: a keyword if its spelling is reserved. -/
def ofWord (word : Text) : TokenKind :=
  if word = "object".toList then objectWord
  else if word = "code".toList then codeWord
  else if word = "function".toList then functionWord
  else if word = "let".toList then letWord
  else if word = "enum".toList then enumWord
  else if word = "const".toList then constWord
  else if word = "mstruct".toList then structWord
  else identifier

/-- The word that frames a hash literal of this kind, and `none` for every other kind. -/
def frame? : TokenKind → Option Text
  | selector => some "sig".toList
  | topic => some "topic".toList
  | _ => none

/-- The kind of hash literal that a word opens when a quote follows it directly. -/
def ofFrame? (word : Text) : Option TokenKind :=
  if word = "sig".toList then some selector
  else if word = "topic".toList then some topic
  else none

/-- Is this one of the two kinds of hash literal? -/
def isHash (k : TokenKind) : Bool :=
  k = selector || k = topic

/-- Does this keyword begin a declaration? -/
def isDeclaration (k : TokenKind) : Bool :=
  k = enumWord || k = constWord || k = structWord

end TokenKind

/-- A token and its place. -/
structure Token where
  kind : TokenKind
  /-- The characters of the token, or what stands between the quotes of a hash literal. -/
  value : Text
  /-- Where its first character stands. -/
  start : Position
  /-- The offset behind its last character. -/
  stop : Nat
deriving DecidableEq, Repr

namespace Token

/-- The token that closes every token list, at the position behind the whole text. -/
def endOfText (p : Position) : Token :=
  ⟨.endOfText, [], p, p.offset⟩

/-- The characters that the token was read from. -/
def text (t : Token) : Text :=
  match t.kind.frame? with
  | some word => word ++ '"' :: t.value ++ ['"']
  | none => t.value

end Token

end YulPlus
