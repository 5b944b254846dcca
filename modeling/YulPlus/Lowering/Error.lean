import YulPlus.Decimal.Integer
import YulPlus.Signature.Parser
import YulPlus.Source.Lexer

/-!
# Errors of lowering

Almost every way in which a source can be refused is a located `SyntaxError`: a cause and the
position of the token, or of the lexeme, that it was noticed at. The one exception is a field size
that scans as a number and cannot be read as one; it is an error of the integer and not of the
place.
-/

namespace YulPlus

open Text

/-- Why a source is refused at some place. -/
inductive SyntaxFault
  | lexical (fault : LexicalFault)
  | unexpectedBracket (bracket : Text)
  | unclosedBracket (bracket : Text)
  | unterminatedBlock
  | expected (kinds : List TokenKind) (found : Text)
  | declarationOutside (keyword : Text)
  | signature (fault : SignatureFault)
  | duplicateName (name : Text)
  | duplicateField (name : Text)
  | fieldSize
deriving DecidableEq, Repr

/-- A fault and its place. -/
structure SyntaxError where
  position : Position
  fault : SyntaxFault
deriving DecidableEq, Repr

/-- Why a source cannot be lowered. -/
inductive LoweringError
  | located (error : SyntaxError)
  | integer (fault : IntegerFault)
deriving DecidableEq, Repr

/-- The largest field that one slice of memory can hold, in bytes. -/
def maxSliceBytes : Nat := 32

namespace LexicalFault

/-- The wording of a lexical fault. -/
def message : LexicalFault → Text
  | unterminatedComment => "Unterminated block comment".toList
  | unexpectedCharacter c => "Unexpected character: ".toList ++ quoted [c]
  | unterminatedString => "Unterminated string literal".toList
  | hexWithoutDigits => "Hexadecimal literal without digits".toList
  | characterInNumber c => "Invalid character in number literal: ".toList ++ quoted [c]

end LexicalFault

namespace SyntaxFault

/-- The wording of a fault, without its place. -/
def message : SyntaxFault → Text
  | lexical fault => fault.message
  | unexpectedBracket bracket => "Unexpected ".toList ++ quoted bracket
  | unclosedBracket bracket => "Unclosed ".toList ++ quoted bracket
  | unterminatedBlock => "Unterminated block".toList
  | expected kinds found =>
    "Expected ".toList ++ joinWith ", ".toList (kinds.map fun k => quoted k.label.toList) ++
      ", got ".toList ++ quoted found
  | declarationOutside keyword =>
    '\'' :: keyword ++ "' declaration outside of a code block".toList
  | signature fault => fault.message
  | duplicateName name => "Duplicate declaration of ".toList ++ quoted name
  | duplicateField name => "Duplicate mstruct field ".toList ++ quoted name
  | fieldSize => "mstruct field size must be between 1 and ".toList ++ decimal maxSliceBytes

end SyntaxFault

namespace SyntaxError

/-- The whole message: the place and then the fault. -/
def message (e : SyntaxError) : Text :=
  "Line ".toList ++ decimal e.position.line ++ ", column ".toList ++ decimal e.position.column ++
    ": ".toList ++ e.fault.message

end SyntaxError

namespace LoweringError

/-- The whole message of an error. -/
def message : LoweringError → Text
  | located error => error.message
  | integer fault => fault.message

end LoweringError

namespace LexicalError

/-- A lexical error among the errors of a source. -/
def toSyntaxError (e : LexicalError) : SyntaxError :=
  ⟨e.position, .lexical e.fault⟩

end LexicalError

namespace Token

/-- The error that a token is at fault for. -/
def error (t : Token) (fault : SyntaxFault) : SyntaxError :=
  ⟨t.start, fault⟩

/-- The error that a token stands where only other kinds may. -/
def unexpected (t : Token) (kinds : List TokenKind) : SyntaxError :=
  t.error (.expected kinds t.value)

end Token

end YulPlus
