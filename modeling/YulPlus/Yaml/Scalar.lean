import YulPlus.Data.Value
import YulPlus.Decimal.Integer
import YulPlus.Yaml.Cursor

/-!
# Scalars of a YAML text

Plain scalars run over words and the gaps between them and may go on in the next line; quoted
scalars end at their quote. In both, a single line break reads as a space and every further one as
itself: folding.

`Scalar.ofPlain` decides what a plain scalar means: null, a truth value, an integer in base 2, 8, 10
or 16, a floating-point number, or else a text. A floating-point number has a point, and its
exponent a sign; underscores in numbers are passed over.
-/

namespace YulPlus

namespace Yaml

/-- Why a text is not read as YAML. The last two causes are beyond the grammar: a character or an
integer that there is none for. -/
inductive Fault
  | malformed
  | noCharacter
  | integer (fault : IntegerFault)
  | emptyInteger (base : Nat)
deriving DecidableEq, Repr

/-! ### Plain scalars -/

/-- The characters that end a plain scalar inside brackets. -/
def isFlowIndicator (c : Char) : Bool :=
  c = ',' || c = '[' || c = ']' || c = '\x7b' || c = '\x7d'

/-- Does a colon in front of this text end a plain scalar? -/
def endsAtColon (flow : Bool) : Text → Bool
  | [] => true
  | c :: _ => isSeparator c || (flow && isFlowIndicator c)

/-- The word of a plain scalar that a text begins with. -/
def plainWord (flow : Bool) : Text → Text
  | [] => []
  | c :: rest =>
    if isSeparator c || (c = ':' && endsAtColon flow rest) ||
        (flow && (isFlowIndicator c || c = '?')) then []
    else c :: plainWord flow rest

/-- What a line break and the further ones behind it are folded to. -/
def fold (first : Char) (more : Text) : Text :=
  (if first ≠ '\n' then [first] else if more.isEmpty then [' '] else []) ++ more

set_option linter.unusedVariables false in
/-- The further line breaks in a gap, with the place behind it; the truth value tells that the gap
ends at a mark between documents. -/
def gapBreaks (k : Cursor) : Text × Cursor × Bool :=
  match h : k.rest with
  | [] => ([], k, false)
  | ' ' :: rest => gapBreaks k.next
  | c :: rest =>
    match hb : k.lineBreak? with
    | none => ([], k, false)
    | some (b, after) =>
      if atDocumentMark after.rest then ([b], after, true)
      else
        let (more, last, mark) := gapBreaks after
        (b :: more, last, mark)
termination_by k.rest.length
decreasing_by
  · rw [Cursor.next_rest, h]
    simp
  · exact Cursor.lineBreak_length hb

/-- A gap between the words of a plain scalar. -/
structure Gap where
  /-- What the gap reads as; empty if the scalar cannot go on. -/
  text : Text
  cursor : Cursor
  /-- Does the gap reach into another line? -/
  breaksLine : Bool

/-- The gap that begins here. -/
def plainGap (k : Cursor) : Gap :=
  let (spaces, k) := k.takeWhile (· = ' ')
  match k.lineBreak? with
  | none => ⟨spaces, k, false⟩
  | some (b, after) =>
    if atDocumentMark after.rest then ⟨[], after, true⟩
    else
      match gapBreaks after with
      | (_, last, true) => ⟨[], last, true⟩
      | (more, last, false) => ⟨fold b more, last, true⟩

set_option linter.unusedVariables false in
/-- A plain scalar from here on, with the place behind it and behind the gap that follows. Outside
of brackets it goes on only in columns from `indent` on. -/
def plainScalar (flow : Bool) (indent : Nat) (k : Cursor) : Gap :=
  let word := plainWord flow k.rest
  let gap := plainGap (k.skip word.length)
  let stops := gap.text.isEmpty || gap.cursor.rest.head? = some '#' ||
    (!flow && gap.cursor.column < indent) || (plainWord flow gap.cursor.rest).isEmpty
  if h : ¬ stops ∧ gap.cursor.rest.length < k.rest.length then
    let more := plainScalar flow indent gap.cursor
    { more with text := word ++ gap.text ++ more.text }
  else { gap with text := word }
termination_by k.rest.length
decreasing_by exact h.2

/-! ### Quoted scalars -/

set_option linter.unusedVariables false in
/-- The line breaks in a quoted scalar behind a first one, and the place behind them. -/
def quotedBreaks (k : Cursor) : Except Fault (Text × Cursor) :=
  if atDocumentMark k.rest then .error .malformed
  else
    let after := (k.takeWhile fun c => c = ' ' || c = '\t').2
    match h : after.lineBreak? with
    | none => .ok ([], after)
    | some (b, last) =>
      match quotedBreaks last with
      | .error fault => .error fault
      | .ok (more, last) => .ok (b :: more, last)
termination_by k.rest.length
decreasing_by
  have h₁ := Cursor.lineBreak_length h
  simp only [after, Cursor.takeWhile, Cursor.skip_rest, List.length_drop] at h₁
  omega

/-- The character of an escape with a letter. -/
def escaped? : Char → Option Char
  | '0' => some '\x00'
  | 'a' => some '\x07'
  | 'b' => some '\x08'
  | 't' => some '\t'
  | '\t' => some '\t'
  | 'n' => some '\n'
  | 'v' => some '\x0b'
  | 'f' => some '\x0c'
  | 'r' => some '\r'
  | 'e' => some '\x1b'
  | ' ' => some ' '
  | '"' => some '"'
  | '\\' => some '\\'
  | '/' => some '/'
  | 'N' => some '\x85'
  | '_' => some '\xa0'
  | 'L' => some '\u2028'
  | 'P' => some '\u2029'
  | _ => none

/-- The number of digits of an escape by number. -/
def escapeWidth? : Char → Option Nat
  | 'x' => some 2
  | 'u' => some 4
  | 'U' => some 8
  | _ => none

/-- What an escape reads as, and the place behind it; `k` is the place behind the backslash. -/
def escape (k : Cursor) : Except Fault (Text × Cursor) :=
  match k.rest with
  | [] => .error .malformed
  | c :: rest =>
    match escaped? c, escapeWidth? c with
    | some char, _ => .ok ([char], k.next)
    | none, some width =>
      let digits := rest.take width
      if digits.length < width || !digits.all Text.isHexDigit then .error .malformed
      else
        let n := Text.hexNumber digits
        if n ≥ 0x110000 then .error .noCharacter
        else if n.isValidChar then .ok ([Char.ofNat n], k.next.skip width)
        else .error .malformed
    | none, none =>
      match k.lineBreak? with
      | none => .error .malformed
      | some (_, after) => quotedBreaks after

/-- A run of spaces and line breaks in a quoted scalar. -/
def quotedGap (k : Cursor) : Except Fault (Text × Cursor) :=
  let (blanks, after) := k.takeWhile fun c => c = ' ' || c = '\t'
  match after.lineBreak? with
  | none => .ok (blanks, after)
  | some (b, after) =>
    match quotedBreaks after with
    | .error fault => .error fault
    | .ok (more, last) => .ok (fold b more, last)

/-- What stands next in a quoted scalar: a piece of its text, or its end. -/
def quotedPiece (double : Bool) (k : Cursor) : Except Fault (Option Text × Cursor) :=
  match k.rest with
  | [] => .error .malformed
  | c :: rest =>
    if isSeparator c then (quotedGap k).map fun (text, after) => (some text, after)
    else if double then
      if c = '"' then .ok (none, k.next)
      else if c = '\\' then (escape k.next).map fun (text, after) => (some text, after)
      else .ok (some [c], k.next)
    else if c = '\'' then
      if rest.head? = some '\'' then .ok (some ['\''], k.skip 2) else .ok (none, k.next)
    else .ok (some [c], k.next)

/-- The text of a quoted scalar whose opening quote is in front of `k`, and the place behind its
closing quote. Every piece takes characters, which is checked here and makes the recursion end. -/
def quotedScalar (double : Bool) (k : Cursor) : Except Fault (Text × Cursor) :=
  match quotedPiece double k with
  | .error fault => .error fault
  | .ok (none, after) => .ok ([], after)
  | .ok (some piece, after) =>
    if after.rest.length < k.rest.length then
      match quotedScalar double after with
      | .error fault => .error fault
      | .ok (more, last) => .ok (piece ++ more, last)
    else .error .malformed
termination_by k.rest.length

/-! ### What a plain scalar means -/

/-- Is `c` one of `0`–`9`? -/
def isDigit (c : Char) : Bool :=
  '0' ≤ c && c ≤ '9'

/-- Is `c` a digit or an underscore? -/
def isDigitOrGap (c : Char) : Bool :=
  isDigit c || c = '_'

/-- Drop a sign in front of a text and tell whether it is a minus. -/
def dropSign : Text → Bool × Text
  | '-' :: rest => (true, rest)
  | '+' :: rest => (false, rest)
  | s => (false, s)

/-- The text without its underscores. -/
def dropGaps (s : Text) : Text :=
  s.filter (· ≠ '_')

/-- The digits and the base of an integer without its sign, if it is written as one. -/
def integerDigits? (s : Text) : Option (Text × Nat) :=
  match s with
  | '0' :: 'b' :: digits =>
    if !digits.isEmpty && digits.all fun c => c = '0' || c = '1' || c = '_' then
      some (dropGaps digits, 2)
    else none
  | '0' :: 'x' :: digits =>
    if !digits.isEmpty && digits.all fun c => Text.isHexDigit c || c = '_' then
      some (dropGaps digits, 16)
    else none
  | ['0'] => some (['0'], 10)
  | '0' :: digits =>
    if digits.all fun c => ('0' ≤ c && c ≤ '7') || c = '_' then
      some (if (dropGaps digits).isEmpty then (['0'], 10) else ('0' :: dropGaps digits, 8))
    else none
  | c :: digits =>
    if isDigit c && digits.all isDigitOrGap then some (dropGaps (c :: digits), 10) else none
  | [] => none

/-- The value of an integer by its digits. -/
def integerOfDigits (digits : Text) (base : Nat) : Except Fault Nat :=
  if digits.isEmpty then .error (.emptyInteger base)
  else if base = 10 && digits.length > Decimal.maxDigits then
    .error (.integer (.tooManyDigits digits.length))
  else .ok (Text.numberOf base Text.hexDigitValue digits)

/-- The exponent of a floating-point number, if the whole text is one or empty. -/
def exponentOf? (s : Text) : Option Int :=
  match s with
  | [] => some 0
  | e :: sign :: digits =>
    if (e = 'e' || e = 'E') && (sign = '+' || sign = '-') && !digits.isEmpty &&
        digits.all isDigit then
      let n := Int.ofNat (Text.numberOf 10 Text.hexDigitValue digits)
      some (if sign = '-' then -n else n)
    else none
  | _ => none

/-- The number `± whole.places · 10 ^ exponent`. -/
def decimalNumber (negative : Bool) (whole places : Text) (exponent : Int) : Binary64 :=
  Binary64.ofDecimal negative (Text.numberOf 10 Text.hexDigitValue (whole ++ places))
    (exponent - Int.ofNat places.length)

/-- A floating-point number without its sign, if it is written as one. A number that begins with its
point has no sign. -/
def float? (signed negative : Bool) (s : Text) : Option Binary64 :=
  match s with
  | [] => none
  | '.' :: rest =>
    if rest = "inf".toList || rest = "Inf".toList || rest = "INF".toList then
      some (.infinity negative)
    else if signed then none
    else if rest = "nan".toList || rest = "NaN".toList || rest = "NAN".toList then
      some .notANumber
    else if rest.head?.any isDigit then
      (exponentOf? (rest.dropWhile isDigitOrGap)).map fun exponent =>
        decimalNumber false [] (dropGaps (rest.takeWhile isDigitOrGap)) exponent
    else none
  | c :: _ =>
    if isDigit c then
      match s.dropWhile isDigitOrGap with
      | '.' :: rest =>
        (exponentOf? (rest.dropWhile isDigitOrGap)).map fun exponent =>
          decimalNumber negative (dropGaps (s.takeWhile isDigitOrGap))
            (dropGaps (rest.takeWhile isDigitOrGap)) exponent
      | _ => none
    else none

/-- The words that stand for null and for truth values. -/
def words : List (Text × Scalar) :=
  let spellings := fun (word : List String) (scalar : Scalar) =>
    word.map fun s => (s.toList, scalar)
  spellings ["", "~", "null", "Null", "NULL"] .null ++
    spellings ["yes", "Yes", "YES", "true", "True", "TRUE", "on", "On", "ON"] (.bool true) ++
    spellings ["no", "No", "NO", "false", "False", "FALSE", "off", "Off", "OFF"] (.bool false)

/-- What a plain scalar means. -/
def ofPlain (s : Text) : Except Fault Scalar :=
  match words.find? fun entry => entry.1 = s with
  | some (_, scalar) => .ok scalar
  | none =>
    let (negative, unsigned) := dropSign s
    let signed := unsigned.length < s.length
    match float? signed negative unsigned, integerDigits? unsigned with
    | some x, _ => .ok (.float x)
    | none, some (digits, base) =>
      match integerOfDigits digits base with
      | .error fault => .error fault
      | .ok n => .ok (.int (if negative then -Int.ofNat n else Int.ofNat n))
    | none, none => .ok (.text s)

end Yaml

end YulPlus
