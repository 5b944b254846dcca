import YulPlus.Data.Value
import YulPlus.Decimal.Integer

/-!
# JSON tokens

A JSON text is cut into punctuation and scalars. Besides the standard scalars the words `NaN`,
`Infinity` and `-Infinity` are numbers. A number with a fraction or an exponent is a floating-point
number, any other an integer. A reader may have a limit for the digits of an integer; one with more
digits is a token of its own, since it is an error only where a value is read.

In a string, characters below U+0020 have to be escaped, and an escaped surrogate needs its partner.
-/

namespace YulPlus

open Text

namespace Json

/-- A token of a JSON text. -/
inductive Token
  | openBrace
  | closeBrace
  | openBracket
  | closeBracket
  | comma
  | colon
  | scalar (s : Scalar)
  | oversized (digits : Nat)
deriving Repr

/-- Is `c` one of the four characters that may stand between tokens? -/
def isSpace (c : Char) : Bool :=
  c = ' ' || c = '\t' || c = '\n' || c = '\r'

/-! ### Strings -/

/-- The number that four hexadecimal digits spell. -/
def hexQuad? (a b c d : Char) : Option Nat :=
  if isHexDigit a && isHexDigit b && isHexDigit c && isHexDigit d then some (hexNumber [a, b, c, d])
  else none

/-- The character that a letter stands for behind a backslash. -/
def escaped? : Char → Option Char
  | '"' => some '"'
  | '\\' => some '\\'
  | '/' => some '/'
  | 'b' => some '\x08'
  | 'f' => some '\x0c'
  | 'n' => some '\n'
  | 'r' => some '\r'
  | 't' => some '\t'
  | _ => none

/-- Is the number a first half of a surrogate pair? -/
def isHighSurrogate (n : Nat) : Bool :=
  0xd800 ≤ n && n < 0xdc00

/-- Is the number a second half of a surrogate pair? -/
def isLowSurrogate (n : Nat) : Bool :=
  0xdc00 ≤ n && n < 0xe000

/-- The code point of a surrogate pair. -/
def joinSurrogates (high low : Nat) : Nat :=
  0x10000 + (high - 0xd800) * 0x400 + (low - 0xdc00)

/-- Put a character in front of the string that was read. -/
def pushChar (c : Char) : Option (Text × Text) → Option (Text × Text)
  | none => none
  | some (s, rest) => some (c :: s, rest)

/-- The content of a string whose opening quote has been read, and the rest behind its closing
quote. -/
def stringFrom : Text → Option (Text × Text)
  | [] => none
  | '"' :: rest => some ([], rest)
  | '\\' :: 'u' :: a :: b :: c :: d :: rest =>
    match hexQuad? a b c d with
    | none => none
    | some n =>
      if isHighSurrogate n then
        match rest with
        | '\\' :: 'u' :: e :: f :: g :: h :: after =>
          match hexQuad? e f g h with
          | none => none
          | some low =>
            if isLowSurrogate low then
              pushChar (Char.ofNat (joinSurrogates n low)) (stringFrom after)
            else none
        | _ => none
      else if isLowSurrogate n then none
      else pushChar (Char.ofNat n) (stringFrom rest)
  | '\\' :: c :: rest =>
    match escaped? c with
    | none => none
    | some char => pushChar char (stringFrom rest)
  | c :: rest => if c.toNat < 0x20 || c = '\\' then none else pushChar c (stringFrom rest)

theorem stringFrom_quote (rest : Text) : stringFrom ('"' :: rest) = some ([], rest) := by
  rw [stringFrom]

theorem rest_length_of_pushChar {c : Char} {r : Option (Text × Text)} {s rest : Text} {n : Nat}
    (h : pushChar c r = some (s, rest))
    (hr : ∀ {s rest : Text}, r = some (s, rest) → rest.length < n) : rest.length < n := by
  cases r with
  | none => simp [pushChar] at h
  | some p =>
    simp [pushChar] at h
    obtain ⟨rfl, rfl⟩ := h
    exact hr rfl

/-- The rest is shorter than the text. -/
theorem rest_length_of_stringFrom {t s rest : Text} (h : stringFrom t = some (s, rest)) :
    rest.length < t.length := by
  fun_induction stringFrom t generalizing s rest <;>
    first
      | contradiction
      | (simp at h; obtain ⟨-, rfl⟩ := h; simp)
      | (rename_i ih
         have := rest_length_of_pushChar h ih
         simp only [List.length_cons]
         omega)

/-! ### Numbers -/

/-- The digits `0`–`9` at the head of a text. -/
def isAsciiDigit (c : Char) : Bool :=
  '0' ≤ c && c ≤ '9'

/-- The number that the digits `0`–`9` spell. -/
def numberOfAscii (s : Text) : Nat :=
  numberOf 10 (fun c => c.toNat - '0'.toNat) s

/-- The fraction at the head of a text: its digits, and the rest. No fraction has no digits. -/
def fraction (s : Text) : Text × Text :=
  match s with
  | '.' :: rest =>
    let digits := rest.takeWhile isAsciiDigit
    if digits.isEmpty then ([], s) else (digits, rest.dropWhile isAsciiDigit)
  | _ => ([], s)

/-- The exponent at the head of a text, if there is one, and the rest. -/
def exponent? (s : Text) : Option Int × Text :=
  match s with
  | [] => (none, s)
  | e :: signed =>
    if e = 'e' || e = 'E' then
      let (negative, rest) :=
        match signed with
        | '-' :: rest => (true, rest)
        | '+' :: rest => (false, rest)
        | _ => (false, signed)
      let digits := rest.takeWhile isAsciiDigit
      if digits.isEmpty then (none, s)
      else
        let n := Int.ofNat (numberOfAscii digits)
        (some (if negative then -n else n), rest.dropWhile isAsciiDigit)
    else (none, s)

/-- The digits of an integer at the head of a text: a zero alone, or digits that begin with another
one. -/
def integerDigits (s : Text) : Text :=
  match s with
  | '0' :: _ => ['0']
  | _ => s.takeWhile isAsciiDigit

/-- Are these more digits than the reader takes? A reader without a limit takes any. -/
def isOversized (limit : Option Nat) (digits : Text) : Bool :=
  limit.any fun most => most < digits.length

/-- A number at the head of a text, after its sign. -/
def number? (limit : Option Nat) (negative : Bool) (s : Text) : Option (Token × Text) :=
  let digits := integerDigits s
  if digits.isEmpty then none
  else
    let (places, afterFraction) := fraction (s.drop digits.length)
    let (exponent, rest) := exponent? afterFraction
    if places.isEmpty && exponent.isNone then
      if isOversized limit digits then some (.oversized digits.length, rest)
      else
        let n := Int.ofNat (numberOfAscii digits)
        some (.scalar (.int (if negative then -n else n)), rest)
    else
      let significand := numberOfAscii (digits ++ places)
      some (.scalar (.float (Binary64.ofDecimal negative significand
        (exponent.getD 0 - Int.ofNat places.length))), rest)

theorem fraction_length (s : Text) : (fraction s).2.length ≤ s.length := by
  unfold fraction
  split
  · rename_i rest
    have := length_dropWhile_le isAsciiDigit rest
    dsimp only
    split
    · simp
    · simp only [List.length_cons]
      omega
  · simp

theorem exponent_length (s : Text) : (exponent? s).2.length ≤ s.length := by
  unfold exponent?
  split
  · simp
  · rename_i e signed
    split
    · dsimp only
      split <;> split <;> simp only [List.length_cons] <;>
        grind [length_dropWhile_le]
    · simp

/-- A number takes characters. -/
theorem rest_length_of_number {limit : Option Nat} {negative : Bool} {s rest : Text} {t : Token}
    (h : number? limit negative s = some (t, rest)) : rest.length < s.length := by
  have key : ∀ d : Text, d = integerDigits s → d ≠ [] →
      (exponent? (fraction (s.drop d.length)).2).2.length < s.length := by
    intro d hd hne
    have h₁ := exponent_length (fraction (s.drop d.length)).2
    have h₂ := fraction_length (s.drop d.length)
    have h₃ : 0 < d.length := List.length_pos_iff.2 hne
    have h₄ : s ≠ [] := by
      rintro rfl
      simp [integerDigits] at hd
      exact hne hd
    have h₅ : 0 < s.length := List.length_pos_iff.2 h₄
    simp at h₂
    omega
  unfold number? at h
  dsimp only at h
  split at h
  · simp at h
  · rename_i hne
    have := key _ rfl (by simpa using hne)
    split at h
    · split at h <;> simp at h <;> obtain ⟨-, rfl⟩ := h <;> exact this
    · simp at h
      obtain ⟨-, rfl⟩ := h
      exact this

/-! ### Cutting a text into tokens -/

/-- The words that stand for scalars. -/
def scalarWords : List (Text × Scalar) :=
  [("null".toList, .null), ("true".toList, .bool true), ("false".toList, .bool false),
   ("NaN".toList, .float .notANumber), ("Infinity".toList, .float (.infinity false)),
   ("-Infinity".toList, .float (.infinity true))]

/-- A word at the head of a text that stands for a scalar. -/
def word? (s : Text) : Option (Scalar × Text) :=
  scalarWords.findSome? fun (word, scalar) => (dropHead? word s).map fun rest => (scalar, rest)

/-- The first token of a text that does not begin with a space, and the rest. -/
def token? (limit : Option Nat) (s : Text) : Option (Token × Text) :=
  match s with
  | [] => none
  | '\x7b' :: rest => some (.openBrace, rest)
  | '\x7d' :: rest => some (.closeBrace, rest)
  | '[' :: rest => some (.openBracket, rest)
  | ']' :: rest => some (.closeBracket, rest)
  | ',' :: rest => some (.comma, rest)
  | ':' :: rest => some (.colon, rest)
  | '"' :: rest => (stringFrom rest).map fun (content, after) => (.scalar (.text content), after)
  | c :: rest =>
    match word? (c :: rest) with
    | some (scalar, after) => some (.scalar scalar, after)
    | none => if c = '-' then number? limit true rest else number? limit false (c :: rest)

theorem rest_length_of_word {s rest : Text} {v : Scalar} (h : word? s = some (v, rest)) :
    rest.length < s.length := by
  obtain ⟨⟨word, scalar⟩, hmem, hword⟩ := List.exists_of_findSome?_eq_some h
  obtain ⟨r, hr, heq⟩ := Option.map_eq_some_iff.1 hword
  simp at heq
  obtain ⟨-, rfl⟩ := heq
  have hpos : 0 < word.length := by
    have hall : ∀ entry ∈ scalarWords, 0 < entry.1.length := by decide
    exact hall _ hmem
  have := length_of_dropHead hr
  omega

/-- A token takes characters. -/
theorem rest_length_of_token {limit : Option Nat} {s rest : Text} {t : Token}
    (h : token? limit s = some (t, rest)) : rest.length < s.length := by
  unfold token? at h
  split at h <;> try contradiction
  all_goals try (simp at h; obtain ⟨-, rfl⟩ := h; simp)
  · obtain ⟨⟨c, a⟩, hca, heq⟩ := Option.map_eq_some_iff.1 h
    simp at heq
    obtain ⟨-, rfl⟩ := heq
    have := rest_length_of_stringFrom hca
    simp
    omega
  · split at h
    · rename_i hw
      simp at h
      obtain ⟨-, rfl⟩ := h
      exact rest_length_of_word hw
    · split at h
      · have := rest_length_of_number h
        simp
        omega
      · exact rest_length_of_number h

set_option linter.unusedVariables false in
/-- The tokens of a text; `none` if it holds something that is no token. -/
def tokens? (limit : Option Nat) (s : Text) : Option (List Token) :=
  match s with
  | [] => some []
  | c :: rest =>
    if isSpace c then tokens? limit rest
    else
      match h : token? limit (c :: rest) with
      | none => none
      | some (t, after) => (tokens? limit after).map (t :: ·)
termination_by s.length
decreasing_by
  · simp
  · exact rest_length_of_token h

end Json

end YulPlus
