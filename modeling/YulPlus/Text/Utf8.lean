import YulPlus.Text.Basic

/-!
# UTF-8

Files are bytes and texts are characters. Every text has an encoding; bytes that are none are
refused with the place and the reason. A sequence breaks off at the first byte that cannot continue
it, and the fault covers the bytes that were good up to there; a sequence cut short by the end of
the bytes is a fault of its own kind and covers all that is left. Overlong forms, surrogates and
numbers beyond the last character are told by the second byte, so they count as a bad continuation.
-/

namespace YulPlus

namespace Utf8

/-- What is wrong with a sequence of bytes. -/
inductive Reason
  | invalidStart
  | invalidContinuation
  | unexpectedEnd
deriving DecidableEq, Repr

/-- A sequence of `length` bytes from offset `start` on that is no character. -/
structure Fault where
  firstByte : UInt8
  start : Nat
  length : Nat
  reason : Reason
deriving DecidableEq, Repr

namespace Reason

/-- The wording of a reason. -/
def message : Reason → Text
  | invalidStart => "invalid start byte".toList
  | invalidContinuation => "invalid continuation byte".toList
  | unexpectedEnd => "unexpected end of data".toList

end Reason

namespace Fault

/-- The wording of a fault. -/
def message (f : Fault) : Text :=
  "'utf-8' codec can't decode byte".toList ++
    (if f.length = 1 then
      " 0x".toList ++ Text.hexPadded 2 f.firstByte.toNat ++ " in position ".toList ++
        Text.decimal f.start
    else
      "s in position ".toList ++ Text.decimal f.start ++ '-' ::
        Text.decimal (f.start + f.length - 1)) ++
    ": ".toList ++ f.reason.message

end Fault

/-- Can the byte continue a sequence? -/
def isContinuation (b : UInt8) : Bool :=
  0x80 ≤ b && b < 0xc0

/-- Can `b` be the second byte of a sequence of three that begins with `a`? -/
def isSecondOfThree (a b : UInt8) : Bool :=
  isContinuation b && (if a = 0xe0 then 0xa0 ≤ b else if a = 0xed then b < 0xa0 else true)

/-- Can `b` be the second byte of a sequence of four that begins with `a`? -/
def isSecondOfFour (a b : UInt8) : Bool :=
  isContinuation b && (if a = 0xf0 then 0x90 ≤ b else if a = 0xf4 then b < 0x90 else true)

/-- The character of a sequence: the low bits of the first byte, modulo `first`, and six bits of
each further byte. -/
def join (first : Nat) (a : UInt8) (more : List UInt8) : Char :=
  Char.ofNat (more.foldl (fun n b => n * 64 + b.toNat % 64) (a.toNat % first))

/-- Put a character in front of what was decoded. -/
def push (c : Char) : Except Fault Text → Except Fault Text
  | .error fault => .error fault
  | .ok s => .ok (c :: s)

/-- Decode bytes of which the first stands at offset `at_`. -/
def decodeFrom (at_ : Nat) : List UInt8 → Except Fault Text
  | [] => .ok []
  | a :: rest =>
    if a < 0x80 then push (Char.ofNat a.toNat) (decodeFrom (at_ + 1) rest)
    else if a < 0xc2 then .error ⟨a, at_, 1, .invalidStart⟩
    else if a < 0xe0 then
      match rest with
      | [] => .error ⟨a, at_, 1, .unexpectedEnd⟩
      | b :: rest =>
        if isContinuation b then push (join 32 a [b]) (decodeFrom (at_ + 2) rest)
        else .error ⟨a, at_, 1, .invalidContinuation⟩
    else if a < 0xf0 then
      match rest with
      | [] => .error ⟨a, at_, 1, .unexpectedEnd⟩
      | b :: rest =>
        if isSecondOfThree a b then
          match rest with
          | [] => .error ⟨a, at_, 2, .unexpectedEnd⟩
          | c :: rest =>
            if isContinuation c then push (join 16 a [b, c]) (decodeFrom (at_ + 3) rest)
            else .error ⟨a, at_, 2, .invalidContinuation⟩
        else .error ⟨a, at_, 1, .invalidContinuation⟩
    else if a < 0xf5 then
      match rest with
      | [] => .error ⟨a, at_, 1, .unexpectedEnd⟩
      | b :: rest =>
        if isSecondOfFour a b then
          match rest with
          | [] => .error ⟨a, at_, 2, .unexpectedEnd⟩
          | c :: rest =>
            if isContinuation c then
              match rest with
              | [] => .error ⟨a, at_, 3, .unexpectedEnd⟩
              | d :: rest =>
                if isContinuation d then push (join 8 a [b, c, d]) (decodeFrom (at_ + 4) rest)
                else .error ⟨a, at_, 3, .invalidContinuation⟩
            else .error ⟨a, at_, 2, .invalidContinuation⟩
        else .error ⟨a, at_, 1, .invalidContinuation⟩
    else .error ⟨a, at_, 1, .invalidStart⟩

/-- The text that bytes are the encoding of. -/
def decode (bytes : List UInt8) : Except Fault Text :=
  decodeFrom 0 bytes

/-- The bytes of a text. -/
def encode (s : Text) : List UInt8 :=
  s.flatMap String.utf8EncodeChar

end Utf8

namespace Text

/-- A text as it is read from a file: every line break becomes a line feed. -/
def normalizeLines : Text → Text
  | [] => []
  | '\r' :: '\n' :: rest => '\n' :: normalizeLines rest
  | '\r' :: rest => '\n' :: normalizeLines rest
  | c :: rest => c :: normalizeLines rest

end Text

end YulPlus
