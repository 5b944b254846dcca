import YulPlus.Json.Token

/-!
# Reading JSON

A JSON text is one value. Tokens are read by a machine whose state holds the containers that are
open, innermost first, and what may come next; so reading is one recursion on the tokens. When a
container closes, it becomes an item of the one around it, or the result.

In an object the last entry of a key counts and stands where the first one stood.
-/

namespace YulPlus

namespace Json

/-- Why a text is not read as JSON. -/
inductive Fault
  | malformed
  | tooManyDigits (count : Nat)
deriving DecidableEq, Repr

/-- A container that is open: the items of a list, or the entries of an object and the key whose
value is being read. Items and entries are held last first. -/
inductive Frame
  | list (items : List Value)
  | object (entries : List (Scalar × Value)) (key : Text)

/-- What has been read and what may come next. -/
inductive State
  /-- A value has to begin. -/
  | value (open_ : List Frame)
  /-- The first item of a list, or its end. -/
  | firstItem (open_ : List Frame)
  /-- A list may go on or end. -/
  | afterItem (items : List Value) (open_ : List Frame)
  /-- The first key of an object, or its end. -/
  | firstKey (open_ : List Frame)
  /-- A key has to come. -/
  | key (entries : List (Scalar × Value)) (open_ : List Frame)
  /-- A colon has to come. -/
  | colon (entries : List (Scalar × Value)) (key : Text) (open_ : List Frame)
  /-- An object may go on or end. -/
  | afterEntry (entries : List (Scalar × Value)) (open_ : List Frame)
  /-- The value is complete. -/
  | done (v : Value)

/-- Put a complete value into the innermost open container. -/
def complete (v : Value) : List Frame → State
  | [] => .done v
  | .list items :: outer => .afterItem (v :: items) outer
  | .object entries key :: outer => .afterEntry ((.text key, v) :: entries) outer

/-- Begin a value with a token. -/
def begin (outer : List Frame) : Token → Except Fault State
  | .scalar s => .ok (complete (.scalar s) outer)
  | .openBracket => .ok (.firstItem outer)
  | .openBrace => .ok (.firstKey outer)
  | .oversized digits => .error (.tooManyDigits digits)
  | _ => .error .malformed

/-- The state after a token. -/
def step : State → Token → Except Fault State
  | .value outer, t => begin outer t
  | .firstItem outer, .closeBracket => .ok (complete (.list []) outer)
  | .firstItem outer, t => begin (.list [] :: outer) t
  | .afterItem items outer, .comma => .ok (.value (.list items :: outer))
  | .afterItem items outer, .closeBracket => .ok (complete (.list items.reverse) outer)
  | .firstKey outer, .closeBrace => .ok (complete (.map []) outer)
  | .firstKey outer, .scalar (.text key) => .ok (.colon [] key outer)
  | .key entries outer, .scalar (.text key) => .ok (.colon entries key outer)
  | .colon entries key outer, .colon => .ok (.value (.object entries key :: outer))
  | .afterEntry entries outer, .comma => .ok (.key entries outer)
  | .afterEntry entries outer, .closeBrace =>
    .ok (complete (.map (Value.ofEntries entries.reverse)) outer)
  | _, _ => .error .malformed

/-- Read tokens from a state on. -/
def run : State → List Token → Except Fault Value
  | .done v, [] => .ok v
  | _, [] => .error .malformed
  | state, t :: rest =>
    match step state t with
    | .error fault => .error fault
    | .ok next => run next rest

/-- Read a JSON text with a limit for the digits of an integer. -/
def parseWithin (limit : Option Nat) (s : Text) : Except Fault Value :=
  match tokens? limit s with
  | none => .error .malformed
  | some tokens => run (.value []) tokens

/-- Read a JSON text whose integers have at most 4300 digits. -/
def parse (s : Text) : Except Fault Value :=
  parseWithin (some Decimal.maxDigits) s

end Json

end YulPlus
