import YulPlus.Lowering.Error

/-!
# The interface of a source

Every distinct hash literal of a source is an entry of its interface: a function for a `sig`
literal, an event for a `topic` literal. Entries stand in the order of first appearance, each
literal once, and hold the text that replaces the literal. `Interface.hash?` looks a token up by the
characters it was read from.
-/

namespace YulPlus

open Text

/-- A hash literal of a source. -/
structure HashLiteral where
  /-- The literal as it is written, with its frame. -/
  source : Text
  name : Text
  /-- The canonical signature. -/
  signature : Text
  /-- The selector or topic that replaces the literal. -/
  hash : Text
deriving DecidableEq, Repr

/-- The hash literals of a source, functions and events apart. -/
structure Interface where
  functions : List HashLiteral := []
  events : List HashLiteral := []
deriving DecidableEq, Repr

namespace Interface

/-- The entry of a literal. -/
def find? (interface : Interface) (source : Text) : Option HashLiteral :=
  (interface.functions ++ interface.events).find? fun literal => literal.source = source

/-- The text that replaces a hash literal. -/
def hash? (interface : Interface) (t : Token) : Option Text :=
  if t.kind.isHash then (interface.find? t.text).map (·.hash) else none

/-- Take in a token: a hash literal that is not known yet becomes the last entry of its list. -/
def add (interface : Interface) (t : Token) : Except SyntaxError Interface :=
  if !t.kind.isHash || (interface.find? t.text).isSome then .ok interface
  else if t.kind = .selector then
    match Signature.parse Signature.functionKind t.value with
    | .error fault => .error (t.error (.signature fault))
    | .ok s =>
      .ok { interface with
        functions := interface.functions ++ [⟨t.text, s.name, s.canonical, s.selector⟩] }
  else
    match Signature.parse Signature.eventKind t.value with
    | .error fault => .error (t.error (.signature fault))
    | .ok s =>
      .ok { interface with
        events := interface.events ++ [⟨t.text, s.name, s.canonical, s.topic⟩] }

/-- The interface of a token list. -/
def ofTokens (tokens : List Token) : Except SyntaxError Interface :=
  tokens.foldlM add {}

end Interface

end YulPlus
