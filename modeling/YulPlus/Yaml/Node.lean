import YulPlus.Yaml.Token

/-!
# YAML documents as nodes

The tokens of a document are read into a tree of scalars, sequences and mappings. The layout tokens
make the grammar one of plain recursive descent; each reader hands on the tokens it leaves, which
are fewer than it was given, or at most as many where a node may be absent.

A node that is absent is a plain scalar without text, which means null. A sequence may stand in a
block mapping without being indented; inside brackets, a sequence may hold single pairs. A text is
one document at most.
-/

namespace YulPlus

namespace Yaml

/-- A part of a document. -/
inductive Node
  | scalar (plain : Bool) (s : Text)
  | sequence (items : List Node)
  | mapping (entries : List (Node × Node))
deriving Repr

namespace Node

/-- The node of an absent value. -/
def empty : Node := scalar true []

/-- Where a node stands, which decides what it can be. -/
inductive Place
  | flow
  | block
  /-- In a block mapping, where a sequence needs no indentation. -/
  | blockValue
deriving DecidableEq, Repr

/-- A token list with fewer tokens than another. -/
abbrev Fewer (tokens : List Token) : Type :=
  { rest : List Token // rest.length < tokens.length }

/-- A token list with at most as many tokens as another. -/
abbrev AtMost (tokens : List Token) : Type :=
  { rest : List Token // rest.length ≤ tokens.length }

/-- The tokens in front of which an entry of a block sequence is absent. -/
def endsItem (t : Token) : Bool :=
  t = .blockEntry || t = .blockEnd

/-- The tokens in front of which a key or a value of a block mapping is absent. -/
def endsEntry (t : Token) : Bool :=
  t = .key || t = .value || t = .blockEnd

/-- The tokens in front of which an entry of a sequence without indentation is absent. -/
def endsLooseItem (t : Token) : Bool :=
  t = .blockEntry || endsEntry t

/-- The tokens in front of which a value is absent between brackets. -/
def endsFlowValue (close : Token) (t : Token) : Bool :=
  t = .flowEntry || t = close

/-- The tokens in front of which a key is absent between brackets. -/
def endsFlowKey (close : Token) (t : Token) : Bool :=
  t = .value || endsFlowValue close t

mutual

/-- Read a node. -/
def read (place : Place) (tokens : List Token) : Except Fault (Node × Fewer tokens) :=
  match tokens with
  | .scalar plain s :: rest => .ok (.scalar plain s, ⟨rest, by simp⟩)
  | .flowSequenceStart :: rest => do
    let (items, ⟨after, h⟩) ← readFlowItems true rest
    return (.sequence items, ⟨after, by simp only [List.length_cons]; omega⟩)
  | .flowMappingStart :: rest => do
    let (entries, ⟨after, h⟩) ← readFlowEntries true rest
    return (.mapping entries, ⟨after, by simp only [List.length_cons]; omega⟩)
  | .blockSequenceStart :: rest =>
    if place = .flow then .error .malformed
    else do
      let (items, ⟨after, h⟩) ← readItems rest
      return (.sequence items, ⟨after, by simp only [List.length_cons]; omega⟩)
  | .blockMappingStart :: rest =>
    if place = .flow then .error .malformed
    else do
      let (entries, ⟨after, h⟩) ← readEntries rest
      return (.mapping entries, ⟨after, by simp only [List.length_cons]; omega⟩)
  | .blockEntry :: rest =>
    if place = .blockValue then do
      let (items, ⟨after, h⟩) ← readLooseItems rest
      return (.sequence items, ⟨after, by simp only [List.length_cons]; omega⟩)
    else .error .malformed
  | _ => .error .malformed
termination_by (tokens.length, 0)

/-- Read a node, or find it absent in front of certain tokens. -/
def readUnless (ends : Token → Bool) (place : Place) (tokens : List Token) :
    Except Fault (Node × AtMost tokens) :=
  if tokens.head?.any ends then .ok (empty, ⟨tokens, Nat.le_refl _⟩)
  else do
    let (node, ⟨after, h⟩) ← read place tokens
    return (node, ⟨after, by omega⟩)
termination_by (tokens.length, 1)

/-- The entries of a block sequence, up to and with its end. -/
def readItems (tokens : List Token) : Except Fault (List Node × Fewer tokens) :=
  match tokens with
  | .blockEnd :: rest => .ok ([], ⟨rest, by simp⟩)
  | .blockEntry :: rest => do
    let (item, ⟨after, h⟩) ← readUnless endsItem .block rest
    let (items, ⟨last, hl⟩) ← readItems after
    return (item :: items, ⟨last, by simp; omega⟩)
  | _ => .error .malformed
termination_by (tokens.length, 0)

/-- The entries of a sequence without indentation, whose first dash has been read. -/
def readLooseItems (tokens : List Token) : Except Fault (List Node × AtMost tokens) := do
  let (item, ⟨after, h⟩) ← readUnless endsLooseItem .block tokens
  match after, h with
  | .blockEntry :: rest, h => do
    let (items, ⟨last, hl⟩) ← readLooseItems rest
    return (item :: items, ⟨last, by simp at h; omega⟩)
  | _, h => return ([item], ⟨after, by assumption⟩)
termination_by (tokens.length, 2)
decreasing_by
  · omega
  · simp at h
    omega

/-- The entries of a block mapping, up to and with its end. Every entry begins with a key token. -/
def readEntries (tokens : List Token) : Except Fault (List (Node × Node) × Fewer tokens) :=
  match tokens with
  | .blockEnd :: rest => .ok ([], ⟨rest, by simp⟩)
  | .key :: rest => do
    let (key, ⟨after, h⟩) ← readUnless endsEntry .blockValue rest
    match after, h with
    | .value :: more, h => do
      let (value, ⟨behind, hb⟩) ← readUnless endsEntry .blockValue more
      let (entries, ⟨last, hl⟩) ← readEntries behind
      return ((key, value) :: entries, ⟨last, by simp at h ⊢; omega⟩)
    | after, h => do
      let (entries, ⟨last, hl⟩) ← readEntries after
      return ((key, empty) :: entries, ⟨last, by simp; omega⟩)
  | _ => .error .malformed
termination_by (tokens.length, 0)
decreasing_by
  all_goals
    simp only [List.length_cons] at *
    grind

/-- The items of a bracketed sequence, up to and with its end. -/
def readFlowItems (first : Bool) (tokens : List Token) :
    Except Fault (List Node × Fewer tokens) :=
  match tokens with
  | [] => .error .malformed
  | .flowSequenceEnd :: rest => .ok ([], ⟨rest, by simp⟩)
  | t :: rest =>
    if first then do
      let (item, ⟨after, h⟩) ← readFlowItem (t :: rest)
      let (items, ⟨last, hl⟩) ← readFlowItems false after
      return (item :: items, ⟨last, by omega⟩)
    else if t = .flowEntry then
      match rest with
      | .flowSequenceEnd :: after => .ok ([], ⟨after, by simp only [List.length_cons]; omega⟩)
      | rest => do
        let (item, ⟨after, h⟩) ← readFlowItem rest
        let (items, ⟨last, hl⟩) ← readFlowItems false after
        return (item :: items, ⟨last, by simp; omega⟩)
    else .error .malformed
termination_by (tokens.length, 3)

/-- An item of a bracketed sequence: a node, or a pair behind a key token. -/
def readFlowItem (tokens : List Token) : Except Fault (Node × Fewer tokens) :=
  match tokens with
  | .key :: rest => do
    let (key, ⟨after, h⟩) ← readUnless (endsFlowKey .flowSequenceEnd) .flow rest
    match after, h with
    | .value :: more, h => do
      let (value, ⟨last, hl⟩) ← readUnless (endsFlowValue .flowSequenceEnd) .flow more
      return (.mapping [(key, value)], ⟨last, by simp at h ⊢; omega⟩)
    | after, h => return (.mapping [(key, empty)], ⟨after, by simp only [List.length_cons]; omega⟩)
  | tokens => read .flow tokens
termination_by (tokens.length, 2)
decreasing_by
  · simp only [List.length_cons] at *
    grind
  · simp only [List.length_cons] at *
    grind
  · decreasing_tactic

/-- The entries of a bracketed mapping, up to and with its end. -/
def readFlowEntries (first : Bool) (tokens : List Token) :
    Except Fault (List (Node × Node) × Fewer tokens) :=
  match tokens with
  | [] => .error .malformed
  | .flowMappingEnd :: rest => .ok ([], ⟨rest, by simp⟩)
  | t :: rest =>
    if first then do
      let (entry, ⟨after, h⟩) ← readFlowEntry (t :: rest)
      let (entries, ⟨last, hl⟩) ← readFlowEntries false after
      return (entry :: entries, ⟨last, by omega⟩)
    else if t = .flowEntry then
      match rest with
      | .flowMappingEnd :: after => .ok ([], ⟨after, by simp only [List.length_cons]; omega⟩)
      | rest => do
        let (entry, ⟨after, h⟩) ← readFlowEntry rest
        let (entries, ⟨last, hl⟩) ← readFlowEntries false after
        return (entry :: entries, ⟨last, by simp; omega⟩)
    else .error .malformed
termination_by (tokens.length, 3)

/-- An entry of a bracketed mapping: a pair behind a key token, or a node that is a key alone. -/
def readFlowEntry (tokens : List Token) : Except Fault ((Node × Node) × Fewer tokens) :=
  match tokens with
  | .key :: rest => do
    let (key, ⟨after, h⟩) ← readUnless (endsFlowKey .flowMappingEnd) .flow rest
    match after, h with
    | .value :: more, h => do
      let (value, ⟨last, hl⟩) ← readUnless (endsFlowValue .flowMappingEnd) .flow more
      return ((key, value), ⟨last, by simp at h ⊢; omega⟩)
    | after, h => return ((key, empty), ⟨after, by simp only [List.length_cons]; omega⟩)
  | tokens => do
    let (key, rest) ← read .flow tokens
    return ((key, empty), rest)
termination_by (tokens.length, 2)
decreasing_by
  · simp only [List.length_cons] at *
    grind
  · simp only [List.length_cons] at *
    grind
  · decreasing_tactic

end

/-- Pass over the marks behind a document; nothing else may follow it. -/
def checkEnd : List Token → Except Fault Unit
  | [] => .ok ()
  | .documentEnd :: rest => checkEnd rest
  | _ => .error .malformed

/-- The node that stands in front of the end of a document. -/
def readDocument (tokens : List Token) : Except Fault Node :=
  match tokens with
  | [] => .ok empty
  | .documentEnd :: rest => do
    checkEnd rest
    return empty
  | tokens => do
    let (node, ⟨after, _⟩) ← read .block tokens
    checkEnd after
    return node

/-- Pass over marks in front of the first document that is opened by a mark. -/
def readStream (tokens : List Token) : Except Fault Node :=
  match tokens with
  | [] => .ok empty
  | .documentStart :: rest => readDocument rest
  | .documentEnd :: _ => .error .malformed
  | tokens => readDocument tokens

/-- Read a text as a document. -/
def ofText (s : Text) : Except Fault Node := do
  readStream (← tokens s)

end Node

end Yaml

end YulPlus
