import YulPlus.Yaml.Scalar

/-!
# YAML tokens

A YAML text is cut into tokens that carry its layout: where a block collection begins and ends is a
token of its own, and so is the place of a key. A key is recognised only when its colon comes, at
most one line and 1024 characters behind its beginning; until then the place is kept as a candidate,
one for each depth of brackets, and when the colon comes the key token is put in front of it.

`Scanner.fetch` reads one token with the layout tokens it implies, and `tokens` all of them. Tags,
anchors, directives and block scalars are not part of the language read here.
-/

namespace YulPlus

namespace Yaml

/-- A token of a YAML text. -/
inductive Token
  | documentStart
  | documentEnd
  | blockSequenceStart
  | blockMappingStart
  | blockEnd
  | flowSequenceStart
  | flowSequenceEnd
  | flowMappingStart
  | flowMappingEnd
  | blockEntry
  | flowEntry
  | key
  | value
  | scalar (plain : Bool) (s : Text)
deriving DecidableEq, Repr

/-- A place where a key may begin. -/
structure Candidate where
  /-- The depth of brackets. -/
  depth : Nat
  /-- The number of tokens in front of it. -/
  position : Nat
  /-- A scalar at the indentation of an open block mapping has to be a key. -/
  required : Bool
  line : Nat
  column : Nat
  index : Nat
deriving DecidableEq, Repr

/-- The state of reading: the place, the brackets and blocks that are open, and the tokens so far.
-/
structure Scanner where
  cursor : Cursor
  /-- The depth of brackets. -/
  depth : Nat := 0
  /-- The columns of the open blocks, innermost first. -/
  blocks : List Nat := []
  /-- May a key begin here? -/
  keyAllowed : Bool := true
  candidates : List Candidate := []
  /-- The tokens so far, last first. -/
  tokens : List Token := []
deriving Repr

namespace Scanner

/-- Add a token. -/
def emit (s : Scanner) (t : Token) : Scanner :=
  { s with tokens := t :: s.tokens }

/-- Go on behind `n` characters. -/
def skip (s : Scanner) (n : Nat) : Scanner :=
  { s with cursor := s.cursor.skip n }

/-- Is the place inside brackets? -/
def inFlow (s : Scanner) : Bool :=
  s.depth > 0

/-! ### Blocks -/

/-- Close the blocks that are indented deeper than `column`. -/
def closeBlocks (column : Nat) : List Nat → List Token → List Nat × List Token
  | [], tokens => ([], tokens)
  | block :: outer, tokens =>
    if block > column then closeBlocks column outer (.blockEnd :: tokens)
    else (block :: outer, tokens)

/-- Outside of brackets, close the blocks that the place is not part of. -/
def unwind (s : Scanner) : Scanner :=
  if s.inFlow then s
  else
    let (blocks, tokens) := closeBlocks s.cursor.column s.blocks s.tokens
    { s with blocks := blocks, tokens := tokens }

/-- Outside of brackets, close all blocks. -/
def unwindAll (s : Scanner) : Scanner :=
  if s.inFlow then s
  else { s with blocks := [], tokens := s.blocks.map (fun _ => Token.blockEnd) ++ s.tokens }

/-- Does a block at `column` lie deeper than all open ones? -/
def isDeeper (s : Scanner) (column : Nat) : Bool :=
  match s.blocks with
  | [] => true
  | block :: _ => block < column

/-- Open a block here, unless one is open at this column already. -/
def openBlock (s : Scanner) (t : Token) : Scanner :=
  if s.isDeeper s.cursor.column then
    { s.emit t with blocks := s.cursor.column :: s.blocks }
  else s

/-! ### Keys -/

/-- Forget the candidates that are too far away to become keys. -/
def dropStale (s : Scanner) : Except Fault Scanner :=
  let isStale := fun (c : Candidate) =>
    c.line ≠ s.cursor.line || s.cursor.index - c.index > 1024
  if s.candidates.any fun c => isStale c && c.required then .error .malformed
  else .ok { s with candidates := s.candidates.filter fun c => !isStale c }

/-- Forget the candidate at this depth. -/
def dropCandidate (s : Scanner) : Except Fault Scanner :=
  if s.candidates.any fun c => c.depth = s.depth && c.required then .error .malformed
  else .ok { s with candidates := s.candidates.filter fun c => c.depth ≠ s.depth }

/-- Remember the place as one where a key may begin. -/
def saveCandidate (s : Scanner) : Except Fault Scanner :=
  if s.keyAllowed then
    match s.dropCandidate with
    | .error fault => .error fault
    | .ok s =>
      let candidate : Candidate :=
        { depth := s.depth
          position := s.tokens.length
          required := !s.inFlow && s.blocks.head? = some s.cursor.column
          line := s.cursor.line
          column := s.cursor.column
          index := s.cursor.index }
      .ok { s with candidates := candidate :: s.candidates }
  else .ok s

/-- Put a token behind the first `position` tokens. -/
def insertAt (position : Nat) (t : Token) (tokens : List Token) : List Token :=
  let behind := tokens.length - position
  tokens.take behind ++ t :: tokens.drop behind

/-! ### Tokens -/

set_option linter.unusedVariables false in
/-- Pass over spaces, comments and line breaks. Outside of brackets a new line may begin a key. -/
def skipGaps (s : Scanner) : Scanner :=
  let spaces := (s.cursor.takeWhile (· = ' ')).2
  let comment :=
    if spaces.rest.head? = some '#' then (spaces.takeWhile fun c => !isBreak c).2 else spaces
  match h : comment.lineBreak? with
  | none => { s with cursor := comment }
  | some (_, after) =>
    skipGaps { s with cursor := after, keyAllowed := s.keyAllowed || !s.inFlow }
termination_by s.cursor.rest.length
decreasing_by
  have h₁ := Cursor.lineBreak_length h
  have h₂ : comment.rest.length ≤ spaces.rest.length := by
    simp only [comment]
    split
    · simp [Cursor.takeWhile, Cursor.skip_rest]
    · exact Nat.le_refl _
  have h₃ : spaces.rest.length ≤ s.cursor.rest.length := by
    simp [spaces, Cursor.takeWhile, Cursor.skip_rest]
  omega

/-- A mark between documents. -/
def fetchDocumentMark (s : Scanner) (t : Token) : Except Fault Scanner := do
  let s ← s.unwindAll.dropCandidate
  return ({ s with keyAllowed := false }.emit t).skip 3

/-- An opening bracket. -/
def fetchOpening (s : Scanner) (t : Token) : Except Fault Scanner := do
  let s ← s.saveCandidate
  return ({ s with depth := s.depth + 1, keyAllowed := true }.emit t).skip 1

/-- A closing bracket; one that nothing is open for is never right. -/
def fetchClosing (s : Scanner) (t : Token) : Except Fault Scanner :=
  if s.inFlow then do
    let s ← s.dropCandidate
    return ({ s with depth := s.depth - 1, keyAllowed := false }.emit t).skip 1
  else .error .malformed

/-- A comma between brackets. -/
def fetchFlowEntry (s : Scanner) : Except Fault Scanner := do
  let s ← { s with keyAllowed := true }.dropCandidate
  return (s.emit .flowEntry).skip 1

/-- The dash of a sequence entry. -/
def fetchBlockEntry (s : Scanner) : Except Fault Scanner :=
  if !s.inFlow && !s.keyAllowed then .error .malformed
  else do
    let s := if s.inFlow then s else s.openBlock .blockSequenceStart
    let s ← { s with keyAllowed := true }.dropCandidate
    return (s.emit .blockEntry).skip 1

/-- The question mark in front of a key. -/
def fetchKey (s : Scanner) : Except Fault Scanner :=
  if !s.inFlow && !s.keyAllowed then .error .malformed
  else do
    let s := if s.inFlow then s else s.openBlock .blockMappingStart
    let s ← { s with keyAllowed := !s.inFlow }.dropCandidate
    return (s.emit .key).skip 1

/-- A colon. A candidate at this depth becomes a key, which may open a block mapping; else the key
is empty. -/
def fetchValue (s : Scanner) : Except Fault Scanner :=
  match s.candidates.find? fun c => c.depth = s.depth with
  | some c =>
    let opens := !s.inFlow && s.isDeeper c.column
    let withKey := insertAt c.position .key s.tokens
    let tokens := if opens then insertAt c.position .blockMappingStart withKey else withKey
    .ok (({ s with
      tokens := tokens
      blocks := if opens then c.column :: s.blocks else s.blocks
      candidates := s.candidates.filter fun c => c.depth ≠ s.depth
      keyAllowed := false }.emit .value).skip 1)
  | none =>
    if !s.inFlow && !s.keyAllowed then .error .malformed
    else do
      let s := if s.inFlow then s else s.openBlock .blockMappingStart
      let s ← { s with keyAllowed := !s.inFlow }.dropCandidate
      return (s.emit .value).skip 1

/-- A quoted scalar. -/
def fetchQuoted (s : Scanner) (double : Bool) : Except Fault Scanner := do
  let s ← s.saveCandidate
  let (text, after) ← quotedScalar double s.cursor.next
  return { s with cursor := after, keyAllowed := false }.emit (.scalar false text)

/-- A plain scalar. -/
def fetchPlain (s : Scanner) : Except Fault Scanner := do
  let s ← s.saveCandidate
  let indent := (s.blocks.head?.map (· + 1)).getD 0
  let found := plainScalar s.inFlow indent s.cursor
  return { s with cursor := found.cursor, keyAllowed := found.breaksLine }.emit
    (.scalar true found.text)

/-- The characters that a plain scalar never begins with. -/
def isIndicator (c : Char) : Bool :=
  "-?:,[]\x7b\x7d#&*!|>'\"%@".toList.contains c || c = '\x60'

/-- Can a plain scalar begin here? -/
def startsPlain (flow : Bool) (c : Char) (rest : Text) : Bool :=
  !(isSeparator c || isIndicator c) ||
    (!atSeparator rest && (c = '-' || (!flow && (c = '?' || c = ':'))))

/-- Read the token that begins with the character `c`, in front of `rest`. -/
def fetchToken (s : Scanner) (c : Char) (rest : Text) : Except Fault Scanner :=
  if s.cursor.column = 0 && c = '%' then .error .malformed
  else if s.cursor.column = 0 && c = '-' && atDocumentMark (c :: rest) then
    s.fetchDocumentMark .documentStart
  else if s.cursor.column = 0 && c = '.' && atDocumentMark (c :: rest) then
    s.fetchDocumentMark .documentEnd
  else if c = '[' then s.fetchOpening .flowSequenceStart
  else if c = '\x7b' then s.fetchOpening .flowMappingStart
  else if c = ']' then s.fetchClosing .flowSequenceEnd
  else if c = '\x7d' then s.fetchClosing .flowMappingEnd
  else if c = ',' then s.fetchFlowEntry
  else if c = '-' && atSeparator rest then s.fetchBlockEntry
  else if c = '?' && (s.inFlow || atSeparator rest) then s.fetchKey
  else if c = ':' && (s.inFlow || atSeparator rest) then s.fetchValue
  else if c = '\'' then s.fetchQuoted false
  else if c = '"' then s.fetchQuoted true
  else if startsPlain s.inFlow c rest then s.fetchPlain
  else .error .malformed

/-- Read one more token, or find the end, which is `none`. -/
def fetch (s : Scanner) : Except Fault (Option Scanner) := do
  let s ← s.skipGaps.dropStale
  let s := s.unwind
  match s.cursor.rest with
  | [] => return none
  | c :: rest => return some (← s.fetchToken c rest)

/-- The tokens of the whole text when its end has been found: brackets have to be closed. -/
def finish (s : Scanner) : Except Fault (List Token) := do
  let s ← s.skipGaps.dropStale
  if s.inFlow then .error .malformed
  else
    let s ← s.unwindAll.dropCandidate
    return s.tokens.reverse

/-- Read tokens up to the end. Every token takes characters, which is checked here and makes the
recursion end. -/
def run (s : Scanner) : Except Fault (List Token) :=
  match s.fetch with
  | .error fault => .error fault
  | .ok none => s.finish
  | .ok (some next) =>
    if next.cursor.rest.length < s.cursor.rest.length then run next else .error .malformed
termination_by s.cursor.rest.length

end Scanner

/-- The tokens of a text. A byte order mark at its beginning is passed over. -/
def tokens (s : Text) : Except Fault (List Token) :=
  if s.all isAllowed then
    let start : Cursor := ⟨s, 0, 0, 0⟩
    Scanner.run { cursor := if s.head? = some '\ufeff' then start.next else start }
  else .error .malformed

end Yaml

end YulPlus
