import YulPlus.Hash.Keccak
import YulPlus.Signature.Parameter

/-!
# Signatures of functions and events

A human-readable signature is an optional keyword, a name, a parameter list and a trailer:

```
function transfer(address to, uint amount) external returns (bool)
event Transfer(address indexed from, address indexed to, uint256 value)
```

`Signature.parse` keeps what identifies the function or event, its name and the canonical types of
its parameters. `Signature.canonical` is the text that is hashed: the first four bytes of the digest
are the selector of a function, all of it is the topic of an event.
-/

namespace YulPlus

open Text

/-- A parsed signature; `kind` is the keyword it was parsed for. -/
structure Signature where
  kind : Text
  name : Text
  inputTypes : List ParameterType
deriving Repr

namespace Signature

/-- The keyword of function signatures. -/
def functionKind : Text := "function".toList

/-- The keyword of event signatures. -/
def eventKind : Text := "event".toList

/-- The name and the canonical types, the text that is hashed. -/
def canonical (s : Signature) : Text :=
  s.name ++ '(' :: ParameterType.renderList s.inputTypes ++ [')']

/-- The digest of the canonical text. -/
def digest (s : Signature) : List UInt8 :=
  keccak256 (String.ofList s.canonical).toUTF8.toList

/-- Bytes as a hexadecimal literal. -/
def hexLiteral (bytes : List UInt8) : Text :=
  '0' :: 'x' :: bytes.flatMap fun b => hexPadded 2 b.toNat

/-- The literal of the first four digest bytes. -/
def selector (s : Signature) : Text :=
  hexLiteral (s.digest.take 4)

/-- The literal of the whole digest. -/
def topic (s : Signature) : Text :=
  hexLiteral s.digest

/-- The words that may follow the parameters of a function. -/
def mutabilityWords : List Text :=
  ["external".toList, "public".toList, "view".toList, "pure".toList, "payable".toList,
   "nonpayable".toList]

/-- A return clause: one parenthesised parameter list and nothing behind it. -/
def checkReturns (trailer tail : Text) : Except SignatureFault Unit :=
  match strip tail with
  | '(' :: rest =>
    match closeParen 0 rest with
    | none => .error (.unbalanced ('(' :: rest))
    | some (inner, []) => do
      let parts ← parameterParts inner
      parts.forM fun part => do
        let _ ← readParameter part
    | some (_, _ :: _) => .error (.malformedReturns trailer)
  | _ => .error (.malformedReturns trailer)

/-- What may follow the parameters: `anonymous` for an event, else mutability words and then a
return clause. -/
def checkTrailer (kind trailer : Text) : Except SignatureFault Unit :=
  if trailer.isEmpty then .ok ()
  else if kind = eventKind then
    if trailer = "anonymous".toList then .ok () else .error (.afterEvent trailer)
  else
    let (head, tail?) :=
      match cutAt? "returns".toList trailer with
      | some (before, after) => (before, some after)
      | none => (trailer, none)
    match (words head).find? fun word => !mutabilityWords.contains word with
    | some word => .error (.afterFunction word)
    | none =>
      match tail? with
      | some tail => checkReturns trailer tail
      | none => .ok ()

/-- Drop the keyword in front of a signature, if a space or a parenthesis follows it. -/
def dropKeyword (kind text : Text) : Text :=
  if (kind ++ [' ']).isPrefixOf text || (kind ++ ['(']).isPrefixOf text then
    stripLeft (text.drop kind.length)
  else text

/-- Parse the signature of a function, or of whatever `kind` names. -/
def parse (kind text : Text) : Except SignatureFault Signature :=
  let text := dropKeyword kind (strip text)
  match text with
  | [] => .error (.missingName kind text)
  | c :: rest =>
    if isNameStart c then
      let name := c :: rest.takeWhile isNamePart
      match stripLeft (rest.dropWhile isNamePart) with
      | '(' :: tail =>
        match closeParen 0 tail with
        | none => .error (.unbalanced ('(' :: tail))
        | some (parameters, trailer) => do
          checkTrailer kind (strip trailer)
          let parts ← parameterParts parameters
          let inputTypes ← parts.mapM readParameter
          return ⟨kind, name, inputTypes⟩
      | _ => .error (.missingParen kind name)
    else .error (.missingName kind text)

end Signature

end YulPlus
