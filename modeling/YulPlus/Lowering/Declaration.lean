import YulPlus.Lowering.Binding

/-!
# Reading declarations

A scope may declare enums, constants and memory structs:

```
enum Name (first, second)
const name := expression
mstruct Name (field: size, other: size)
```

Declarations are read from the tokens of the scope's body; `stop` is the brace that closes it, the
token at fault when a declaration runs into the end of the body. A declaration extends the bindings
as it is read, so a duplicate is reported at the name that repeats and before anything behind it.

Every reader returns the tokens it leaves, and they are fewer than it was given: `Shorter`.

An expression is a literal, an identifier or a call with any number of arguments. `expressionFrom`
counts the calls that are open and needs no tree; the value of a constant is the source text of its
expression, with what is known at that place already replaced.
-/

namespace YulPlus

/-- A token list with fewer tokens than another. -/
abbrev Shorter (tokens : List Token) : Type :=
  { rest : List Token // rest.length < tokens.length }

/-- Take one token of the given kinds. -/
def expect (stop : Token) (kinds : List TokenKind) :
    (tokens : List Token) → Except SyntaxError (Token × Shorter tokens)
  | [] => .error (stop.unexpected kinds)
  | t :: rest =>
    if t.kind ∈ kinds then .ok (t, ⟨rest, by simp⟩) else .error (t.unexpected kinds)

/-! ### Expressions -/

/-- The kinds that an expression can begin with. -/
def expressionKinds : List TokenKind :=
  [.number, .string, .selector, .topic, .identifier]

/-- What may come next inside an expression. -/
inductive Awaiting
  /-- An expression has to begin. -/
  | operand
  /-- An expression has to begin, or the call without arguments ends. -/
  | firstArgument
  /-- An identifier has been read, and a parenthesis makes it a call. -/
  | call
  /-- An expression has been read, and an enclosing call goes on or ends. -/
  | separator
deriving DecidableEq, Repr

namespace Awaiting

/-- Where a token of kind `k` leads when an expression has to begin inside `depth` calls. -/
def beginOperand (depth : Nat) (k : TokenKind) :
    Except (List TokenKind) (Option (Awaiting × Nat)) :=
  if k = .identifier then .ok (some (call, depth))
  else if k ∈ expressionKinds then .ok (some (separator, depth))
  else .error expressionKinds

/-- Where a token of kind `k` leads when an expression is complete inside `depth` calls; outside of
every call it is the end, and the token is not part of the expression. -/
def endOperand (depth : Nat) (k : TokenKind) :
    Except (List TokenKind) (Option (Awaiting × Nat)) :=
  match depth with
  | 0 => .ok none
  | outer + 1 =>
    if k = .comma then .ok (some (operand, outer + 1))
    else if k = .closeParen then .ok (some (separator, outer))
    else .error [.comma, .closeParen]

/-- Where a token of kind `k` leads inside `depth` calls: to a next state, to the end of the
expression before the token, or to an error with the kinds that could stand there. -/
def step (depth : Nat) (k : TokenKind) :
    Awaiting → Except (List TokenKind) (Option (Awaiting × Nat))
  | operand => beginOperand depth k
  | firstArgument => if k = .closeParen then endOperand depth k else beginOperand depth k
  | call => if k = .openParen then .ok (some (firstArgument, depth + 1)) else endOperand depth k
  | separator => endOperand depth k

end Awaiting

/-- Read on in an expression inside `depth` calls. The result is the tokens read and the rest. -/
def expressionFrom (stop : Token) (state : Awaiting) (depth : Nat) :
    List Token → Except SyntaxError (List Token × List Token)
  | [] =>
    match state.step depth stop.kind with
    | .error kinds => .error (stop.unexpected kinds)
    | .ok none => .ok ([], [])
    | .ok (some _) => .error (stop.unexpected expressionKinds)
  | t :: rest =>
    match state.step depth t.kind with
    | .error kinds => .error (t.unexpected kinds)
    | .ok none => .ok ([], t :: rest)
    | .ok (some (next, inner)) =>
      match expressionFrom stop next inner rest with
      | .error e => .error e
      | .ok (read, after) => .ok (t :: read, after)

/-- Read one whole expression. -/
def expression (stop : Token) (tokens : List Token) :
    Except SyntaxError (List Token × List Token) :=
  expressionFrom stop .operand 0 tokens

/-- Nothing is lost between the expression and the rest. -/
theorem append_of_expressionFrom {stop : Token} {state : Awaiting} {depth : Nat}
    {tokens read rest : List Token}
    (h : expressionFrom stop state depth tokens = .ok (read, rest)) : read ++ rest = tokens := by
  fun_induction expressionFrom stop state depth tokens generalizing read rest <;> grind

/-! ### The three declarations -/

/-- A declaration that was read from `tokens`: the bindings after it, its last token and the tokens
it leaves. -/
structure Declared (tokens : List Token) where
  bindings : Bindings
  last : Token
  rest : Shorter tokens

/-- The same declaration, read from a longer list. -/
def Declared.from {tokens : List Token} (larger : List Token)
    (h : tokens.length ≤ larger.length) (d : Declared tokens) : Declared larger :=
  ⟨d.bindings, d.last, ⟨d.rest.val, Nat.lt_of_lt_of_le d.rest.property h⟩⟩

/-- The members of the enum `name` from number `position` on, up to the closing parenthesis. -/
def readMembers (stop : Token) (name : Text) (position : Nat) (b : Bindings)
    (tokens : List Token) : Except SyntaxError (Declared tokens) :=
  match expect stop [.identifier] tokens with
  | .error e => .error e
  | .ok (member, ⟨rest₁, h₁⟩) =>
    match b.bindValue member (name ++ '.' :: member.value) (Text.decimal position) with
    | .error e => .error e
    | .ok b =>
      match expect stop [.comma, .closeParen] rest₁ with
      | .error e => .error e
      | .ok (separator, ⟨rest₂, h₂⟩) =>
        if separator.kind = .closeParen then .ok ⟨b, separator, rest₂, by omega⟩
        else
          match readMembers stop name (position + 1) b rest₂ with
          | .error e => .error e
          | .ok d => .ok (d.from tokens (by omega))
termination_by tokens.length

/-- An enum, whose keyword has been read. -/
def readEnum (stop : Token) (b : Bindings) (tokens : List Token) :
    Except SyntaxError (Declared tokens) :=
  match expect stop [.identifier] tokens with
  | .error e => .error e
  | .ok (name, ⟨rest₁, h₁⟩) =>
    match expect stop [.openParen] rest₁ with
    | .error e => .error e
    | .ok (_, ⟨rest₂, h₂⟩) =>
      match readMembers stop name.value 0 b rest₂ with
      | .error e => .error e
      | .ok d => .ok (d.from tokens (by omega))

/-- The text of some neighbouring tokens of the source, with the known names and hash literals
replaced. -/
def valueText (source : Text) (interface : Interface) (b : Bindings) (tokens : List Token) :
    Text :=
  match tokens.head?, tokens.getLast? with
  | some first, some last =>
    Edit.applySlice first.start.offset last.stop (tokens.filterMap (b.edit? interface)) source
  | _, _ => []

/-- A constant, whose keyword has been read. -/
def readConst (source : Text) (interface : Interface) (stop : Token) (b : Bindings)
    (tokens : List Token) : Except LoweringError (Declared tokens) :=
  match expect stop [.identifier] tokens with
  | .error e => .error (.located e)
  | .ok (name, ⟨rest₁, h₁⟩) =>
    match expect stop [.assign] rest₁ with
    | .error e => .error (.located e)
    | .ok (assign, ⟨rest₂, h₂⟩) =>
      match h : expression stop rest₂ with
      | .error e => .error (.located e)
      | .ok (value, after) =>
        match b.bindValue name name.value (valueText source interface b value) with
        | .error e => .error (.located e)
        | .ok b =>
          .ok ⟨b, value.getLastD assign, after, by
            have := congrArg List.length (append_of_expressionFrom h)
            simp at this
            omega⟩

/-- The size of a field: a number in hexadecimal or decimal digits, between 1 and 32. -/
def readSize (t : Token) : Except LoweringError Nat :=
  let size : Except IntegerFault Nat :=
    match Text.dropHead? ['0', 'x'] t.value with
    | some digits => .ok (Text.hexNumber digits)
    | none => Decimal.readNatural t.value
  match size with
  | .error fault => .error (.integer fault)
  | .ok size =>
    if 1 ≤ size ∧ size ≤ maxSliceBytes then .ok size else .error (.located (t.error .fieldSize))

/-- What is left to do for a struct when its closing parenthesis has been read. -/
structure ReadFields (tokens : List Token) where
  fields : List Field
  last : Token
  rest : Shorter tokens

/-- The fields of a struct after those in `fields`, up to the closing parenthesis. -/
def readFields (stop : Token) (fields : List Field) (tokens : List Token) :
    Except LoweringError (ReadFields tokens) :=
  match expect stop [.identifier] tokens with
  | .error e => .error (.located e)
  | .ok (name, ⟨rest₁, h₁⟩) =>
    match expect stop [.colon] rest₁ with
    | .error e => .error (.located e)
    | .ok (_, ⟨rest₂, h₂⟩) =>
      match expect stop [.number] rest₂ with
      | .error e => .error (.located e)
      | .ok (number, ⟨rest₃, h₃⟩) =>
        match readSize number with
        | .error e => .error e
        | .ok size =>
          if fields.any fun field => field.name = name.value then
            .error (.located (name.error (.duplicateField name.value)))
          else
            match expect stop [.comma, .closeParen] rest₃ with
            | .error e => .error (.located e)
            | .ok (separator, ⟨rest₄, h₄⟩) =>
              let fields := fields ++ [⟨name.value, size⟩]
              if separator.kind = .closeParen then .ok ⟨fields, separator, rest₄, by omega⟩
              else
                match readFields stop fields rest₄ with
                | .error e => .error e
                | .ok r => .ok ⟨r.fields, r.last, r.rest.val, by have := r.rest.property; omega⟩
termination_by tokens.length

/-- A memory struct, whose keyword has been read. -/
def readStruct (stop : Token) (b : Bindings) (tokens : List Token) :
    Except LoweringError (Declared tokens) :=
  match expect stop [.identifier] tokens with
  | .error e => .error (.located e)
  | .ok (name, ⟨rest₁, h₁⟩) =>
    match expect stop [.openParen] rest₁ with
    | .error e => .error (.located e)
    | .ok (_, ⟨rest₂, h₂⟩) =>
      match readFields stop [] rest₂ with
      | .error e => .error e
      | .ok r =>
        match b.bindStruct name r.fields with
        | .error e => .error (.located e)
        | .ok b => .ok ⟨b, r.last, r.rest.val, by have := r.rest.property; omega⟩

/-- The declaration that the keyword `t` begins. -/
def readDeclaration (source : Text) (interface : Interface) (stop : Token) (b : Bindings)
    (t : Token) (tokens : List Token) : Except LoweringError (Declared tokens) :=
  match t.kind with
  | .enumWord => (readEnum stop b tokens).mapError .located
  | .constWord => readConst source interface stop b tokens
  | _ => readStruct stop b tokens

end YulPlus
