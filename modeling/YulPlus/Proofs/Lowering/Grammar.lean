import YulPlus.Lowering.Scope
import YulPlus.Proofs.Lowering.Nesting
import YulPlus.Proofs.Outcome

/-!
# The grammar of declarations and scopes

What a source may say, written down without a reader: each construct is a relation between tokens
and what they mean.

```
enum ID ( ID {, ID} )
const ID := EXPR
mstruct ID ( ID : NUMBER {, ID : NUMBER} )
EXPR = NUMBER | STRING | SIG | TOPIC | ID | ID ( [EXPR {, EXPR}] )
```

The three lists have one shape, units with commas between them (`CommaList`). An identifier that a
parenthesis follows can only be the beginning of a call; inside a call this needs no rule, since an
argument is followed by a comma or by the end of the call, so the rule is stated once, for the end
of a whole expression (`ExpressionEndsBefore`).

The body of a scope consists of declarations and of other tokens (`IsBody`), and `Declaration.names`
are the names that one scope must not bind twice.
-/

namespace YulPlus

open Text

/-- The tokens of one unit, or of several with a comma between each two. -/
inductive CommaList : List (List Token) → List Token → Prop
  | single {u : List Token} : CommaList [u] u
  | cons {u ts : List Token} {us : List (List Token)} {comma : Token} (hcomma : comma.kind = .comma)
      (hts : CommaList us ts) : CommaList (u :: us) (u ++ comma :: ts)

/-- What holds of commas and of the tokens of the units holds of all tokens of the list. -/
theorem CommaList.forall_mem {units : List (List Token)} {ts : List Token} {P : Token → Prop}
    (h : CommaList units ts) (hcomma : ∀ t, t.kind = .comma → P t)
    (hunits : ∀ u ∈ units, ∀ t ∈ u, P t) : ∀ t ∈ ts, P t := by
  induction h with
  | single => exact hunits _ (by simp)
  | @cons u ts us comma hkind _ ih =>
    intro t ht
    rcases List.mem_append.1 ht with ht | ht
    · exact hunits u (by simp) t ht
    · rcases List.mem_cons.1 ht with rfl | ht
      · exact hcomma t hkind
      · exact ih (fun v hv ↦ hunits v (by simp [hv])) t ht

/-- A token of a unit is a token of the list. -/
theorem CommaList.mem_of_mem {units : List (List Token)} {u ts : List Token} {t : Token}
    (h : CommaList units ts) (hu : u ∈ units) (ht : t ∈ u) : t ∈ ts := by
  induction h with
  | single =>
    obtain rfl := List.mem_singleton.1 hu
    exact ht
  | cons _ _ ih =>
    rcases List.mem_cons.1 hu with rfl | hu
    · exact List.mem_append_left _ ht
    · exact List.mem_append_right _ (List.mem_cons_of_mem _ (ih hu))

/-- The tokens of an expression: a literal, a name, or a call with any number of arguments. -/
inductive IsExpression : List Token → Prop
  | atom {t : Token} (ht : t.kind ∈ expressionKinds) : IsExpression [t]
  | emptyCall {f o c : Token} (hf : f.kind = .identifier) (ho : o.kind = .openParen)
      (hc : c.kind = .closeParen) : IsExpression [f, o, c]
  | call {f o c : Token} {arguments : List (List Token)} {ts : List Token}
      (hf : f.kind = .identifier) (ho : o.kind = .openParen) (hc : c.kind = .closeParen)
      (hts : CommaList arguments ts) (harguments : ∀ a ∈ arguments, IsExpression a) :
      IsExpression (f :: o :: ts ++ [c])

/-- May an expression end in front of the token `next`? A single name may not end in front of a
parenthesis, since the two begin a call. -/
def ExpressionEndsBefore (next : Token) : List Token → Prop
  | [t] => t.kind = .identifier → next.kind ≠ .openParen
  | _ => True

/-- The number that the size of a field is read as: hexadecimal digits behind `0x`, or else the
decimal digits of any script. -/
def fieldSize? (s : Text) : Option Nat :=
  match dropHead? ['0', 'x'] s with
  | some digits => some (hexNumber digits)
  | none => (Decimal.readNatural s).toOption

/-- A member of an enum is a single identifier. -/
inductive IsMember : List Token → Text → Prop
  | mk {t : Token} (ht : t.kind = .identifier) : IsMember [t] t.value

/-- A field of a struct is an identifier, a colon and a number between 1 and 32. -/
inductive IsField : List Token → Field → Prop
  | mk {name colon number : Token} {size : Nat} (hname : name.kind = .identifier)
      (hcolon : colon.kind = .colon) (hnumber : number.kind = .number)
      (hsize : fieldSize? number.value = some size) (hmin : 1 ≤ size) (hmax : size ≤ 32) :
      IsField [name, colon, number] ⟨name.value, size⟩

/-- What a declaration declares. -/
inductive Declaration
  | enum (name : Text) (members : List Text)
  | const (name : Text) (value : List Token)
  | struct (struct : Struct)

namespace Declaration

/-- The tokens of a declaration, from its keyword to its last token. -/
inductive Spells : Declaration → List Token → Prop
  | enum {keyword name opening closing : Token} {units : List (List Token)} {members : List Text}
      {ts : List Token} (hkeyword : keyword.kind = .enumWord) (hname : name.kind = .identifier)
      (hopening : opening.kind = .openParen) (hts : CommaList units ts)
      (hunits : List.Forall₂ IsMember units members) (hclosing : closing.kind = .closeParen) :
      Spells (.enum name.value members) (keyword :: name :: opening :: (ts ++ [closing]))
  | const {keyword name assign : Token} {value : List Token} (hkeyword : keyword.kind = .constWord)
      (hname : name.kind = .identifier) (hassign : assign.kind = .assign)
      (hvalue : IsExpression value) :
      Spells (.const name.value value) (keyword :: name :: assign :: value)
  | struct {keyword name opening closing : Token} {units : List (List Token)} {fields : List Field}
      {ts : List Token} (hkeyword : keyword.kind = .structWord) (hname : name.kind = .identifier)
      (hopening : opening.kind = .openParen) (hts : CommaList units ts)
      (hunits : List.Forall₂ IsField units fields) (hnodup : (fields.map Field.name).Nodup)
      (hclosing : closing.kind = .closeParen) :
      Spells (.struct ⟨name.value, fields⟩) (keyword :: name :: opening :: (ts ++ [closing]))

/-- The declaration of a struct with two fields. -/
theorem Spells.structPair {keyword name opening comma closing : Token} {ts ts' : List Token}
    {field field' : Field} (hkeyword : keyword.kind = .structWord)
    (hname : name.kind = .identifier) (hopening : opening.kind = .openParen)
    (hts : IsField ts field) (hcomma : comma.kind = .comma) (hts' : IsField ts' field')
    (hne : field.name ≠ field'.name) (hclosing : closing.kind = .closeParen) :
    Spells (.struct ⟨name.value, [field, field']⟩)
      (keyword :: name :: opening :: (ts ++ comma :: ts' ++ [closing])) :=
  .struct hkeyword hname hopening (.cons hcomma .single) (.cons hts (.cons hts' .nil))
    (by simpa using hne) hclosing

theorem Spells.isDeclaration {d : Declaration} {t : Token} {ds : List Token}
    (h : d.Spells (t :: ds)) : t.kind.isDeclaration = true := by
  cases h with
  | enum hkeyword | const hkeyword | struct hkeyword => simp [TokenKind.isDeclaration, hkeyword]

/-- May the declaration end in front of the token `next`? -/
def EndsBefore (next : Token) : Declaration → Prop
  | const _ value => ExpressionEndsBefore next value
  | _ => True

/-- The names that a declaration binds: the qualified members of an enum, a constant, a struct. -/
def names : Declaration → List Text
  | enum name members => members.map fun member ↦ name ++ '.' :: member
  | const name _ => [name]
  | struct s => [s.name]

end Declaration

/-- A part of the body of a scope. -/
inductive Part
  /-- A token outside of every declaration, and the token behind it. -/
  | kept (token next : Token)
  /-- A declaration with its keyword and the tokens behind the keyword. -/
  | declared (keyword : Token) (tail : List Token) (declaration : Declaration)

namespace Part

/-- The tokens of a part. -/
def tokens : Part → List Token
  | kept token _ => [token]
  | declared keyword tail _ => keyword :: tail

/-- What a part declares. -/
def declaration? : Part → Option Declaration
  | kept _ _ => none
  | declared _ _ d => some d

end Part

/-- The parts of a body in front of the brace `closing`. -/
inductive IsBody (closing : Token) : List Token → List Part → Prop
  | nil : IsBody closing [] []
  | kept {t : Token} {ts : List Token} {parts : List Part} (ht : t.kind.isDeclaration = false)
      (hts : IsBody closing ts parts) :
      IsBody closing (t :: ts) (.kept t (ts.headD closing) :: parts)
  | declared {t : Token} {ds ts : List Token} {d : Declaration} {parts : List Part}
      (hd : d.Spells (t :: ds)) (hnext : d.EndsBefore (ts.headD closing))
      (hts : IsBody closing ts parts) :
      IsBody closing (t :: (ds ++ ts)) (.declared t ds d :: parts)

/-- The declarations among the parts of a body, in order. -/
def declarationsOf (parts : List Part) : List Declaration :=
  parts.filterMap Part.declaration?

/-- The names that the parts of a body bind, in order. -/
def namesOf (parts : List Part) : List Text :=
  (declarationsOf parts).flatMap Declaration.names

end YulPlus
