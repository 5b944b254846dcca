import YulPlus.Proofs.Source.Tokenized
import YulPlus.Proofs.Yul.Word

/-!
# Functions of Yul

A part of Yul, as much of it as the inserted functions of structs use: a function whose body assigns
one expression to its result, where an expression is a number, a name or a call. `readings` are the
tokens of a function, so that a text defines it when it is read as these.

`Evaluates` says what an expression is worth and `Returns` what a call returns, in a program that
consists of functions. Nothing is said there about the order of the functions or about their names.
If two functions have one name, a call may return what either of them does; if the names are
distinct, a call is a call of one function (`Definition.returns_iff`). -/

namespace YulPlus.Yul

open Text

/-- An expression: a number, a name or a call. -/
inductive Expression
  | number (n : Nat)
  | name (x : Text)
  | call (function : Text) (arguments : List Expression)

/-- A function whose body assigns the value of an expression to its result. -/
structure Definition where
  name : Text
  parameters : List Text
  result : Text
  value : Expression

/-! ### Tokens -/

/-- The reading of a token with a fixed spelling. -/
def symbolReading (k : TokenKind) : TokenKind × Text :=
  (k, k.symbol)

mutual

/-- The tokens of an expression. -/
def Expression.readings : Expression → List (TokenKind × Text)
  | .number n => [(.number, decimal n)]
  | .name x => [(.identifier, x)]
  | .call f arguments =>
    (.identifier, f) :: symbolReading .openParen ::
      (argumentReadings arguments ++ [symbolReading .closeParen])

/-- The tokens of expressions with commas between them. -/
def argumentReadings : List Expression → List (TokenKind × Text)
  | [] => []
  | [e] => e.readings
  | e :: e' :: es => e.readings ++ symbolReading .comma :: argumentReadings (e' :: es)

end

/-- The tokens between the name of a function and the value that it returns. -/
def headReadings (parameters : List Text) (result : Text) : List (TokenKind × Text) :=
  symbolReading .openParen :: (argumentReadings (parameters.map .name) ++
    [symbolReading .closeParen, symbolReading .arrow, (.identifier, result),
      symbolReading .openBrace, (.identifier, result), symbolReading .assign])

/-- The tokens of a function. -/
def Definition.readings (d : Definition) : List (TokenKind × Text) :=
  (.functionWord, "function".toList) :: (.identifier, d.name) ::
    (headReadings d.parameters d.result ++ (d.value.readings ++ [symbolReading .closeBrace]))

/-! ### Values -/

/-- The built-in functions that the inserted functions call. -/
inductive Builtin
  | add
  | sub
  | mul
  | shr
  | mload
deriving DecidableEq

namespace Builtin

def name : Builtin → Text
  | add => "add".toList
  | sub => "sub".toList
  | mul => "mul".toList
  | shr => "shr".toList
  | mload => "mload".toList

/-- The built-in function that is called like this. -/
def ofName? (name : Text) : Option Builtin :=
  [add, sub, mul, shr, mload].find? fun b ↦ b.name = name

/-- What a built-in function returns. A word is shifted by its first argument, and nothing remains
of it after a shift by 256 or more. -/
def value? (m : Memory) : Builtin → List Word → Option Word
  | add, [v, w] => some (v + w)
  | sub, [v, w] => some (v - w)
  | mul, [v, w] => some (v * w)
  | shr, [v, w] => some (w >>> v.toNat)
  | mload, [v] => some (m.load v)
  | _, _ => none

end Builtin

/-- The words of the parameters and of the result when a call begins. -/
def Definition.start (d : Definition) (ws : List Word) : List (Text × Word) :=
  d.parameters.zip ws ++ [(d.result, 0)]

mutual

/-- The expression is worth the word `w`, where names stand for the words in `values`. A number that
does not fit into a word is worth nothing. -/
inductive Evaluates (program : List Definition) (m : Memory) :
    List (Text × Word) → Expression → Word → Prop
  | number {values : List (Text × Word)} {n : Nat} {w : Word} (hn : w.toNat = n) :
      Evaluates program m values (.number n) w
  | name {values : List (Text × Word)} {x : Text} {w : Word} (hx : values.lookup x = some w) :
      Evaluates program m values (.name x) w
  | builtin {values : List (Text × Word)} {f : Text} {es : List Expression} {ws : List Word}
      {w : Word} {b : Builtin} (hf : Builtin.ofName? f = some b)
      (hes : EvaluatesAll program m values es ws) (hw : b.value? m ws = some w) :
      Evaluates program m values (.call f es) w
  | call {values : List (Text × Word)} {es : List Expression} {ws : List Word} {w : Word}
      {d : Definition} (hd : d ∈ program) (hfree : Builtin.ofName? d.name = none)
      (hes : EvaluatesAll program m values es ws) (hlength : ws.length = d.parameters.length)
      (hvalue : Evaluates program m (d.start ws) d.value w) :
      Evaluates program m values (.call d.name es) w

/-- The expressions are worth the words, one by one. -/
inductive EvaluatesAll (program : List Definition) (m : Memory) :
    List (Text × Word) → List Expression → List Word → Prop
  | nil {values : List (Text × Word)} : EvaluatesAll program m values [] []
  | cons {values : List (Text × Word)} {e : Expression} {es : List Expression} {w : Word}
      {ws : List Word} (he : Evaluates program m values e w)
      (hes : EvaluatesAll program m values es ws) :
      EvaluatesAll program m values (e :: es) (w :: ws)

end

/-- A call of the function `f` with the words `ws` returns `w`. -/
def Returns (program : List Definition) (m : Memory) (f : Text) (ws : List Word) (w : Word) :
    Prop :=
  ∃ d ∈ program, d.name = f ∧ ws.length = d.parameters.length ∧
    Evaluates program m (d.start ws) d.value w

/-! ### More functions -/

mutual

/-- More functions take no value away. -/
theorem Evaluates.mono {program program' : List Definition} {m : Memory}
    {values : List (Text × Word)} {e : Expression} {w : Word} (hsub : program ⊆ program')
    (h : Evaluates program m values e w) : Evaluates program' m values e w :=
  match h with
  | .number hn => .number hn
  | .name hx => .name hx
  | .builtin hf hes hw => .builtin hf (hes.mono hsub) hw
  | .call hd hfree hes hlength hvalue =>
    .call (hsub hd) hfree (hes.mono hsub) hlength (hvalue.mono hsub)

theorem EvaluatesAll.mono {program program' : List Definition} {m : Memory}
    {values : List (Text × Word)} {es : List Expression} {ws : List Word}
    (hsub : program ⊆ program') (h : EvaluatesAll program m values es ws) :
    EvaluatesAll program' m values es ws :=
  match h with
  | .nil => .nil
  | .cons he hes => .cons (he.mono hsub) (hes.mono hsub)

end

section

variable {program program' : List Definition} {m : Memory} {values : List (Text × Word)}
  {d : Definition} {e : Expression} {es : List Expression} {f x : Text} {n : Nat} {w : Word}
  {ws : List Word} {b : Builtin}

/-- More functions take no result away. -/
theorem Returns.mono (hsub : program ⊆ program') (h : Returns program m f ws w) :
    Returns program' m f ws w := by
  obtain ⟨d, hd, hname, hlength, hvalue⟩ := h
  exact ⟨d, hsub hd, hname, hlength, hvalue.mono hsub⟩

/-! ### Evaluation step by step -/

theorem evaluates_number_iff : Evaluates program m values (.number n) w ↔ w.toNat = n := by
  constructor
  · rintro ⟨⟩
    assumption
  · exact .number

theorem evaluates_number_iff_of_lt (hn : n < 2 ^ 256) :
    Evaluates program m values (.number n) w ↔ w = BitVec.ofNat 256 n := by
  rw [evaluates_number_iff, ← BitVec.toNat_inj, BitVec.toNat_ofNat, Nat.mod_eq_of_lt hn]

@[simp]
theorem evaluates_name_iff :
    Evaluates program m values (.name x) w ↔ values.lookup x = some w := by
  constructor
  · rintro ⟨⟩
    assumption
  · exact .name

/-! Something holds of the words of some expressions. -/

@[simp]
theorem exists_evaluatesAll_nil_iff {P : List Word → Prop} :
    (∃ ws, EvaluatesAll program m values [] ws ∧ P ws) ↔ P [] := by
  constructor
  · rintro ⟨_, ⟨⟩, h⟩
    exact h
  · exact fun h ↦ ⟨[], .nil, h⟩

@[simp]
theorem exists_evaluatesAll_cons_iff {P : List Word → Prop} :
    (∃ ws, EvaluatesAll program m values (e :: es) ws ∧ P ws) ↔
      ∃ v, Evaluates program m values e v ∧
        ∃ vs, EvaluatesAll program m values es vs ∧ P (v :: vs) := by
  constructor
  · rintro ⟨_, ⟨⟩, h⟩
    exact ⟨_, ‹_›, _, ‹_›, h⟩
  · rintro ⟨v, he, vs, hes, h⟩
    exact ⟨v :: vs, .cons he hes, h⟩

theorem Builtin.ofName?_name (b : Builtin) : ofName? b.name = some b := by
  cases b <;> decide +kernel

/-- The names of the built-in functions have no dot in them. -/
theorem Builtin.ofName?_eq_none (hf : '.' ∈ f) : ofName? f = none := by
  have hdot : ∀ b ∈ [add, sub, mul, shr, mload], '.' ∉ b.name := by decide
  refine List.find?_eq_none.2 fun b hb hname ↦ hdot b hb ?_
  rwa [of_decide_eq_true hname]

/-- A call of a built-in function. -/
theorem evaluates_builtin_iff : Evaluates program m values (.call b.name es) w ↔
    ∃ ws, EvaluatesAll program m values es ws ∧ b.value? m ws = some w := by
  generalize hname : b.name = f
  have hf : Builtin.ofName? f = some b := hname ▸ b.ofName?_name
  constructor
  · intro h
    cases h with
    | builtin hf' hes hw =>
      obtain rfl := Option.some.inj (hf.symm.trans hf')
      exact ⟨_, hes, hw⟩
    | call _ hfree =>
      rw [hf] at hfree
      cases hfree
  · rintro ⟨ws, hes, hw⟩
    exact .builtin hf hes hw

/-- A call of a function of the program. -/
theorem evaluates_call_iff (hf : Builtin.ofName? f = none) :
    Evaluates program m values (.call f es) w ↔
      ∃ ws, EvaluatesAll program m values es ws ∧ Returns program m f ws w := by
  constructor
  · intro h
    cases h with
    | builtin hf' =>
      rw [hf] at hf'
      cases hf'
    | call hd _ hes hlength hvalue => exact ⟨_, hes, _, hd, rfl, hlength, hvalue⟩
  · rintro ⟨ws, hes, d, hd, rfl, hlength, hvalue⟩
    exact .call hd hf hes hlength hvalue

/-- **A call of a function** whose name no other function has. -/
theorem Definition.returns_iff (hnames : (program.map Definition.name).Nodup) (hd : d ∈ program) :
    Returns program m d.name ws w ↔
      ws.length = d.parameters.length ∧ Evaluates program m (d.start ws) d.value w := by
  constructor
  · rintro ⟨d', hd', hname, h⟩
    obtain rfl := List.inj_on_of_nodup_map hnames hd' hd hname
    exact h
  · exact fun h ↦ ⟨d, hd, rfl, h⟩

end

end YulPlus.Yul
