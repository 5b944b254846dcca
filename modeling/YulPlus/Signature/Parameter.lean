import YulPlus.Text.Blank
import YulPlus.Text.Quoted

/-!
# Parameters of a signature

A parameter is written as a type followed by modifiers and at most one name. Its type is a word with
array suffixes, or a parenthesised list of parameters with array suffixes. `ParameterType` is the
canonical type that is left when names, modifiers and free spacing are gone and the short names
`uint`, `int` and `byte` are spelled out; `ParameterType.render` is how it enters a hash.

Nested lists are read by cutting: `closeParen` finds the partner of an opening parenthesis,
`cutCommas` cuts a list at the commas that no parenthesis encloses, and every part is then read as a
parameter of its own. A part is never longer than the list that it was cut from
(`length_le_of_mem_cutCommas`), so reading ends.
-/

namespace YulPlus

open Text

/-- Why a text is not a signature. Each cause carries the text that its message shows. -/
inductive SignatureFault
  | missingName (kind text : Text)
  | missingParen (kind name : Text)
  | unbalanced (text : Text)
  | emptyParameter (parameters : Text)
  | invalidType (word : Text)
  | invalidParameter (parameter : Text)
  | afterEvent (trailer : Text)
  | afterFunction (word : Text)
  | malformedReturns (trailer : Text)
deriving DecidableEq, Repr

namespace SignatureFault

/-- The wording of a fault. -/
def message : SignatureFault → Text
  | missingName kind text => "Expected ".toList ++ kind ++ " name in ".toList ++ quoted text
  | missingParen kind name =>
    "Expected '(' after ".toList ++ kind ++ " name ".toList ++ quoted name
  | unbalanced text => "Unbalanced parentheses in ".toList ++ quoted text
  | emptyParameter parameters => "Empty parameter in ".toList ++ quoted parameters
  | invalidType word => "Invalid parameter type ".toList ++ quoted word
  | invalidParameter parameter => "Invalid parameter declaration ".toList ++ quoted parameter
  | afterEvent trailer => "Unexpected text after event parameters: ".toList ++ quoted trailer
  | afterFunction word => "Unexpected text after function parameters: ".toList ++ quoted word
  | malformedReturns trailer => "Malformed returns clause: ".toList ++ quoted trailer

end SignatureFault

/-! ### Names and words -/

/-- Is `c` one of `0`–`9`? -/
def isAsciiDigit (c : Char) : Bool :=
  '0' ≤ c && c ≤ '9'

/-- Is `c` one of `A`–`Z`, `a`–`z` and the underscore? -/
def isWordStart (c : Char) : Bool :=
  ('A' ≤ c && c ≤ 'Z') || ('a' ≤ c && c ≤ 'z') || c = '_'

/-- Can `c` stand inside the name of a type? -/
def isWordPart (c : Char) : Bool :=
  isWordStart c || isAsciiDigit c

/-- Can `c` begin the name of a function, an event or a parameter? -/
def isNameStart (c : Char) : Bool :=
  isWordStart c || c = '$'

/-- Can `c` stand inside such a name? -/
def isNamePart (c : Char) : Bool :=
  isWordPart c || c = '$'

/-- Is the whole text a name? -/
def isName : Text → Bool
  | [] => false
  | c :: rest => isNameStart c && rest.all isNamePart

/-- The words that may stand between a type and its name. -/
def parameterModifiers : List Text :=
  ["indexed".toList, "memory".toList, "calldata".toList, "storage".toList, "payable".toList]

/-- The full spelling of a short type name; every other name is its own. -/
def expandAlias (name : Text) : Text :=
  if name = "uint".toList then "uint256".toList
  else if name = "int".toList then "int256".toList
  else if name = "byte".toList then "bytes1".toList
  else name

/-! ### Canonical types -/

/-- A canonical parameter type: a name or a tuple, with the digits between the brackets of each
array suffix (none for an array of any length). -/
inductive ParameterType
  | elementary (name : Text) (dimensions : List Text)
  | tuple (components : List ParameterType) (dimensions : List Text)
deriving Repr

namespace ParameterType

/-- The array suffixes as they are written. -/
def renderDimensions (dimensions : List Text) : Text :=
  dimensions.flatMap fun digits => '[' :: digits ++ [']']

mutual

/-- The canonical spelling of a type, which holds no blank. -/
def render : ParameterType → Text
  | elementary name dimensions => name ++ renderDimensions dimensions
  | tuple components dimensions =>
    '(' :: renderList components ++ ')' :: renderDimensions dimensions

/-- The canonical spelling of a list of types, with commas between them. -/
def renderList : List ParameterType → Text
  | [] => []
  | [type] => render type
  | type :: next :: rest => render type ++ ',' :: renderList (next :: rest)

end

end ParameterType

/-- Read array suffixes up to the end of the text. The first argument holds the digits of the
bracket that is open, last first. -/
def dimensionsFrom : Option Text → Text → Option (List Text)
  | none, [] => some []
  | none, '[' :: rest => dimensionsFrom (some []) rest
  | none, _ :: _ => none
  | some _, [] => none
  | some digits, ']' :: rest => (dimensionsFrom none rest).map (digits.reverse :: ·)
  | some digits, c :: rest =>
    if isAsciiDigit c then dimensionsFrom (some (c :: digits)) rest else none

/-- The array suffixes that make up the whole text. -/
def dimensions? (s : Text) : Option (List Text) :=
  dimensionsFrom none s

/-! ### Cutting nested lists -/

/-- The inside of a parenthesis that is already open, up to its partner, and the rest behind that
partner; the first argument counts the parentheses opened since. -/
def closeParen : Nat → Text → Option (Text × Text)
  | _, [] => none
  | depth, '(' :: rest =>
    (closeParen (depth + 1) rest).map fun (inner, after) => ('(' :: inner, after)
  | 0, ')' :: rest => some ([], rest)
  | depth + 1, ')' :: rest =>
    (closeParen depth rest).map fun (inner, after) => (')' :: inner, after)
  | depth, c :: rest => (closeParen depth rest).map fun (inner, after) => (c :: inner, after)

/-- Put a character in front of the first part. -/
def pushFirst (c : Char) : List Text → List Text
  | [] => [[c]]
  | part :: parts => (c :: part) :: parts

/-- Cut a text at the commas outside of parentheses; the first argument counts the parentheses that
are open. The text `a,b` has two parts, and the empty text has one, which is empty. -/
def cutCommas : Nat → Text → List Text
  | _, [] => [[]]
  | 0, ',' :: rest => [] :: cutCommas 0 rest
  | depth, '(' :: rest => pushFirst '(' (cutCommas (depth + 1) rest)
  | depth, ')' :: rest => pushFirst ')' (cutCommas (depth - 1) rest)
  | depth, c :: rest => pushFirst c (cutCommas depth rest)

theorem length_lt_of_closeParen {depth : Nat} {s inner after : Text}
    (h : closeParen depth s = some (inner, after)) : inner.length < s.length := by
  fun_induction closeParen depth s generalizing inner after with
  | case1 => simp at h
  | case3 rest =>
    simp at h
    rw [h.1]
    simp
  | case2 _ _ ih | case4 _ _ ih | case5 _ _ _ _ _ _ ih =>
    obtain ⟨⟨i, a⟩, hia, heq⟩ := Option.map_eq_some_iff.1 h
    simp at heq
    have := ih hia
    simp [← heq.1]
    omega

theorem length_le_of_mem_pushFirst {c : Char} {n : Nat} {parts : List Text}
    (h : ∀ part ∈ parts, part.length ≤ n) : ∀ part ∈ pushFirst c parts, part.length ≤ n + 1 := by
  cases parts with
  | nil => simp [pushFirst]
  | cons p ps =>
    intro part hp
    simp only [pushFirst, List.mem_cons] at hp
    rcases hp with rfl | hp
    · have := h p (by simp)
      simp; omega
    · have := h part (by simp [hp])
      omega

/-- A part is not longer than the text it was cut from. -/
theorem length_le_of_mem_cutCommas {depth : Nat} {s : Text} :
    ∀ part ∈ cutCommas depth s, part.length ≤ s.length := by
  fun_induction cutCommas depth s with
  | case1 => simp
  | case2 rest ih =>
    intro part hp
    simp only [List.mem_cons] at hp
    rcases hp with rfl | hp
    · simp
    · have := ih part hp
      simp; omega
  | case3 _ _ ih | case4 _ _ ih | case5 _ _ _ _ _ _ ih =>
    intro part hp
    exact length_le_of_mem_pushFirst ih part hp

/-- The declarations of a parameter list: none if it is blank, else its parts, of which none may be
blank. -/
def parameterParts (list : Text) : Except SignatureFault (List Text) :=
  if list.all isBlank then .ok []
  else
    let parts := cutCommas 0 list
    if parts.any (·.all isBlank) then .error (.emptyParameter list) else .ok parts

theorem length_le_of_mem_parameterParts {list : Text} {parts : List Text}
    (h : parameterParts list = .ok parts) : ∀ part ∈ parts, part.length ≤ list.length := by
  unfold parameterParts at h
  split at h
  · cases h; simp
  · dsimp only at h
    split at h
    · cases h
    · cases h; exact length_le_of_mem_cutCommas

/-! ### Reading a parameter -/

/-- What follows a type: modifiers in any number and at most one name. -/
def checkQualifiers (parameter : Text) (qualifiers : List Text) : Except SignatureFault Unit :=
  let names := qualifiers.filter fun word => !parameterModifiers.contains word
  if names.length > 1 || names.any (fun name => !isName name) then
    .error (.invalidParameter parameter)
  else .ok ()

/-- Read a declaration whose type is a plain word. -/
def readElementary (parameter : Text) : Except SignatureFault ParameterType :=
  match words parameter with
  | [] => .error (.invalidParameter parameter)
  | word :: qualifiers =>
    match word with
    | [] => .error (.invalidType word)
    | c :: rest =>
      match isWordStart c, dimensions? (rest.dropWhile isWordPart) with
      | true, some dimensions => do
        checkQualifiers parameter qualifiers
        return .elementary (expandAlias (c :: rest.takeWhile isWordPart)) dimensions
      | _, _ => .error (.invalidType word)

/-- Split the words behind a tuple into its array suffixes, if the first word is made of them, and
the qualifiers. -/
def tupleSuffix (trailing : List Text) : List Text × List Text :=
  match trailing with
  | [] => ([], [])
  | word :: qualifiers =>
    match dimensions? word with
    | some dimensions => (dimensions, qualifiers)
    | none => ([], word :: qualifiers)

/-- A declaration without its outer blanks and without the word `tuple` in front of a
parenthesis. -/
def bareParameter (declaration : Text) : Text :=
  let parameter := strip declaration
  if "tuple(".toList.isPrefixOf parameter then parameter.drop 5 else parameter

theorem length_bareParameter_le (declaration : Text) :
    (bareParameter declaration).length ≤ declaration.length := by
  have h : (strip declaration).length ≤ declaration.length := by
    have h₁ := (List.dropWhile_suffix (l := declaration) isBlank).length_le
    have h₂ := (List.dropWhile_suffix (l := (declaration.dropWhile isBlank).reverse)
      isBlank).length_le
    simp [strip, stripLeft, stripRight] at *
    omega
  unfold bareParameter
  dsimp only
  split
  · simp; omega
  · exact h

set_option linter.unusedVariables false in
/-- Read one parameter declaration. -/
def readParameter (declaration : Text) : Except SignatureFault ParameterType :=
  match hp : bareParameter declaration with
  | '(' :: tail =>
    match hc : closeParen 0 tail with
    | none => .error (.unbalanced ('(' :: tail))
    | some (inner, after) =>
      match hs : parameterParts inner with
      | .error fault => .error fault
      | .ok parts => do
        let components ← parts.attach.mapM fun ⟨part, _⟩ => readParameter part
        let (dimensions, qualifiers) := tupleSuffix (words after)
        checkQualifiers ('(' :: tail) qualifiers
        return .tuple components dimensions
  | parameter => readElementary parameter
termination_by declaration.length
decreasing_by
  rename_i hmem
  have h₁ := length_le_of_mem_parameterParts hs part hmem
  have h₂ := length_lt_of_closeParen hc
  have h₃ := length_bareParameter_le declaration
  rw [hp] at h₃
  simp at h₃
  omega

end YulPlus
