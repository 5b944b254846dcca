import YulPlus.Text.Numeral
import YulPlus.Text.Quoted

/-!
# Arguments of a command

An argument list is first classified and then read. An argument that begins with a dash is an
option, unless it is a single dash, looks like a negative number or holds a space and names no
option; a double dash ends the options. A long option may be shortened as long as one option fits,
and a value may follow it behind an equals sign.

A `Grammar` knows its options and whether it takes one argument or a command with everything behind
it. `Grammar.read` gives what was found, with the arguments that nothing takes in `extras`; asking
for help ends the reading, and so does an error.
-/

namespace YulPlus

open Text

namespace CommandLine

/-- What an option does. -/
inductive OptionKind
  | help
  | value
deriving DecidableEq, Repr

/-- An option with its spellings. -/
structure OptionSpec where
  names : List Text
  kind : OptionKind
deriving DecidableEq, Repr

/-- What a command takes besides its options. -/
inductive Operand
  /-- One argument, which may be missing. -/
  | single
  /-- A command and all that follows. -/
  | command
deriving DecidableEq, Repr

/-- The arguments of a program or of one of its commands. -/
structure Grammar where
  options : List OptionSpec
  operand : Operand
deriving DecidableEq, Repr

/-- What was written behind the name of an option, in the same argument. -/
inductive Attachment
  | nothing
  /-- A text behind an equals sign. -/
  | equals (s : Text)
  /-- A text directly behind an option of one letter. -/
  | letters (s : Text)
deriving DecidableEq, Repr

/-- An option as it was given: which one, by which name, and what was attached. -/
structure Given where
  option : OptionSpec
  name : Text
  attached : Attachment
deriving DecidableEq, Repr

/-- A classified argument. -/
inductive Argument
  | plain (s : Text)
  | dashes
  | known (given : Given) (s : Text)
  | unknown (s : Text)
deriving DecidableEq, Repr

/-- Why an argument list is refused. -/
inductive UsageError
  | ambiguous (argument : Text) (names : List Text)
  | attachedToFlag (option : OptionSpec) (attached : Text)
  | missingValue (option : OptionSpec)
  | unknownCommand (name : Text) (commands : List Text)
  | unrecognized (arguments : List Text)
deriving DecidableEq, Repr

namespace UsageError

/-- The wording of an error. -/
def message : UsageError → Text
  | ambiguous argument names =>
    "ambiguous option: ".toList ++ argument ++ " could match ".toList ++
      joinWith ", ".toList names
  | attachedToFlag option attached =>
    "argument ".toList ++ joinWith ['/'] option.names ++ ": ignored explicit argument ".toList ++
      quoted attached
  | missingValue option =>
    "argument ".toList ++ joinWith ['/'] option.names ++ ": expected one argument".toList
  | unknownCommand name commands =>
    "argument COMMAND: invalid choice: ".toList ++ quoted name ++ " (choose from ".toList ++
      joinWith ", ".toList (commands.map quoted) ++ [')']
  | unrecognized arguments =>
    "unrecognized arguments: ".toList ++ joinWith [' '] arguments

end UsageError

/-! ### Classifying -/

/-- The part in front of the first equals sign and the part behind it. -/
def splitAttached (s : Text) : Text × Attachment :=
  match cutAt? ['='] s with
  | some (name, attached) => (name, .equals attached)
  | none => (s, .nothing)

/-- Does the argument look like a negative number? -/
def isNegativeNumber (s : Text) : Bool :=
  let isDecimal := fun c => (digitValue? c).isSome
  match s with
  | '-' :: rest =>
    let body := if rest.getLast? = some '\n' then rest.dropLast else rest
    match body.dropWhile isDecimal with
    | [] => !body.isEmpty
    | '.' :: places => !places.isEmpty && places.all isDecimal
    | _ => false
  | _ => false

namespace Grammar

/-- The option with exactly this name. -/
def named? (g : Grammar) (name : Text) : Option OptionSpec :=
  g.options.find? fun o => o.names.contains name

/-- All options that a long argument can be short for. -/
def longMatches (g : Grammar) (s : Text) : List Given :=
  let (start, attached) := splitAttached s
  g.options.flatMap fun o =>
    (o.names.filter start.isPrefixOf).map fun name => ⟨o, name, attached⟩

/-- All options that an argument with one dash can mean: the one with this letter, to which the rest
is attached, or a longer name that begins like this. -/
def shortMatches (g : Grammar) (s : Text) : List Given :=
  g.options.flatMap fun o =>
    o.names.filterMap fun name =>
      if name = s.take 2 then some ⟨o, name, .letters (s.drop 2)⟩
      else if s.isPrefixOf name then some ⟨o, name, .nothing⟩
      else none

/-- Classify one argument that is not a double dash. -/
def classify (g : Grammar) (s : Text) : Except UsageError Argument :=
  match s with
  | '-' :: second :: _ =>
    match g.named? s with
    | some o => .ok (.known ⟨o, s, .nothing⟩ s)
    | none =>
      let (name, attached) := splitAttached s
      match attached, g.named? name with
      | .equals text, some o => .ok (.known ⟨o, name, .equals text⟩ s)
      | _, _ =>
        match if second = '-' then g.longMatches s else g.shortMatches s with
        | [given] => .ok (.known given s)
        | [] =>
          if isNegativeNumber s || s.contains ' ' then .ok (.plain s) else .ok (.unknown s)
        | several => .error (.ambiguous s (several.map (·.name)))
  | _ => .ok (.plain s)

/-- Classify an argument list; behind a double dash everything is plain. -/
def classifyAll (g : Grammar) : List Text → Except UsageError (List Argument)
  | [] => .ok []
  | s :: rest =>
    if s = ['-', '-'] then .ok (.dashes :: rest.map .plain)
    else
      match g.classify s, g.classifyAll rest with
      | .error e, _ => .error e
      | .ok _, .error e => .error e
      | .ok a, .ok more => .ok (a :: more)

end Grammar

namespace Argument

/-- The argument as it was given. -/
def text : Argument → Text
  | plain s => s
  | dashes => ['-', '-']
  | known _ s => s
  | unknown s => s

end Argument

/-! ### Reading -/

/-- What was found in an argument list. -/
structure Found where
  /-- The operand: the single argument, or the command with all that follows. -/
  operand : Option (List Text) := none
  /-- The value of the option that takes one; the last one given counts. -/
  value : Option Text := none
  extras : List Text := []
deriving DecidableEq, Repr

/-- The end of reading an argument list. -/
inductive Reading
  | found (f : Found)
  | help
  | error (e : UsageError)
deriving DecidableEq, Repr

/-- What becomes of the help option with letters attached. Every letter is a flag of its own, and
help is shown at the first one that is none; a dash or an equals sign before that is an error that
shows what is left. -/
def readLetters (o : OptionSpec) : Text → Reading
  | [] => .help
  | '=' :: rest => .error (.attachedToFlag o rest)
  | c :: rest =>
    if c = '-' then .error (.attachedToFlag o (c :: rest))
    else if o.names.contains ['-', c] then readLetters o rest
    else .help

/-- Read classified arguments and add to what was found. -/
def readArguments (operand : Operand) (f : Found) : List Argument → Reading
  | [] => .found f
  | .unknown s :: rest => readArguments operand { f with extras := f.extras ++ [s] } rest
  | .known given _ :: rest =>
    match given.option.kind, given.attached with
    | .help, .nothing => .help
    | .help, .equals attached => .error (.attachedToFlag given.option attached)
    | .help, .letters attached => readLetters given.option attached
    | .value, .equals attached =>
      readArguments operand { f with value := some attached } rest
    | .value, .letters attached =>
      readArguments operand { f with value := some attached } rest
    | .value, .nothing =>
      match rest with
      | .plain s :: more => readArguments operand { f with value := some s } more
      | _ => .error (.missingValue given.option)
  | .dashes :: rest =>
    match f.operand, operand, rest with
    | none, .single, .plain s :: more =>
      readArguments operand { f with operand := some [s] } more
    | none, .single, more => readArguments operand { f with operand := some [] } more
    | none, .command, next :: more =>
      .found { f with operand := some (['-', '-'] :: next.text :: more.map Argument.text) }
    | _, _, more => readArguments operand { f with extras := f.extras ++ [['-', '-']] } more
  | .plain s :: rest =>
    match f.operand, operand, rest with
    | none, .single, .dashes :: more =>
      readArguments operand { f with operand := some [s] } more
    | none, .single, more => readArguments operand { f with operand := some [s] } more
    | none, .command, more => .found { f with operand := some (s :: more.map Argument.text) }
    | some _, _, more => readArguments operand { f with extras := f.extras ++ [s] } more

/-- Read an argument list. -/
def Grammar.read (g : Grammar) (arguments : List Text) : Reading :=
  match g.classifyAll arguments with
  | .error e => .error e
  | .ok classified => readArguments g.operand {} classified

end CommandLine

end YulPlus
