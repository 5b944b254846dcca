import YulPlus.Data.Value
import YulPlus.FileTree.Basic

/-!
# Sessions

A build reads and writes files, starts processes and prints. All of it is a state, `Session`: the
file tree, what was printed so far, and the list of everything that was asked of the world outside.
The world itself is a `Host`: functions that say what a look-up finds and how a process ends. So a
whole build is a function of a host and a session, and a failure keeps the session that it happened
in: `Action`.
-/

namespace YulPlus

/-- The kinds of failure of a process or of a provider. -/
inductive ProcessFaultKind
  | notFound
  | permission
  | system
  | timeout
  | subprocess
  | value
deriving DecidableEq, Repr

/-- A failure that keeps a process or a provider from giving an answer. -/
structure ProcessFault where
  kind : ProcessFaultKind
  message : Text
deriving DecidableEq, Repr

namespace ProcessFault

/-- Is it a failure of the operating system? -/
def isSystem (f : ProcessFault) : Bool :=
  f.kind = .notFound || f.kind = .permission || f.kind = .system

/-- Is it a failure of running a process? -/
def isSubprocess (f : ProcessFault) : Bool :=
  f.kind = .timeout || f.kind = .subprocess

end ProcessFault

/-- A process to be run. -/
structure Command where
  path : Path
  argument : Text
  input : Option Text
  /-- The time in seconds that it may take, null for any time. -/
  timeout : Scalar
deriving DecidableEq, Repr

/-- How a process ends. -/
inductive ProcessResult
  | exited (status : Int) (output errors : Text)
  | failed (fault : ProcessFault)
deriving DecidableEq, Repr

/-- The world outside of a session. -/
structure Host where
  /-- Find an executable by its name. -/
  find : Text → Option Text
  /-- Run a process. -/
  run : Command → ProcessResult
  /-- Do printed texts have colours? -/
  colored : Bool

/-- Something that was asked of the world outside, or handed to it. -/
inductive Event
  | provide (version : Text)
  | find (name : Text)
  | run (command : Command)
  | call (input : Text)
  | store (target : Text)
deriving DecidableEq, Repr

/-- The state of a build. -/
structure Session where
  tree : FileTree := {}
  /-- What happened, in order. -/
  events : List Event := []
  output : Text := []
  errors : Text := []
deriving Repr

/-- A step of a build, which may fail. -/
abbrev Action (ε α : Type) := ReaderT Host (ExceptT ε (StateM Session)) α

namespace Session

/-- Note an event. -/
def note {ε : Type} (e : Event) : Action ε Unit :=
  modify fun s => { s with events := s.events ++ [e] }

/-- Print a line. -/
def print {ε : Type} (line : Text) : Action ε Unit :=
  modify fun s => { s with output := s.output ++ line ++ ['\n'] }

/-- Print a line of the error output. -/
def printError {ε : Type} (line : Text) : Action ε Unit :=
  modify fun s => { s with errors := s.errors ++ line ++ ['\n'] }

/-- Find an executable by its name. -/
def find {ε : Type} (name : Text) : Action ε (Option Text) := do
  note (.find name)
  return (← read).find name

/-- Run a process. -/
def run {ε : Type} (command : Command) : Action ε ProcessResult := do
  note (.run command)
  return (← read).run command

/-- Change the file tree. -/
def setTree {ε : Type} (t : FileTree) : Action ε Unit :=
  modify fun s => { s with tree := t }

/-- Run a step that may fail and go on with its outcome. -/
def attempt {ε ε' α : Type} (step : Action ε α) : Action ε' (Except ε α) :=
  fun host session =>
    match step host session with
    | (outcome, session) => (.ok outcome, session)

/-- Go on only if there is a value. -/
def require {ε α : Type} : Except ε α → Action ε α
  | .ok a => pure a
  | .error e => throw e

end Session

/-! ### Colours -/

/-- The three colours of printed texts. -/
inductive Color
  | red
  | green
  | yellow
deriving DecidableEq, Repr

namespace Color

/-- The control sequence that begins a colour. -/
def opening : Color → Text
  | red => "\x1b[31m".toList
  | green => "\x1b[32m".toList
  | yellow => "\x1b[33m".toList

/-- The control sequence that ends every colour. -/
def closing : Text := "\x1b[39m".toList

/-- The inside of a coloured text: the colour ends in front of every line break and begins again
behind it, and it begins again behind an end of colour that the text itself holds. -/
def paintLines (c : Color) : Text → Text
  | [] => []
  | '\r' :: '\n' :: rest => closing ++ '\r' :: '\n' :: c.opening ++ paintLines c rest
  | '\n' :: rest => closing ++ '\n' :: c.opening ++ paintLines c rest
  | '\x1b' :: '[' :: '3' :: '9' :: 'm' :: rest => closing ++ c.opening ++ paintLines c rest
  | char :: rest => char :: paintLines c rest

/-- A coloured text, or the text itself where colours are off or there is none. -/
def paint (c : Color) (colored : Bool) (s : Text) : Text :=
  if colored && !s.isEmpty then c.opening ++ paintLines c s ++ closing else s

end Color

end YulPlus
