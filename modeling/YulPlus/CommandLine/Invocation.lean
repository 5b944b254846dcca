import YulPlus.CommandLine.Manual

/-!
# Invocations

What an argument list asks the program to do. `Invocation.ofArguments` reads the arguments in front
of the command with the grammar of the program and those behind it with the grammar of the command.
Help and errors of either end the reading; arguments that nothing takes are an error of the program,
those in front of the command first, and are noticed only when both readings are done.
-/

namespace YulPlus

namespace CommandLine

/-- A command with its arguments. -/
inductive Task
  | init (directory version : Text)
  | compile (directory : Text)
deriving DecidableEq, Repr

/-- What is asked for. -/
inductive Invocation
  | help (manual : Manual)
  | misuse (manual : Manual) (error : UsageError)
  | perform (task : Task)

/-- The two commands. -/
inductive Verb
  | init
  | compile
deriving DecidableEq, Repr

namespace Verb

/-- All commands, in the order of the manual. -/
def all : List Verb := [init, compile]

/-- The name of a command. -/
def name : Verb → Text
  | init => "init".toList
  | compile => "compile".toList

/-- The manual of a command. -/
def manual : Verb → Manual
  | init => initManual
  | compile => compileManual

/-- The command of a name. -/
def ofName? (s : Text) : Option Verb :=
  all.find? fun verb => verb.name = s

/-- The task that a command is given by its arguments: the directory defaults to the current one,
the version to the usual one. -/
def task (verb : Verb) (f : Found) : Task :=
  let directory := (f.operand.bind List.head?).getD ['.']
  match verb with
  | init => .init directory (f.value.getD defaultVersion.toList)
  | compile => .compile directory

end Verb

namespace Invocation

/-- Read the arguments behind a command; `extras` are the ones in front of it that nothing took. -/
def ofCommand (verb : Verb) (extras arguments : List Text) : Invocation :=
  match verb.manual.grammar.read arguments with
  | .help => .help verb.manual
  | .error e => .misuse verb.manual e
  | .found f =>
    match extras ++ f.extras with
    | [] => .perform (verb.task f)
    | unrecognized => .misuse mainManual (.unrecognized unrecognized)

/-- Read an argument list. Without any argument the program shows its help. -/
def ofArguments (arguments : List Text) : Invocation :=
  match mainManual.grammar.read arguments with
  | .help => .help mainManual
  | .error e => .misuse mainManual e
  | .found f =>
    match f.operand with
    | some (name :: rest) =>
      match Verb.ofName? name with
      | some verb => ofCommand verb f.extras rest
      | none => .misuse mainManual (.unknownCommand name (Verb.all.map Verb.name))
    | _ =>
      match f.extras with
      | [] => .help mainManual
      | unrecognized => .misuse mainManual (.unrecognized unrecognized)

end Invocation

end CommandLine

end YulPlus
