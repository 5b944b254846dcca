import YulPlus.CommandLine.Arguments

/-!
# Manuals

What the program says about itself: one usage line, which also stands in front of every usage error,
and a help text, which is the usage line with a description below it. The program has a manual of
its own and one for each of its commands.
-/

namespace YulPlus

namespace CommandLine

/-- The version that a new project is configured for unless another one is given. -/
def defaultVersion : String := "0.8.17"

/-- The self-description of the program or of one of its commands. -/
structure Manual where
  /-- How the command is called, without arguments. -/
  program : String
  /-- The arguments in the usage line. -/
  synopsis : String
  /-- The lines of the help text below the usage line. -/
  description : List String
  grammar : Grammar

namespace Manual

/-- The usage line. -/
def usage (m : Manual) : Text :=
  ("usage: " ++ m.program ++ " " ++ m.synopsis).toList

/-- The lines of the help text. -/
def help (m : Manual) : List Text :=
  m.usage :: m.description.map String.toList

/-- The lines that a usage error is reported with. -/
def complaint (m : Manual) (e : UsageError) : List Text :=
  [m.usage, (m.program ++ ": error: ").toList ++ e.message]

end Manual

/-- The option that asks for help. -/
def helpOption : OptionSpec :=
  ⟨["-h".toList, "--help".toList], .help⟩

/-- The option that sets the version of a new project. -/
def versionOption : OptionSpec :=
  ⟨["--solc-version".toList], .value⟩

/-- The manual of the program. -/
def mainManual : Manual where
  program := "yulbuild"
  synopsis := "[-h] COMMAND ..."
  description :=
    [ "",
      "yulbuild: compile Yul and Yul+ contracts into artifacts",
      "",
      "positional arguments:",
      "  COMMAND",
      "    init      Create a project configuration",
      "    compile   Compile all .yul and .yulp sources",
      "",
      "options:",
      "  -h, --help  show this help message and exit" ]
  grammar := ⟨[helpOption], .command⟩

/-- The manual of `init`. -/
def initManual : Manual where
  program := "yulbuild init"
  synopsis := "[-h] [--solc-version SOLC_VERSION] [directory]"
  description :=
    [ "",
      "Write a default yulbuild.yaml into a project directory.",
      "",
      "positional arguments:",
      "  directory             Project directory (default: current directory)",
      "",
      "options:",
      "  -h, --help            show this help message and exit",
      "  --solc-version SOLC_VERSION",
      "                        solc version to configure (default: " ++ defaultVersion ++ ")" ]
  grammar := ⟨[helpOption, versionOption], .single⟩

/-- The manual of `compile`. -/
def compileManual : Manual where
  program := "yulbuild compile"
  synopsis := "[-h] [directory]"
  description :=
    [ "",
      "Compile every Yul and Yul+ source of the project into artifacts.",
      "",
      "positional arguments:",
      "  directory   Project directory (default: current directory)",
      "",
      "options:",
      "  -h, --help  show this help message and exit" ]
  grammar := ⟨[helpOption], .single⟩

end CommandLine

end YulPlus
