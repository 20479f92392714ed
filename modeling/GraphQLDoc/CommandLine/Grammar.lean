/-!
The commands of the program and the arguments they take, with the texts that explain them.
-/
namespace GraphQLDoc.CommandLine

/-- What an option does. -/
inductive Switch where
  | help
  /-- Takes an integer. -/
  | indent
deriving DecidableEq

/-- How many operands a command takes. -/
inductive Arity where
  | one
  | atMostOne
  /-- The name of a command, and everything behind it. -/
  | command
deriving DecidableEq

structure Grammar where
  name : String
  usage : String
  /-- What the help says below the usage. -/
  description : String
  options : List (String × Switch)
  arity : Arity

inductive Subcommand where
  | init
  | parse
  | check
deriving DecidableEq

def Subcommand.word : Subcommand → String
  | init => "init"
  | parse => "parse"
  | check => "check"

def subcommands : List Subcommand := [.init, .parse, .check]

def helpOptions : List (String × Switch) := [("-h", .help), ("--help", .help)]

/-- Lines of text, each with its end. -/
def lines (ls : List String) : String := String.join (ls.map (· ++ "\n"))

def helpLine : String := "  -h, --help  show this help message and exit"

/-- The arguments of the program itself. -/
def mainGrammar : Grammar where
  name := "gqlast"
  usage := "usage: gqlast [-h] COMMAND ...\n"
  description := lines [
    "gqlast: parse GraphQL schemas and queries into a typed AST",
    "",
    "positional arguments:",
    "  COMMAND",
    "    init      Initialize a new gqlast workspace",
    "    parse     Parse a GraphQL file and print its AST as JSON",
    "    check     Check the consistency of the workspace schemas",
    "",
    "options:",
    helpLine]
  options := helpOptions
  arity := .command

def initGrammar : Grammar where
  name := "gqlast init"
  usage := "usage: gqlast init [-h] [directory]\n"
  description := lines [
    "Create a default .gqlast.yaml in a directory.",
    "",
    "positional arguments:",
    "  directory   Directory to initialize the workspace in (default: current",
    "              directory)",
    "",
    "options:",
    helpLine]
  options := helpOptions
  arity := .atMostOne

def parseGrammar : Grammar where
  name := "gqlast parse"
  usage := "usage: gqlast parse [-h] [--indent INDENT] file\n"
  description := lines [
    "Parse a single .graphql file and print the resulting document as JSON.",
    "",
    "positional arguments:",
    "  file             The .graphql file to parse",
    "",
    "options:",
    "  -h, --help       show this help message and exit",
    "  --indent INDENT  Indent the JSON output by this many spaces (default:",
    "                   compact)"]
  options := helpOptions ++ [("--indent", .indent)]
  arity := .one

def checkGrammar : Grammar where
  name := "gqlast check"
  usage := "usage: gqlast check [-h] [directory]\n"
  description := lines [
    "Compile every source file of the workspace and validate it.",
    "",
    "positional arguments:",
    "  directory   Directory containing the gqlast workspace (default: current",
    "              directory)",
    "",
    "options:",
    helpLine]
  options := helpOptions
  arity := .atMostOne

def Subcommand.grammar : Subcommand → Grammar
  | init => initGrammar
  | parse => parseGrammar
  | check => checkGrammar

/-- The whole help text. -/
def Grammar.help (g : Grammar) : String := g.usage ++ "\n" ++ g.description

end GraphQLDoc.CommandLine
