import ScopeLint.Tool

/-! The switches of the command line and the texts that explain them. -/
namespace ScopeLint.CommandLine

inductive Request where
  | help
  | recursive
  | skip
  | doctests
  | ignore
  | keep
  | verbose
  | version
  deriving DecidableEq

structure Switch where
  spellings : List String
  takesValue : Bool
  request : Request
  deriving DecidableEq

def switches : List Switch :=
  [⟨["-h", "--help"], false, .help⟩,
   ⟨["-r", "--recursive"], false, .recursive⟩,
   ⟨["-s", "--skip"], true, .skip⟩,
   ⟨["-d", "--with-doctests"], false, .doctests⟩,
   ⟨["-i", "--ignore"], true, .ignore⟩,
   ⟨["-di", "--dont-ignore"], true, .keep⟩,
   ⟨["-vb", "--verbose"], false, .verbose⟩,
   ⟨["-v", "--version"], false, .version⟩]

def spelled : List (String × Switch) :=
  switches.flatMap fun s => s.spellings.map fun spelling => (spelling, s)

def usage : String :=
  "usage: frosted [-h] [-r] [-s SKIP] [-d] [-i IGNORE_FROSTED_ERRORS]\n" ++
  "               [-di NOT_IGNORE_FROSTED_ERRORS] [-vb] [-v]\n" ++
  "               files [files ...]\n"

def help : String :=
  usage ++ "\n" ++
  "Quickly check the correctness of your Python scripts.\n" ++
  "\n" ++
  "positional arguments:\n" ++
  "  files                 One file or a list of Python source files to check the\n" ++
  "                        syntax of.\n" ++
  "\n" ++
  "options:\n" ++
  "  -h, --help            show this help message and exit\n" ++
  "  -r, --recursive       Recursively look for Python files to check\n" ++
  "  -s SKIP, --skip SKIP  Files that frosted should skip over.\n" ++
  "  -d, --with-doctests   Run frosted against doctests\n" ++
  "  -i IGNORE_FROSTED_ERRORS, --ignore IGNORE_FROSTED_ERRORS\n" ++
  "                        Specify error codes that should be ignored.\n" ++
  "  -di NOT_IGNORE_FROSTED_ERRORS, --dont-ignore NOT_IGNORE_FROSTED_ERRORS\n" ++
  "                        Specify error codes that should not be ignored in any\n" ++
  "                        case.\n" ++
  "  -vb, --verbose        Explicitly separate each section of data when\n" ++
  "                        displaying errors.\n" ++
  "  -v, --version         show program's version number and exit\n"

def versionText : String := Tool.name ++ " " ++ Tool.version ++ "\n"

end ScopeLint.CommandLine
