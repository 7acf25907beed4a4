import ScopeLint.CommandLine.Arguments
import ScopeLint.Session.Check

/-! What a command line does: it checks files, and its exit tells whether there were warnings. -/
namespace ScopeLint.CommandLine

inductive Exit where
  | checked (warned : Bool)
  | status (code : Nat)
  deriving DecidableEq

namespace Arguments

/-- The values of a switch; a missing one is an empty list. -/
def values (items : List (Option String)) : Datum :=
  .list (items.map fun value => (value.map Datum.text).getD (.list []))

def overrides (a : Arguments) : Settings :=
  let given := [("recursive", .bool a.recursive), ("skip", values a.skip),
    ("run_doctests", .bool a.doctests), (Settings.ignoredKey, values a.ignored),
    (Settings.negation ++ Settings.ignoredKey, values a.kept), ("verbose", .bool a.verbose)]
  given.filter fun e => e.2.truthy

end Arguments

/-- The source text from the standard input stands under this name. -/
def inputName : String := "<stdin>"

/-- Failures of the compiler that count as failures of the system. -/
def systemFailures : List String :=
  ["OSError", "IOError", "EnvironmentError", "BlockingIOError", "ChildProcessError",
   "ConnectionError", "BrokenPipeError", "ConnectionAbortedError", "ConnectionRefusedError",
   "ConnectionResetError", "FileExistsError", "FileNotFoundError", "InterruptedError",
   "IsADirectoryError", "NotADirectoryError", "PermissionError", "ProcessLookupError",
   "TimeoutError"]

def isSystemFailure : Failure → Bool
  | .file _ _ => true
  | .fault (.raised kind _) => systemFailures.contains kind
  | _ => false

/-- Checks a file named on the command line. A configuration file that cannot be opened ends
everything, as any failure of the system does. -/
def checkNamed (host : Host) (path : String) (overrides : Settings) : Work (Nat × Settings) :=
  tryCatch (Work.checkFile host path .null overrides) fun e =>
    throw (if isSystemFailure e then .unnamedFile else e)

def checkRequested (host : Host) (input : String) (a : Arguments) : Work Nat := do
  if a.files = ["-"] then
    let _ ← Work.check host input (.text inputName) .null a.overrides
    return 0
  if a.recursive then
    return (← Work.checkAll host a.files .null a.overrides).1
  let overrides := ("directly_being_checked", .int a.files.length) :: a.overrides
  return (← Work.checkEach (checkNamed host) a.files overrides).1

def run (host : Host) (arguments : List String) (input : String) : Work Exit := do
  match read arguments with
  | .error e =>
    Work.report (.complaint (usage ++ Tool.name ++ ": error: " ++ e.message ++ "\n"))
    return .status 2
  | .ok .help =>
    Work.report (.notice help)
    return .status 0
  | .ok .version =>
    Work.report (.notice versionText)
    return .status 0
  | .ok (.run a) => return .checked (decide (0 < (← checkRequested host input a)))

end ScopeLint.CommandLine
