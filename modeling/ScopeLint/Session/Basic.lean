import ScopeLint.Cache
import ScopeLint.Checker.Run
import ScopeLint.Comment.Scanner
import ScopeLint.FileTree

/-! The state that checks share: files, what has been read of the configuration, and the list of
ignored codes that every check without a list of its own adds to. -/
namespace ScopeLint

inductive Failure where
  | fault (cause : Fault)
  | scan (cause : Comment.ScanError)
  | config (cause : Config.Error)
  | file (path : String) (cause : FileError)
  /-- Source files cannot be opened in the way that is asked for. -/
  | openMode
  | nullInPath
  /-- A file that cannot be opened should be named, and has no name there. -/
  | unnamedFile

def Failure.message : Failure → String
  | .fault cause => cause.message
  | .scan cause => cause.message
  | .config cause => cause.message
  | .file path cause =>
    "[Errno " ++ toString cause.number ++ "] " ++ cause.reason ++ ": " ++ Text.quoted path
  | .openMode => "invalid mode: 'U'"
  | .nullInPath => "embedded null byte"
  | .unnamedFile => "name 'file_name' is not defined"

inductive Report where
  | diagnostic (d : Diagnostic)
  | trouble (filename : Datum) (problem : String)
  | notice (text : String)
  | complaint (text : String)

namespace Report

def output : Report → String
  | .diagnostic d => d.text ++ "\n"
  | .notice text => text
  | _ => ""

def errorOutput : Report → String
  | .trouble filename problem => filename.plain ++ ": " ++ problem ++ "\n"
  | .complaint text => text
  | _ => ""

end Report

structure Host where
  cwd : String
  home : String
  /-- The home directories of users by name. -/
  users : List (String × String) := []
  dialect : Dialect
  traced : Bool
  /-- Whether comments are told apart from other tokens. -/
  seesComments : Bool
  opensSources : Bool
  /-- What is made of the source of an example. -/
  compileExample : String → Outcome
  /-- What further checkers say of a file. -/
  remarks : Datum → List (Except Fault (List Remark))
  /-- What is made of a source that stands under a file name. -/
  compile : String → Datum → Outcome

structure Session where
  files : FileTree
  /-- What is ignored where neither configuration nor caller says anything about it. -/
  ignored : List Datum
  /-- Settings by the directory that they were looked for from. Those without a list of what is
  ignored share the one of the session. -/
  configured : Cache String Settings
  optionsRead : Cache (String × List String) Config.Options
  reports : Array Report

namespace Session

def initial (files : FileTree) : Session := ⟨files, Settings.initiallyIgnored, .empty, .empty, #[]⟩

def defaults (s : Session) : Settings := Settings.unconfigured.withShared s.ignored

end Session

/-- Work on a session. A failure keeps what was done before it. -/
abbrev Work := EStateM Failure Session

namespace Work

def lift {α : Type} : Except Fault α → Work α
  | .ok a => return a
  | .error e => throw (.fault e)

def report (r : Report) : Work Unit := modify fun s => { s with reports := s.reports.push r }

end Work

end ScopeLint
