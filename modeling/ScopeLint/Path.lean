import ScopeLint.Text.Lines

/-! Slash-separated paths. -/
namespace ScopeLint.Path

def cut (cs : List Char) : List Char × List Char :=
  let tail := (cs.reverse.takeWhile (· != '/')).reverse
  (cs.take (cs.length - tail.length), tail)

/-- The directory part loses its trailing slashes unless it has nothing else. -/
def dropSlashes (cs : List Char) : List Char :=
  if cs.all (· == '/') then cs else (cs.reverse.dropWhile (· == '/')).reverse

def splitLast (path : String) : String × String :=
  let (head, tail) := cut path.toList
  (String.ofList (dropSlashes head), String.ofList tail)

def base (path : String) : String := (splitLast path).2

def directory (path : String) : String := (splitLast path).1

def isAbsolute (path : String) : Bool := path.toList.head? == some '/'

/-- `b` seen from `a`; an absolute `b` stands alone. -/
def join (a b : String) : String :=
  if isAbsolute b then b
  else if a = "" || a.toList.getLast? == some '/' then a ++ b
  else a ++ "/" ++ b

/-- Components with `.` and repeated slashes left out and `..` resolved; `done` holds the ones
already passed, nearest first. -/
def resolve (absolute : Bool) (done : List String) : List String → List String
  | [] => done.reverse
  | c :: rest =>
    if c = "" ∨ c = "." then resolve absolute done rest
    else if c = ".." then
      match done with
      | [] => if absolute then resolve absolute [] rest else resolve absolute [".."] rest
      | d :: ds =>
        if d = ".." then resolve absolute (".." :: d :: ds) rest else resolve absolute ds rest
    else resolve absolute (c :: done) rest

/-- The path without needless parts. Exactly two leading slashes are kept. -/
def normal (path : String) : String :=
  let slashes := (path.toList.takeWhile (· == '/')).length
  let root := if slashes = 0 then "" else if slashes = 2 then "//" else "/"
  let parts := resolve (slashes != 0) [] (Text.split '/' path)
  let whole := root ++ Text.join "/" parts
  if whole = "" then "." else whole

def absolute (cwd path : String) : String := normal (join cwd path)

/-- The path with a home directory in place of a tilde in front and the name behind it: `home` where
there is no name, and else the one of that user. A name that no user has stands for itself. -/
def expandHome (home : String) (users : List (String × String)) (path : String) : String :=
  match path.toList with
  | '~' :: rest =>
    let name := rest.takeWhile (· != '/')
    match if name.isEmpty then some home else users.lookup (String.ofList name) with
    | some directory =>
      let start := (directory.toList.reverse.dropWhile (· == '/')).reverse
      let whole := String.ofList (start ++ rest.dropWhile (· != '/'))
      if whole = "" then "/" else whole
    | none => path
  | _ => path

end ScopeLint.Path
