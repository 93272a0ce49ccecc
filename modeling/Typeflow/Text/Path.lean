import Typeflow.Text.Chars

/-! File paths: a leading slash is the root, runs of slashes separate components, and a slash after
the last name adds an empty component. -/
namespace Typeflow.Text

/-- A component of a path, with the text of the path up to its end. -/
structure Component where
  name : String
  upTo : String
  deriving DecidableEq, Repr

/-- The components after the root; `before` is the text passed so far and `current` the open name,
both reversed. -/
def namesFrom (before current : List Char) : List Char → List Component
  | [] =>
    if current.isEmpty then [] else [⟨String.ofList current.reverse, String.ofList before.reverse⟩]
  | '/' :: rest =>
    let more := namesFrom ('/' :: before) [] rest
    if current.isEmpty then more
    else ⟨String.ofList current.reverse, String.ofList before.reverse⟩ :: more
  | c :: rest => namesFrom (c :: before) (c :: current) rest

def isAbsolute (path : String) : Bool := (chars path).head? == some '/'

def endsInSlash (path : String) : Bool := (chars path).getLast? == some '/'

/-- The components below the root, outermost first. -/
def components (path : String) : List Component :=
  let names := namesFrom [] [] (chars path)
  if endsInSlash path && !names.isEmpty then names ++ [⟨"", path⟩] else names

/-- The last component; empty for a root or an empty path. -/
def fileName (path : String) : String := ((components path).getLast?.map (·.name)).getD ""

/-- The path without its last component. The parent of a root is the root. -/
def parentPath (path : String) : String :=
  match (components path).reverse with
  | [] => path
  | [_] => if isAbsolute path then "/" else ""
  | _ :: parent :: _ => parent.upTo

/-- Puts a relative path below a directory; an absolute path stays as it is. -/
def joinPath (dir path : String) : String :=
  if isAbsolute path || dir.isEmpty then path
  else if (fileName dir).isEmpty then dir ++ path
  else dir ++ "/" ++ path

/-- A name up to its last dot. A name whose only dot is its first character stays whole, and so
do `.` and `..`. -/
def stem (name : String) : String :=
  if name = ".." then name
  else
    let fromLast := name.toList.reverse.dropWhile (· ≠ '.')
    match fromLast with
    | _ :: c :: rest => String.ofList (c :: rest).reverse
    | _ => name

end Typeflow.Text
