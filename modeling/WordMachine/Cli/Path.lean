/-! Path names and where a build puts its output. -/
namespace WordMachine.Cli.Path

/-- A reversed path without separators and `.` components at its end. -/
def stripReversed : List Char → List Char
  | '/' :: rest => if rest = [] then ['/'] else stripReversed rest
  | '.' :: '/' :: rest => stripReversed ('/' :: rest)
  | path => path

/-- The last component, unless it is `.` or `..` or the path is empty or a root. -/
def fileName? (path : List Char) : Option (List Char) :=
  let name := ((stripReversed path.reverse).takeWhile (· != '/')).reverse
  if name = [] ∨ name = ['.'] ∨ name = ['.', '.'] then none else some name

/-- The path that leads to the last component; a root has none. -/
def parent (path : List Char) : List Char :=
  let bare := stripReversed path.reverse
  if bare = ['/'] then [] else (stripReversed (bare.dropWhile (· != '/'))).reverse

/-- A name without its extension; a dot in front begins no extension. -/
def stem (name : List Char) : List Char :=
  match (name.reverse.dropWhile (· != '.')).tail with
  | [] => name
  | before => before.reverse

def join (dir name : List Char) : List Char :=
  if dir = [] ∨ dir.getLast? = some '/' then dir ++ name else dir ++ '/' :: name

/-- Beside the input, with the extension `bin`. -/
def defaultOutput (input : String) : String :=
  let stem := (fileName? input.toList).elim "out".toList stem
  String.ofList (join (parent input.toList) (stem ++ ".bin".toList))

end WordMachine.Cli.Path
