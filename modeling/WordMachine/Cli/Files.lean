/-! Files: what the commands ask of them, and a tree of files that answers. -/
namespace WordMachine.Cli

/-- Access to files by path; a failure comes as the text to report. -/
structure Files (m : Type → Type) where
  readText : String → m (Except String String)
  writeBytes : String → Array UInt8 → m (Except String Unit)

inductive FileError
  | noEntry
  | notDirectory
  | isDirectory
  | nameTooLong
  | notText
  deriving DecidableEq, Repr

def FileError.message : FileError → String
  | noEntry => "No such file or directory (os error 2)"
  | notDirectory => "Not a directory (os error 20)"
  | isDirectory => "Is a directory (os error 21)"
  | nameTooLong => "File name too long (os error 36)"
  | notText => "stream did not contain valid UTF-8"

inductive Node
  | directory
  | file (content : ByteArray)

/-- Nodes by their components from the root, and the directory that relative paths start in. No
node is a link, none is protected from writing, and there is always space for more. -/
structure FileTree where
  nodes : List (List String × Node) := []
  working : List String := []

namespace FileTree

variable (t : FileTree)

/-- The root is a directory whether or not it is listed. -/
def find? (path : List String) : Option Node :=
  if path = [] then some .directory else t.nodes.lookup path

def put (path : List String) (node : Node) : FileTree :=
  { t with nodes := (path, node) :: t.nodes.filter (·.1 != path) }

/-- The directory that `name` leads to from `dir`. -/
def enter (dir : List String) (name : String) : Except FileError (List String) :=
  if name = "" ∨ name = "." then .ok dir
  else if name = ".." then .ok dir.dropLast
  else if 255 < name.utf8ByteSize then .error .nameTooLong
  else
    match t.find? (dir ++ [name]) with
    | none => .error .noEntry
    | some (.file _) => .error .notDirectory
    | some .directory => .ok (dir ++ [name])

/-- A path, with the byte that ends it, has to fit 4096 bytes. -/
def isTooLong (path : String) : Bool := 4096 ≤ path.utf8ByteSize

/-- The directory that holds the last component of a path, and that component. -/
def locate (path : String) : Except FileError (List String × String) :=
  if path = "" then .error .noEntry
  else if isTooLong path then .error .nameTooLong
  else
    let parts := (path.toList.splitOn '/').map String.ofList
    let start := if path.toList.head? = some '/' then [] else t.working
    (parts.dropLast.foldlM t.enter start).map fun dir => (dir, parts.getLast?.getD "")

/-- A name that stands for a directory and not for an entry of one. -/
def isDots (name : String) : Bool := name == "" || name == "." || name == ".."

def read (path : String) : Except FileError ByteArray :=
  match t.locate path with
  | .error e => .error e
  | .ok (dir, name) =>
    if isDots name then .error .isDirectory
    else if 255 < name.utf8ByteSize then .error .nameTooLong
    else
      match t.find? (dir ++ [name]) with
      | none => .error .noEntry
      | some .directory => .error .isDirectory
      | some (.file content) => .ok content

def readText (path : String) : Except FileError String :=
  match t.read path with
  | .error e => .error e
  | .ok content =>
    match String.fromUTF8? content with
    | some text => .ok text
    | none => .error .notText

def trimSlashes (path : String) : String :=
  String.ofList (path.toList.reverse.dropWhile (· == '/')).reverse

/-- Where a write goes. A path that ends in a separator can only name a directory. -/
def target (path : String) : Except FileError (List String) :=
  let bare := trimSlashes path
  if isTooLong path then .error .nameTooLong
  else if bare = "" ∧ path ≠ "" then .error .isDirectory
  else
    match t.locate bare with
    | .error e => .error e
    | .ok (dir, name) =>
      if isDots name ∨ path.toList.getLast? = some '/' then .error .isDirectory
      else if 255 < name.utf8ByteSize then .error .nameTooLong
      else
        match t.find? (dir ++ [name]) with
        | some .directory => .error .isDirectory
        | some (.file _) | none => .ok (dir ++ [name])

def write (path : String) (bytes : Array UInt8) : Except FileError FileTree :=
  (t.target path).map fun place => t.put place (.file (ByteArray.mk bytes))

end FileTree

/-- File access that reads and changes a tree; a failed write changes nothing. -/
def FileTree.access : Files (StateM FileTree) where
  readText path := do return ((← get).readText path).mapError FileError.message
  writeBytes path bytes := do
    match (← get).write path bytes with
    | .error e => return .error e.message
    | .ok t =>
      set t
      return .ok ()

end WordMachine.Cli
