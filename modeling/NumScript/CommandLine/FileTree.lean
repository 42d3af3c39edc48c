import NumScript.CommandLine.Path

/-!
# NumScript.CommandLine.FileTree

The files of a system and the directory that is worked in. A path is followed component by
component, from the root if it starts with a slash and from the working directory otherwise: an
empty component or a single dot stays where it is, two dots go up, and only a directory can be gone
into. Above the root is the root.
-/

namespace NumScript

/-! ### Reading errors -/

/-- Why a file cannot be read. -/
inductive ReadFault where
  | notFound
  /-- The system refuses, with its number and wording for the reason. -/
  | refused (code : Nat) (reason : String)
deriving DecidableEq, Repr

namespace ReadFault

/-- A component that has others below it in a path is a file. -/
def notDirectory : ReadFault := .refused 20 "Not a directory"

/-- The path names a directory. -/
def isDirectory : ReadFault := .refused 21 "Is a directory"

/-- A component of the path, or the whole path, is too long. -/
def nameTooLong : ReadFault := .refused 36 "File name too long"

end ReadFault

/-! ### Trees -/

/-- A file or a directory. -/
inductive FileNode where
  | file (content : ByteArray)
  | dir

/-- Files and directories, with the components of their paths from the root, and the path of the
working directory. The working directory and the directories on the way to an entry need not be
listed. -/
structure FileTree where
  entries : List (List String × FileNode)
  cwd : List String

namespace FileTree

/-- What is at a path from the root, if anything. -/
def node? (t : FileTree) (path : List String) : Option FileNode :=
  match t.entries.find? (·.1 == path) with
  | some (_, node) => some node
  | none =>
    if path.isPrefixOf t.cwd || t.entries.any (fun entry => path.isPrefixOf entry.1) then some .dir
    else none

/-- Whether there is a directory at a path from the root. -/
def isDir (t : FileTree) (path : List String) : Bool :=
  match t.node? path with
  | some .dir => true
  | _ => false

/-- The tree with a file at a path from the root. -/
def put (t : FileTree) (path : List String) (content : ByteArray) : FileTree :=
  { t with entries := t.entries.filter (·.1 != path) ++ [(path, .file content)] }

/-! ### Following a path -/

/-- The longest name that a file can have, in bytes. -/
def maxName : Nat := 255

/-- The longest path that can be followed, in bytes. -/
def maxPath : Nat := 4095

/-- Whether a name has no meaning of its own in a path. -/
def isHere (name : String) : Bool := name == "" || name == "."

/-- Goes from the place `path` to the component `name` below it. -/
def enter (t : FileTree) (path : List String) (name : String) : Except ReadFault (List String) :=
  match t.node? path with
  | none => .error .notFound
  | some (.file _) => .error .notDirectory
  | some .dir =>
    if isHere name then .ok path
    else if name = ".." then .ok path.dropLast
    else if maxName < name.utf8ByteSize then .error .nameTooLong
    else if (t.node? (path ++ [name])).isSome then .ok (path ++ [name])
    else .error .notFound

/-- Goes from a place through all the given components. -/
def walk (t : FileTree) (path : List String) : List String → Except ReadFault (List String)
  | [] => .ok path
  | name :: names =>
    match t.enter path name with
    | .ok path => t.walk path names
    | .error fault => .error fault

/-- Where a path starts. -/
def origin (t : FileTree) (path : String) : List String :=
  if path.toList.head? == some '/' then [] else t.cwd

/-- The place that a path leads to. The empty text leads nowhere. -/
def lookup (t : FileTree) (path : String) : Except ReadFault (List String) :=
  if path = "" then .error .notFound
  else if maxPath < path.utf8ByteSize then .error .nameTooLong
  else t.walk (t.origin path) (pathComponents path)

/-! ### Reading and writing -/

/-- The content of the file at a path. -/
def read (t : FileTree) (path : String) : Except ReadFault ByteArray :=
  match t.lookup path with
  | .error fault => .error fault
  | .ok place =>
    match t.node? place with
    | some (.file content) => .ok content
    | some .dir => .error .isDirectory
    | none => .error .notFound

/-- Whether a file of this name can be written in the directory `dir`: over another file, or where
there is nothing yet. -/
def canHold (t : FileTree) (dir : List String) (name : String) : Bool :=
  t.isDir dir && !isHere name && name != ".." && name.utf8ByteSize ≤ maxName &&
    !t.isDir (dir ++ [name])

/-- The place of the file that is opened for writing at a path. -/
def target? (t : FileTree) (path : String) : Option (List String) :=
  if maxPath < path.utf8ByteSize then none
  else
    match t.walk (t.origin path) (pathComponents path).dropLast, (pathComponents path).getLast? with
    | .ok dir, some name => if t.canHold dir name then some (dir ++ [name]) else none
    | _, _ => none

/-- Whether a file can be written at a path. -/
def canWrite (t : FileTree) (path : String) : Bool := (t.target? path).isSome

/-- The tree after writing a file at a path, if that is possible. -/
def write (t : FileTree) (path : String) (content : ByteArray) : FileTree :=
  match t.target? path with
  | some place => t.put place content
  | none => t

end FileTree

end NumScript
