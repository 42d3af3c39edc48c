/-!
# NumScript.CommandLine.Path

Paths of files as text: which texts can be paths, their components, and the stem of the name they
end in.
-/

namespace NumScript

/-- Whether a text can be handed to the system as a path. The system takes a NUL for the end of the
path, so no path holds one. -/
def canBePath (path : String) : Bool := !path.toList.contains '\x00'

/-- The pieces between slashes. There is always at least one, and pieces may be empty. -/
def splitSlashes : List Char → List (List Char)
  | [] => [[]]
  | c :: cs =>
    if c = '/' then [] :: splitSlashes cs
    else
      match splitSlashes cs with
      | [] => [[c]]
      | piece :: pieces => (c :: piece) :: pieces

/-- The components of a path, empty ones included. -/
def pathComponents (path : String) : List String :=
  (splitSlashes path.toList).map String.ofList

/-- The last component that is neither empty nor the dot of the current directory; empty if there is
none. -/
def fileName (path : String) : String :=
  (((pathComponents path).filter fun c => c != "" && c != ".").getLast?).getD ""

/-- A name without its extension, which is what follows the last dot. A name whose last dot stands
at its start or at its end has no extension. -/
def nameStem (name : List Char) : List Char :=
  let extension := name.reverse.takeWhile (· != '.')
  match name.reverse.dropWhile (· != '.') with
  | _dot :: base => if base.isEmpty || extension.isEmpty then name else base.reverse
  | [] => name

/-- The name of the file at a path, without its extension. -/
def pathStem (path : String) : String := String.ofList (nameStem (fileName path).toList)

end NumScript
