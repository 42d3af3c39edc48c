import NumScript.CommandLine.Path

/-!
# NumScript.CommandLine.Options

The options of a compilation, and how they are read from the arguments of the command. Arguments are
read from left to right and the first one at fault ends the reading; only then is it checked that a
file was named and that the phase to stop at exists.
-/

namespace NumScript

/-! ### Options -/

/-- A phase after which the compilation can stop. -/
inductive Phase where
  | parse
  | codegen
deriving DecidableEq, Repr

namespace Phase

/-- The name of a phase. -/
def text : Phase → String
  | .parse => "parse"
  | .codegen => "codegen"

/-- The phase with a given name. -/
def ofText? (text : String) : Option Phase := [Phase.parse, .codegen].find? (·.text == text)

end Phase

/-- What to compile and where the results go. -/
structure Options where
  /-- The file with the source text. -/
  inputFile : String
  /-- The name of the executable, if it was given. -/
  output : Option String
  /-- Whether the C text is written to a file as well. -/
  keepIntermediate : Bool
  /-- The C compiler. -/
  cc : String
  /-- Where to stop, if not at the end. -/
  stopAt : Option Phase
deriving DecidableEq, Repr

namespace Options

/-- The name of the input file without directories and extension. -/
def stem (o : Options) : String := pathStem o.inputFile

/-- The name of the executable. -/
def outputName (o : Options) : String := o.output.getD o.stem

/-- The name of the file for the C text. -/
def intermediateName (o : Options) : String := o.stem ++ ".c"

end Options

/-! ### Arguments -/

/-- What the arguments ask for. -/
inductive Request where
  | help
  | compile (options : Options)
deriving DecidableEq, Repr

/-- What is wrong with the arguments. -/
inductive UsageError where
  /-- The last argument is a flag that needs another one. -/
  | missingValue (flag : String)
  | unknownFlag (flag : String)
  /-- A second file. -/
  | unexpected (argument : String)
  | missingFile
  | unknownPhase (phase : String)
deriving DecidableEq, Repr

/-- The wording of a usage error. -/
def UsageError.message : UsageError → String
  | .missingValue flag => flag ++ " requires an argument"
  | .unknownFlag flag => "unknown flag '" ++ flag ++ "'"
  | .unexpected argument => "unexpected argument '" ++ argument ++ "'"
  | .missingFile => "missing file argument"
  | .unknownPhase phase => "unknown phase '" ++ phase ++ "'"

/-- The options as far as they have been read. An input file that was not named yet is the empty
text, so an empty argument names none. -/
structure Draft where
  inputFile : String
  output : Option String
  keepIntermediate : Bool
  cc : String
  stopAt : Option String
deriving DecidableEq, Repr

namespace Draft

/-- The options before any argument is read. -/
def start : Draft := ⟨"", none, false, "gcc", none⟩

/-- What the value after a flag does, for a flag that needs one. -/
def setting? (d : Draft) (flag : String) : Option (String → Draft) :=
  if flag = "-o" ∨ flag = "--output" then some fun value => { d with output := some value }
  else if flag = "--cc" then some fun value => { d with cc := value }
  else if flag = "--stop-at" then some fun value => { d with stopAt := some value }
  else none

/-- The finished options. -/
def finish (d : Draft) : Except UsageError Options :=
  if d.inputFile = "" then .error .missingFile
  else
    match d.stopAt with
    | none => .ok ⟨d.inputFile, d.output, d.keepIntermediate, d.cc, none⟩
    | some name =>
      match Phase.ofText? name with
      | some phase => .ok ⟨d.inputFile, d.output, d.keepIntermediate, d.cc, some phase⟩
      | none => .error (.unknownPhase name)

end Draft

/-- Whether an argument is a flag. -/
def isFlag (argument : String) : Bool := argument.toList.head? == some '-'

/-- Reads the remaining arguments. -/
def readArguments (d : Draft) : List String → Except UsageError Request
  | [] => (Draft.finish d).map .compile
  | argument :: rest =>
    if argument = "--help" ∨ argument = "-h" then .ok .help
    else
      match d.setting? argument with
      | some set =>
        match rest with
        | [] => .error (.missingValue argument)
        | value :: rest => readArguments (set value) rest
      | none =>
        if argument = "-i" ∨ argument = "--intermediates" then
          readArguments { d with keepIntermediate := true } rest
        else if isFlag argument then .error (.unknownFlag argument)
        else if d.inputFile = "" then readArguments { d with inputFile := argument } rest
        else .error (.unexpected argument)

/-- What the arguments of the command ask for. -/
def Request.ofArguments (arguments : List String) : Except UsageError Request :=
  readArguments .start arguments

end NumScript
