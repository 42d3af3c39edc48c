/-!
# NumScript.CommandLine.Toolchain

Handing C text to a compiler. The compiler reads the text from its standard input, is tried once,
and its outcome is reported as it is.
-/

namespace NumScript

/-- The run of a command, with the text on its standard input. -/
structure Invocation where
  command : List String
  input : String
deriving DecidableEq, Repr

/-- The path that a command is told to write to, after the name of the compiler. -/
def Invocation.output? (call : Invocation) : Option String :=
  match call.command with
  | _ :: "-o" :: output :: _ => some output
  | _ => none

/-- What a command answered. -/
structure BuildResult where
  returncode : Int
  stdout : String
  stderr : String
deriving DecidableEq, Repr

/-- A run succeeds if its code is zero. -/
def BuildResult.ok (r : BuildResult) : Bool := r.returncode == 0

/-- The compiler of that name could not be started. -/
structure CompilerMissing where
  cc : String
deriving DecidableEq, Repr

/-- The wording of the error. -/
def CompilerMissing.message (e : CompilerMissing) : String :=
  "cannot run C compiler '" ++ e.cc ++ "'"

/-- The compilers at hand: what each of them answers, for those that can be started. -/
abbrev Toolchain := String → Option BuildResult

namespace Toolchain

/-- The compiler that is used when none is named. -/
def defaultCompiler : String := "gcc"

/-- The command that compiles the text on its standard input into the executable `output`. -/
def command (cc output : String) : List String := [cc, "-o", output, "-x", "c", "-O3", "-", "-lm"]

/-- The one attempt to compile a text, and what comes of it. -/
def build (t : Toolchain) (text output cc : String) :
    Invocation × Except CompilerMissing BuildResult :=
  (⟨command cc output, text⟩,
    match t cc with
    | some result => .ok result
    | none => .error ⟨cc⟩)

end Toolchain

end NumScript
