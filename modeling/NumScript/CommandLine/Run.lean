import NumScript.CommandLine.FileTree
import NumScript.CommandLine.Options
import NumScript.CommandLine.Toolchain
import NumScript.Source
import NumScript.Stmt.Json

/-!
# NumScript.CommandLine.Run

The command as a whole, as a function: from its arguments and what it can learn of its surroundings
to what it prints, writes and starts.

What is wrong with the arguments, the input file or the program is reported. The command breaks off
without a report where it is handed a text that cannot be a path, and where its own work is at
fault: a flat expression of the parser that denotes no tree, or a syntax tree that cannot be
lowered.
-/

namespace NumScript

/-- What the command can learn of its surroundings. -/
structure Host where
  /-- The content of a file. -/
  read : String → Except ReadFault ByteArray
  /-- Whether a file can be written in the working directory. -/
  canWrite : String → Bool
  /-- The compilers at hand. -/
  toolchain : Toolchain

/-- The files of a tree and the given compilers as surroundings. -/
def FileTree.host (t : FileTree) (toolchain : Toolchain) : Host := ⟨t.read, t.canWrite, toolchain⟩

/-- What the command does. -/
structure Report where
  /-- The exit code. -/
  code : Nat
  stdout : String
  stderr : String
  /-- The name and the text of a file that it writes. -/
  written : Option (String × String)
  /-- The compilers that it starts, or tries to. -/
  calls : List Invocation
deriving DecidableEq, Repr

namespace Report

/-- Prints a text and succeeds. -/
def print (text : String) : Report := ⟨0, text, "", none, []⟩

/-- Complains on one line and fails with the given code. -/
def complain (code : Nat) (message : String) : Report :=
  ⟨code, "", "numc: " ++ message ++ "\n", none, []⟩

end Report

/-- Why the command breaks off without a report. -/
inductive Breakdown where
  /-- The input file is named by a text with a NUL. -/
  | notPath
  /-- The parser made a flat expression that denotes no tree. -/
  | unresolved (error : ResolveError)
  /-- The parser made a tree that cannot be lowered, and no place in the program is to blame. -/
  | unlowered (error : CodegenError)
deriving DecidableEq, Repr

namespace Breakdown

/-- The wording of a breakdown. -/
def message : Breakdown → String
  | .notPath => "embedded null byte"
  | .unresolved error => error.message
  | .unlowered error => error.message

end Breakdown

/-- Reports what is wrong with a source text. -/
def SourceError.complaint (e : SourceError) : Except Breakdown Report :=
  match e with
  | .grammatical ⟨.unresolved error, _, _⟩ => .error (.unresolved error)
  | e => .ok (.complain 1 ("parse error: " ++ e.report))

/-- Reports what is wrong with a program. -/
def CodegenError.complaint (e : CodegenError) : Except Breakdown Report :=
  match e.pos? with
  | some _ => .ok (.complain 1 ("error: " ++ e.report))
  | none => .error (.unlowered e)

/-- The help text. -/
def usage : String :=
  "\n".intercalate
    ["numc [OPTIONS] FILE",
     "",
     "Compile a numc program to a native executable.",
     "",
     "Options:",
     "  -o, --output FILE     Name of the executable (default: input file stem)",
     "  -i, --intermediates   Keep the generated C source as <stem>.c",
     "  --cc CC               C compiler to invoke (default: gcc)",
     "  --stop-at PHASE       Stop after phase and print its result: parse, codegen",
     "  -h, --help            Show this help message",
     ""]

/-- Why the file at a path cannot be read. -/
def ReadFault.message (path : String) : ReadFault → String
  | .notFound => "No such file or directory"
  | .refused code reason =>
    "[Errno " ++ toString code ++ "] " ++ reason ++ ": " ++ quoted path

/-- The source text in a file, or why there is none. -/
def Host.readSource (host : Host) (path : String) : Except String String :=
  match host.read path with
  | .error fault => .error (path ++ ": " ++ fault.message path)
  | .ok content =>
    match String.fromUTF8? content with
    | some source => .ok source
    | none => .error (path ++ ": invalid utf-8")

/-- Compiles a C text with the compiler of the options, having written the file `written`. -/
def Host.build (host : Host) (o : Options) (text : String) (written : Option (String × String)) :
    Report :=
  let (invocation, outcome) := host.toolchain.build text o.outputName o.cc
  let report : Report := match outcome with
    | .error e => .complain 1 ("error: " ++ e.message)
    | .ok result =>
      if result.ok then .print result.stdout
      else
        let complaint := Report.complain 1 "program compilation failed"
        { complaint with stderr := complaint.stderr ++ result.stderr }
  { report with written := written, calls := [invocation] }

/-- Compiles a program as far as the options ask. -/
def Host.compileProgram (host : Host) (o : Options) (program : Program) :
    Except Breakdown Report :=
  if o.stopAt = some .parse then .ok (.print (program.toJson.text ++ "\n"))
  else
    match program.toC (.empty NameTable.counting) with
    | .error e => e.complaint
    | .ok text =>
      if o.stopAt = some .codegen then .ok (.print text)
      else if o.keepIntermediate then
        if host.canWrite o.intermediateName then
          .ok (host.build o text (some (o.intermediateName, text)))
        else
          .ok (.complain 1 ("cannot write '" ++ o.intermediateName ++ "'"))
      else .ok (host.build o text none)

/-- Performs a compilation. The name of the intermediate file is made from that of the input file,
so it can be a path too. -/
def Host.run (host : Host) (o : Options) : Except Breakdown Report :=
  if canBePath o.inputFile then
    match host.readSource o.inputFile with
    | .error message => .ok (.complain 1 message)
    | .ok source =>
      match parse source with
      | .error e => e.complaint
      | .ok program => host.compileProgram o program
  else .error .notPath

/-- What the arguments amount to: options to compile with, or a report at once. -/
def Request.settle : Except UsageError Request → Except Report Options
  | .error e => .error (.complain 2 e.message)
  | .ok .help => .error (.print usage)
  | .ok (.compile o) => .ok o

/-- Performs the command with the given arguments. -/
def Host.perform (host : Host) (arguments : List String) : Except Breakdown Report :=
  match Request.settle (Request.ofArguments arguments) with
  | .error report => .ok report
  | .ok o => host.run o

/-! ### Files -/

/-- The files after a report has written its own. -/
def FileTree.afterWriting (t : FileTree) (r : Report) : FileTree :=
  match r.written with
  | some (name, text) => t.write name text.toUTF8
  | none => t

/-- The files after a compiler has run. What it makes of its input, if anything, goes to the path
that it is told. -/
def FileTree.afterCall (product : Invocation → Option ByteArray) (t : FileTree)
    (call : Invocation) : FileTree :=
  match call.output?, product call with
  | some output, some executable => t.write output executable
  | _, _ => t

/-- The files after a report has been carried out: it writes its own file, and then the compilers
that it starts write theirs. -/
def FileTree.after (t : FileTree) (product : Invocation → Option ByteArray) (r : Report) :
    FileTree :=
  r.calls.foldl (afterCall product) (t.afterWriting r)

end NumScript
