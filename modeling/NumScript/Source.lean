import NumScript.Codegen.Program
import NumScript.Stmt.Parser
import NumScript.Token.Lexer

/-!
# NumScript.Source

Source texts: parsing them into programs and compiling them to C.
-/

namespace NumScript

/-- Why a text is not a program. -/
inductive SourceError where
  | lexical (error : LexError)
  | grammatical (error : ParseError)
deriving DecidableEq, Repr

/-- Why a text cannot be compiled. -/
inductive CompileError where
  | source (error : SourceError)
  | codegen (error : CodegenError)
deriving DecidableEq, Repr

/-! ### Reports -/

/-- The wording of a lexical error with its position. -/
def LexError.report (e : LexError) : String := e.cause.message ++ e.pos.note

/-- The wording of a grammatical error with its position. What is wrong with a flat expression as a
whole has none. -/
def ParseError.report (e : ParseError) : String :=
  match e.cause with
  | .unresolved error => error.message
  | _ => e.message ++ e.pos.note

/-- The wording of an error with its position. -/
def SourceError.report : SourceError → String
  | .lexical e => e.report
  | .grammatical e => e.report

/-- The wording of an error with its position, if it has one. -/
def CodegenError.report (e : CodegenError) : String :=
  match e.pos? with
  | some p => e.message ++ p.note
  | none => e.message

/-! ### Programs -/

/-- The program that a text denotes. -/
def parse (source : String) : Except SourceError Program :=
  match lex source with
  | .error e => .error (.lexical e)
  | .ok stream =>
    match ((statements stream.tokens).settle stream.finish).1 with
    | .error e => .error (.grammatical e)
    | .ok program => .ok program

/-- The C text of the program that a text denotes. -/
def compile (source : String) : Except CompileError String :=
  match parse source with
  | .error e => .error (.source e)
  | .ok program =>
    match program.toC (.empty NameTable.counting) with
    | .error e => .error (.codegen e)
    | .ok text => .ok text

end NumScript
