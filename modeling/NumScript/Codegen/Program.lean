import NumScript.Codegen.Stmt

/-!
# NumScript.Codegen.Program

Programs as C text: a fixed beginning, the prototypes of all functions, the functions, and the entry
unit with the statements of the program, with an empty line between these sections.
-/

namespace NumScript

/-- The beginning of every C text. -/
def preamble : String :=
  "\n".intercalate
    ["// Generated by numc", "#include <stdio.h>", "#include <math.h>", "",
     "static void print_number(double n) \x7b",
     "    if (n == (long long)n) \x7b",
     "        printf(\"%lld\\n\", (long long)n);",
     "    \x7d else \x7b",
     "        printf(\"%lf\\n\", n);",
     "    \x7d",
     "\x7d"]

namespace Build

/-- Writes the entry unit, which prints all its expressions and returns zero. -/
def entry (body : List Stmt) : Build String := unit "int main(void) \x7b" true (stmts false body)

/-- Writes the function with the given body, which returns the expression it ends in, or zero. -/
def functionOf (pos? : Option Pos) (name : String) (params : List String) (body : List Stmt) :
    Build String :=
  function pos? name params (!endsInExpr body) (stmts true body)

/-- Writes a program and yields the whole C text, functions that were there before included. -/
def program (p : Program) : Build String := do
  let main ← entry p
  let b ← get
  let prototypes := if b.prototypes.isEmpty then [] else ["\n".intercalate b.prototypes]
  return "\n\n".intercalate (preamble :: (prototypes ++ b.functions ++ [main])) ++ "\n"

end Build

/-- The C text of a program, its functions being defined in `names`. -/
def Program.toC (names : NameTable) (p : Program) : Except CodegenError String :=
  match (Build.program p).run (.start names) with
  | .ok text _ => .ok text
  | .error e _ => .error e

end NumScript
