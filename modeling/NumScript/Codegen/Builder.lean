import NumScript.Codegen.Expr
import NumScript.Stmt

/-!
# NumScript.Codegen.Builder

The C text under construction. A builder holds the lines of the unit that is being written, and what
belongs to the whole text: the functions defined so far, their prototypes and their finished units.
It also remembers the statement being lowered, for the position of errors.

An action on a builder that fails leaves the builder as it was at the point of failure.
-/

namespace NumScript

/-- The C text under construction. -/
structure Builder where
  /-- The level of indentation of the next line. -/
  indent : Nat
  /-- The lines of the current unit. -/
  lines : List String
  /-- The functions defined so far. -/
  names : NameTable
  /-- Finished functions, in the order in which they were finished. -/
  functions : List String
  /-- Prototypes, in the order in which the functions were defined. -/
  prototypes : List String
  /-- Where the statement being lowered starts. -/
  pos : Pos

/-- A builder with nothing built. -/
def Builder.start (names : NameTable) : Builder := ⟨0, [], names, [], [], .nowhere⟩

/-- An action that extends a builder and may fail. -/
abbrev Build := EStateM CodegenError Builder

namespace Build

/-- Takes over a result, or its error. -/
def ofExcept {α : Type} : Except CodegenError α → Build α
  | .ok a => pure a
  | .error e => throw e

/-- Begins the statement at `p`. -/
def enter (p : Pos) : Build Unit := modify fun b => { b with pos := p }

/-- Adds a line to the current unit. -/
def line (text : String) : Build Unit :=
  modify fun b =>
    { b with lines := b.lines ++ [String.ofList (List.replicate (4 * b.indent) ' ') ++ text] }

/-- Performs an action one level deeper. -/
def indented (action : Build Unit) : Build Unit := do
  modify fun b => { b with indent := b.indent + 1 }
  action
  modify fun b => { b with indent := b.indent - 1 }

/-- The text of an expression of the current statement. -/
def expr (e : Expr) : Build String := do
  let b ← get
  ofExcept (e.lower b.names b.pos)

/-- The texts of expressions of the current statement, from left to right. -/
def exprs (es : List Expr) : Build (List String) := do
  let b ← get
  ofExcept (lowerArgs b.names b.pos es)

/-- Writes a unit with the given header. Its lines start afresh, and those of the unit around it are
put back when it is finished. `closing` adds a last line that returns zero. -/
def unit (header : String) (closing : Bool) (body : Build Unit) : Build String := do
  let outer ← get
  set { outer with lines := [], indent := 0 }
  line header
  indented do
    body
    if closing then line "return 0;"
  line "\x7d"
  let inner ← get
  set { inner with lines := outer.lines, indent := outer.indent }
  return "\n".intercalate inner.lines

/-- The head of a function. -/
def signature (symbol : String) (params : List String) : String :=
  let list := if params.isEmpty then "void"
    else ", ".intercalate (params.map fun param => "double " ++ safeName param)
  "double " ++ symbol ++ "(" ++ list ++ ")"

/-- Defines a function and writes its unit. It is defined before its body is written, so the body
may call it. Without a position of its own it is defined at the current statement. -/
def function (pos? : Option Pos) (name : String) (params : List String) (closing : Bool)
    (body : Build Unit) : Build String := do
  let b ← get
  let (symbol, names) ← ofExcept (b.names.define name params.length (pos?.getD b.pos))
  let head := signature symbol params
  modify fun b => { b with names := names, prototypes := b.prototypes ++ [head ++ ";"] }
  unit (head ++ " \x7b") closing body

end Build

end NumScript
