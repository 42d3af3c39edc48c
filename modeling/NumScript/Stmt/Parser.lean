import NumScript.Flat.Parser
import NumScript.Flat.Resolve
import NumScript.Stmt

/-!
# NumScript.Stmt.Parser

From tokens to statements. The first token, and for an assignment also the second, decides what kind
of statement follows; nothing is ever taken back. The productions named for a kind of statement
start behind the keyword that announces it, if one does, and are given the position of the first
token.
-/

namespace NumScript

/-! ### Parts of statements -/

/-- An expression, resolved to its tree. -/
def expression (ts : List Token) : Outcome Expr :=
  (flatExpr ts).bind fun flat rest =>
    match Flat.resolve flat with
    | .ok e => .ok e rest
    | .error error => .error (.unresolved error) rest

/-- An expression and the keyword after it. -/
def condition (keyword : String) (ts : List Token) : Outcome Expr :=
  (expression ts).bind fun cond rest => (expect keyword rest).map fun _ => cond

/-- A variable declaration; without a value the variable starts at zero. -/
def declaration (p : Pos) (ts : List Token) : Outcome Stmt :=
  (expectIdent ts).bind fun name rest =>
    match rest with
    | ⟨.symbol .assign, _⟩ :: rest => (expression rest).map (.declare p name ·)
    | rest => .ok (.declare p name (.number .zero)) rest

/-- An assignment, from its variable on. -/
def assignment (p : Pos) (ts : List Token) : Outcome Stmt :=
  (expectIdent ts).bind fun name rest =>
    (expect "=" rest).bind fun _ rest => (expression rest).map (.assign p name ·)

/-- The parameters that follow the first one, and the closing parenthesis. -/
def moreParams (ts : List Token) : Outcome (List String) :=
  match ts with
  | ⟨.symbol .comma, _⟩ :: rest =>
    (expectIdent rest).andThen rest.length fun param rest' _ => (moreParams rest').map (param :: ·)
  | ts => (expect ")" ts).map fun _ => []
termination_by ts.length

/-- The parameters of a function, after the opening parenthesis. -/
def params (ts : List Token) : Outcome (List String) :=
  match ts with
  | ⟨.symbol .rparen, _⟩ :: rest => .ok [] rest
  | ts => (expectIdent ts).bind fun param rest => (moreParams rest).map (param :: ·)

/-- The name of a function and its parameters. -/
def signature (ts : List Token) : Outcome (String × List String) :=
  (expectIdent ts).bind fun name rest =>
    (expect "(" rest).bind fun _ rest => (params rest).map fun params => (name, params)

/-- The most bounds that a counting loop can have. -/
def maxBounds : Nat := 3

/-- The bounds after the `seen` first ones, up to the keyword before the body. -/
def moreBounds (seen : Nat) (ts : List Token) : Outcome (List Expr) :=
  match ts with
  | ⟨.symbol .comma, _⟩ :: rest =>
    if seen = maxBounds then .error .tooManyBounds ts
    else
      (expression rest).andThen rest.length fun bound rest' _ =>
        (moreBounds (seen + 1) rest').map (bound :: ·)
  | ts => (expect "do" ts).map fun _ => []
termination_by ts.length

/-- The variable and the bounds of a counting loop. -/
def countHead (ts : List Token) : Outcome (String × List Expr) :=
  (expectIdent ts).bind fun var rest =>
    (expect "," rest).bind fun _ rest =>
      (expression rest).bind fun bound rest =>
        (moreBounds 1 rest).map fun bounds => (var, bound :: bounds)

/-! ### Statements -/

mutual

/-- A statement. -/
def stmt (ts : List Token) : Outcome Stmt :=
  match ts with
  | ⟨.keyword .kwLocal, p⟩ :: rest => declaration p rest
  | ⟨.keyword .kwFunction, p⟩ :: rest => definition p rest
  | ⟨.keyword .kwIf, p⟩ :: rest => branch p rest
  | ⟨.keyword .kwWhile, p⟩ :: rest => loop p rest
  | ⟨.keyword .kwFor, p⟩ :: rest => count p rest
  | ⟨.ident _, p⟩ :: ⟨.symbol .assign, _⟩ :: _ => assignment p ts
  | ⟨_, p⟩ :: _ => (expression ts).map (.expr p ·)
  | [] => .error .expression []
termination_by 3 * ts.length

/-- Statements up to a token with one of the spellings `stops`, which is left. -/
def block (stops : List String) (ts : List Token) : Outcome (List Stmt) :=
  if stops.any (atMark · ts) then .ok [] ts
  else if ts.isEmpty then .error (.marks stops) []
  else (stmt ts).andThen ts.length fun s rest _ => (block stops rest).map (s :: ·)
termination_by 3 * ts.length + 1

/-- Statements up to the keyword `end`, which is taken. -/
def body (ts : List Token) : Outcome (List Stmt) :=
  (block ["end"] ts).bind fun stmts rest => (expect "end" rest).map fun _ => stmts
termination_by 3 * ts.length + 2

/-- A choice, from its condition to its end. -/
def branch (p : Pos) (ts : List Token) : Outcome Stmt :=
  (condition "then" ts).andThen ts.length fun cond rest _ =>
    (block ["elseif", "else", "end"] rest).andThen (rest.length + 1) fun stmts rest' _ =>
      (otherwise rest').map (.branch p cond stmts ·)
termination_by 3 * ts.length

/-- What follows the first body of a choice. The chain after an `elseif` is a choice of its own, and
one `end` closes them all. -/
def otherwise (ts : List Token) : Outcome (Option (List Stmt)) :=
  match ts with
  | ⟨.keyword .kwElseif, p⟩ :: rest => (branch p rest).map fun chain => some [chain]
  | ⟨.keyword .kwElse, _⟩ :: rest => (body rest).map some
  | ts => (expect "end" ts).map fun _ => none
termination_by 3 * ts.length

/-- A loop with a condition. -/
def loop (p : Pos) (ts : List Token) : Outcome Stmt :=
  (condition "do" ts).andThen ts.length fun cond rest _ => (body rest).map (.loop p cond ·)
termination_by 3 * ts.length

/-- A counting loop. -/
def count (p : Pos) (ts : List Token) : Outcome Stmt :=
  (countHead ts).andThen ts.length fun (var, bounds) rest _ =>
    (body rest).map (.count p var bounds ·)
termination_by 3 * ts.length

/-- A function definition. -/
def definition (p : Pos) (ts : List Token) : Outcome Stmt :=
  (signature ts).andThen ts.length fun (name, params) rest _ =>
    (body rest).map (.define p name params ·)
termination_by 3 * ts.length

end

/-- Statements up to the end of the tokens. -/
def statements (ts : List Token) : Outcome Program :=
  if ts.isEmpty then .ok [] []
  else (stmt ts).andThen ts.length fun s rest _ => (statements rest).map (s :: ·)
termination_by ts.length

/-- A statement from the keyword that announces it on, by the production for what follows. -/
def announced (keyword : String) (production : Pos → List Token → Outcome Stmt)
    (s : TokenStream) : Outcome Stmt :=
  (expect keyword s.tokens).bind fun _ rest => production s.pos rest

end NumScript
