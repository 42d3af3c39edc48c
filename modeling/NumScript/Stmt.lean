import NumScript.Expr
import NumScript.Pos

/-!
# NumScript.Stmt

Statements and programs. Every statement carries the position of its first token. Like an
expression, a statement can be built by hand, so there is a hole, and a counting loop may have any
number of bounds although the language knows loops with one, two or three.
-/

namespace NumScript

/-- A statement. -/
inductive Stmt where
  /-- An expression whose value is printed, or returned by the function that it ends. -/
  | expr (pos : Pos) (value : Expr)
  /-- A new variable. -/
  | declare (pos : Pos) (name : String) (value : Expr)
  /-- A new value for a variable. -/
  | assign (pos : Pos) (name : String) (value : Expr)
  /-- A choice between two bodies, of which the second may be missing. -/
  | branch (pos : Pos) (cond : Expr) (body : List Stmt) (otherwise : Option (List Stmt))
  /-- A loop that counts in a variable, from a start up or down to a stop, by a step. -/
  | count (pos : Pos) (var : String) (bounds : List Expr) (body : List Stmt)
  /-- A loop that runs as long as a condition holds. -/
  | loop (pos : Pos) (cond : Expr) (body : List Stmt)
  /-- The definition of a function. -/
  | define (pos : Pos) (name : String) (params : List String) (body : List Stmt)
  /-- A place where a statement is still missing. -/
  | hole (pos : Pos)

/-- A program is the list of its statements. -/
abbrev Program := List Stmt

namespace Stmt

/-- Where a statement starts. -/
def pos : Stmt → Pos
  | .expr p _ => p
  | .declare p _ _ => p
  | .assign p _ _ => p
  | .branch p _ _ _ => p
  | .count p _ _ _ => p
  | .loop p _ _ => p
  | .define p _ _ _ => p
  | .hole p => p

/-- The name of a statement's kind. -/
def kind : Stmt → String
  | .expr _ _ => "ExprStmt"
  | .declare _ _ _ => "Declaration"
  | .assign _ _ _ => "Assignment"
  | .branch _ _ _ _ => "IfStmt"
  | .count _ _ _ _ => "ForStmt"
  | .loop _ _ _ => "WhileStmt"
  | .define _ _ _ _ => "FunctionDef"
  | .hole _ => "Stmt"

/-- Whether a statement is a lone expression. -/
def isExpr : Stmt → Bool
  | .expr _ _ => true
  | _ => false

end Stmt

/-! ### Equality -/

mutual

/-- Whether two statements are the same tree. -/
def Stmt.same : Stmt → Stmt → Bool
  | .expr p v, .expr p' v' => p == p' && v == v'
  | .declare p x v, .declare p' x' v' => p == p' && x == x' && v == v'
  | .assign p x v, .assign p' x' v' => p == p' && x == x' && v == v'
  | .branch p c b o, .branch p' c' b' o' =>
    p == p' && c == c' && sameStmts b b' && sameOtherwise o o'
  | .count p x bs b, .count p' x' bs' b' => p == p' && x == x' && bs == bs' && sameStmts b b'
  | .loop p c b, .loop p' c' b' => p == p' && c == c' && sameStmts b b'
  | .define p f xs b, .define p' f' xs' b' => p == p' && f == f' && xs == xs' && sameStmts b b'
  | .hole p, .hole p' => p == p'
  | _, _ => false

/-- Whether two lists hold the same trees. -/
def sameStmts : List Stmt → List Stmt → Bool
  | [], [] => true
  | a :: as, b :: bs => a.same b && sameStmts as bs
  | _, _ => false

/-- Whether two second bodies are the same. -/
def sameOtherwise : Option (List Stmt) → Option (List Stmt) → Bool
  | none, none => true
  | some as, some bs => sameStmts as bs
  | _, _ => false

end

mutual

theorem Stmt.same_iff : (a b : Stmt) → (a.same b = true ↔ a = b)
  | .expr _ _, b => by cases b <;> simp [Stmt.same]
  | .declare _ _ _, b => by cases b <;> simp [Stmt.same, and_assoc]
  | .assign _ _ _, b => by cases b <;> simp [Stmt.same, and_assoc]
  | .branch _ _ as o, b => by
    cases b <;> simp [Stmt.same, sameStmts_iff as, sameOtherwise_iff o, and_assoc]
  | .count _ _ _ as, b => by cases b <;> simp [Stmt.same, sameStmts_iff as, and_assoc]
  | .loop _ _ as, b => by cases b <;> simp [Stmt.same, sameStmts_iff as, and_assoc]
  | .define _ _ _ as, b => by cases b <;> simp [Stmt.same, sameStmts_iff as, and_assoc]
  | .hole _, b => by cases b <;> simp [Stmt.same]

theorem sameStmts_iff : (as bs : List Stmt) → (sameStmts as bs = true ↔ as = bs)
  | [], bs => by cases bs <;> simp [sameStmts]
  | a :: as, bs => by cases bs <;> simp [sameStmts, Stmt.same_iff a, sameStmts_iff as]

theorem sameOtherwise_iff : (a b : Option (List Stmt)) → (sameOtherwise a b = true ↔ a = b)
  | none, b => by cases b <;> simp [sameOtherwise]
  | some as, b => by cases b <;> simp [sameOtherwise, sameStmts_iff as]

end

instance : DecidableEq Stmt := fun a b => decidable_of_iff (a.same b = true) (a.same_iff b)

end NumScript
