import NumScript.Json
import NumScript.Stmt

/-!
# NumScript.Stmt.Json

Syntax trees as JSON: every node is an object that names its kind in its first field.
-/

namespace NumScript

/-- A position as an object. -/
def Pos.toJson (p : Pos) : Json := .obj [("line", .int p.line), ("col", .int p.col)]

/-- A node of the given kind. -/
def jsonNode (kind : String) (fields : List (String × Json)) : Json :=
  .obj (("_type", .str kind) :: fields)

/-! ### Expressions -/

mutual

/-- An expression as an object. -/
def Expr.toJson : Expr → Json
  | .number value => jsonNode "Number" [("value", .number value)]
  | .ident name => jsonNode "Ident" [("name", .str name)]
  | .call name args => jsonNode "Call" [("name", .str name), ("args", .arr (exprItems args))]
  | .binary op left right =>
    jsonNode op.kind [("op", .str op.text), ("left", left.toJson), ("right", right.toJson)]
  | .pair left right =>
    jsonNode "BinaryOp" [("op", .str ""), ("left", left.toJson), ("right", right.toJson)]
  | .hole => jsonNode "<unknown expr>" []

/-- Expressions as the items of an array. -/
def exprItems : List Expr → List Json
  | [] => []
  | e :: es => e.toJson :: exprItems es

end

theorem exprItems_eq_map (es : List Expr) : exprItems es = es.map Expr.toJson := by
  induction es with
  | nil => rfl
  | cons e es ih => simp [exprItems, ih]

/-! ### Statements -/

mutual

/-- A statement as an object. -/
def Stmt.toJson : Stmt → Json
  | .expr p value => jsonNode "ExprStmt" [("pos", p.toJson), ("expr", value.toJson)]
  | .declare p name value =>
    jsonNode "Declaration" [("pos", p.toJson), ("name", .str name), ("value", value.toJson)]
  | .assign p name value =>
    jsonNode "Assignment" [("pos", p.toJson), ("name", .str name), ("value", value.toJson)]
  | .branch p cond body otherwise =>
    jsonNode "IfStmt" [("pos", p.toJson), ("cond", cond.toJson), ("body", .arr (stmtItems body)),
      ("else_body", otherwiseJson otherwise)]
  | .count p var bounds body =>
    jsonNode "ForStmt" [("pos", p.toJson), ("var", .str var),
      ("bounds", .arr (bounds.map Expr.toJson)), ("body", .arr (stmtItems body))]
  | .loop p cond body =>
    jsonNode "WhileStmt" [("pos", p.toJson), ("cond", cond.toJson),
      ("body", .arr (stmtItems body))]
  | .define p name params body =>
    jsonNode "FunctionDef" [("pos", p.toJson), ("name", .str name),
      ("params", .arr (params.map .str)), ("body", .arr (stmtItems body))]
  | .hole p => jsonNode "Stmt" [("pos", p.toJson)]

/-- Statements as the items of an array. -/
def stmtItems : List Stmt → List Json
  | [] => []
  | s :: ss => s.toJson :: stmtItems ss

/-- The second body of a choice: an array, or `null` when there is none. -/
def otherwiseJson : Option (List Stmt) → Json
  | none => .null
  | some body => .arr (stmtItems body)

end

theorem stmtItems_eq_map (ss : List Stmt) : stmtItems ss = ss.map Stmt.toJson := by
  induction ss with
  | nil => rfl
  | cons s ss ih => simp [stmtItems, ih]

/-- A program as an array. -/
def Program.toJson (program : Program) : Json := .arr (program.map Stmt.toJson)

end NumScript
