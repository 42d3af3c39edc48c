import NumScript.Stmt

/-!
# NumScript.Proofs.Stmt.Listing

All statements of a program, at any depth, in the order of the text: a statement comes before those
in its bodies, and the first body of a choice before the second.
-/

namespace NumScript

mutual

/-- A statement and the statements in it. -/
def Stmt.listing : Stmt → List Stmt
  | .expr p value => [.expr p value]
  | .declare p name value => [.declare p name value]
  | .assign p name value => [.assign p name value]
  | .branch p cond body rest => .branch p cond body rest :: (listings body ++ elseListing rest)
  | .count p var bounds body => .count p var bounds body :: listings body
  | .loop p cond body => .loop p cond body :: listings body
  | .define p name params body => .define p name params body :: listings body
  | .hole p => [.hole p]

/-- Statements and the statements in them. -/
def listings : List Stmt → List Stmt
  | [] => []
  | s :: ss => s.listing ++ listings ss

/-- The statements of the second body of a choice. -/
def elseListing : Option (List Stmt) → List Stmt
  | none => []
  | some body => listings body

end

end NumScript
