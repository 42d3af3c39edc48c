/-!
# NumScript.Pos

Positions in a source text. Lines and columns count from one and a column counts characters; the
position `0, 0` marks a place outside of every text.
-/

namespace NumScript

/-- A line and a column. -/
structure Pos where
  line : Int
  col : Int
deriving DecidableEq, Repr

namespace Pos

/-- The first character of a text. -/
def start : Pos := ⟨1, 1⟩

/-- The place outside of every text. -/
def nowhere : Pos := ⟨0, 0⟩

/-- The position `n` characters further on in the same line. -/
def advance (p : Pos) (n : Nat) : Pos := ⟨p.line, p.col + n⟩

/-- The first character of the next line. -/
def nextLine (p : Pos) : Pos := ⟨p.line + 1, 1⟩

/-- The position as the end of an error message. -/
def note (p : Pos) : String := " at line " ++ toString p.line ++ " col " ++ toString p.col

end Pos

end NumScript
