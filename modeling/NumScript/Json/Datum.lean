import NumScript.Flat
import NumScript.Stmt.Json

/-!
# NumScript.Json.Datum

Data that may or may not have a JSON form: scalars, lists and records as JSON knows them, fixed
tuples, and the pieces of a program. There are two ways to JSON. `Datum.toJson` always succeeds: it
turns tuples into arrays and syntax trees into objects, and leaves a note in the place of anything
else. `Datum.strict` refuses whatever is not JSON already. As it prepares a datum for being laid out
from a given depth, it refuses depths that no line can have, too.
-/

namespace NumScript

/-- A key of a record. -/
inductive Key where
  | text (t : String)
  | int (n : Int)
deriving DecidableEq, Repr

/-- The text of a key in an object. -/
def Key.field : Key → String
  | .text t => t
  | .int n => toString n

/-- A datum. -/
inductive Datum where
  | null
  | bool (value : Bool)
  | int (value : Int)
  | number (value : Double)
  | str (text : String)
  | list (items : List Datum)
  | tuple (items : List Datum)
  | record (fields : List (Key × Datum))
  | pos (p : Pos)
  | item (i : Item Operand)
  | expr (e : Expr)
  | stmt (s : Stmt)

namespace Datum

/-! ### The lenient way -/

/-- The note for data without a JSON form. -/
def unserializable : Json := .str "<unserializable>"

mutual

/-- The JSON form of a datum. -/
def toJson : Datum → Json
  | .null => .null
  | .bool value => .bool value
  | .int value => .int value
  | .number value => .number value
  | .str text => .str text
  | .list items => .arr (jsonItems items)
  | .tuple items => .arr (jsonItems items)
  | .record _ => unserializable
  | .pos p => p.toJson
  | .item _ => unserializable
  | .expr e => e.toJson
  | .stmt s => s.toJson

/-- The JSON forms of the items of a list. -/
def jsonItems : List Datum → List Json
  | [] => []
  | d :: ds => d.toJson :: jsonItems ds

end

/-! ### The strict way -/

/-- Why a datum has no text. -/
inductive LayoutError where
  /-- A part is not JSON, but of the kind with this name. -/
  | notJson (kind : String)
  /-- A depth is not a signed number of 64 bits. -/
  | depthOutOfRange
  /-- The blanks before a line are too many to be counted by a signed number of 64 bits. -/
  | indentationTooLong
deriving DecidableEq, Repr

/-- The wording of the refusal. -/
def LayoutError.message : LayoutError → String
  | .notJson kind => "cannot render " ++ kind ++ " as JSON"
  | .depthOutOfRange => "cannot fit 'int' into an index-sized integer"
  | .indentationTooLong => "repeated string is too long"

/-- The signed numbers of 64 bits are those below this one, and not below its negation. -/
def wordLimit : Int := 9223372036854775808

/-- Refuses a depth that no line can have. -/
def checkDepth (depth : Int) : Except LayoutError Unit :=
  if depth < -wordLimit || wordLimit ≤ depth then .error .depthOutOfRange
  else if wordLimit ≤ 2 * depth then .error .indentationTooLong
  else .ok ()

/-- Refuses brackets at a depth that no line can have, or around items at such a depth. Brackets
without items stand together on a line that is there already. -/
def checkBrackets (depth : Int) (isEmpty : Bool) : Except LayoutError Unit :=
  if isEmpty then .ok ()
  else do
    checkDepth (depth + 1)
    checkDepth depth

mutual

/-- The datum as JSON, if it is nothing else and has a text at this depth. The first obstacle is
reported, where the items of a list or record come before the list or record itself. -/
def strict (depth : Int) : Datum → Except LayoutError Json
  | .null => return .null
  | .bool value => return .bool value
  | .int value => return .int value
  | .number value => return .number value
  | .str text => return .str text
  | .list items => do
    let items ← strictItems (depth + 1) items
    checkBrackets depth items.isEmpty
    return .arr items
  | .record fields => do
    let fields ← strictFields (depth + 1) fields
    checkBrackets depth fields.isEmpty
    return .obj fields
  | .tuple _ => .error (.notJson "tuple")
  | .pos _ => .error (.notJson "Pos")
  | .item i => .error (.notJson i.kind)
  | .expr e => .error (.notJson e.kind)
  | .stmt s => .error (.notJson s.kind)

/-- The items of a list as JSON. -/
def strictItems (depth : Int) : List Datum → Except LayoutError (List Json)
  | [] => return []
  | d :: ds => do
    let j ← d.strict depth
    return j :: (← strictItems depth ds)

/-- The fields of a record as JSON. -/
def strictFields (depth : Int) : List (Key × Datum) → Except LayoutError (List (String × Json))
  | [] => return []
  | (key, d) :: fields => do
    let j ← d.strict depth
    return (key.field, j) :: (← strictFields depth fields)

end

/-- The text of a datum that is JSON already, with its first line at the given depth. -/
def render (depth : Int) (d : Datum) : Except LayoutError String := do
  return (← d.strict depth).render depth

end Datum

end NumScript
