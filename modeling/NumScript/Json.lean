import NumScript.Number.Text

/-!
# NumScript.Json

JSON values and their text. The text has one item of an array or field of an object per line, two
blanks of indentation per level, and keeps fields in their order. Levels count from any integer, and
those below zero are not indented. An infinity is written as a number that is too large to be read
as anything else.
-/

namespace NumScript

/-- A JSON value. Whole numbers are kept apart from binary64 ones, which always show a point or an
exponent. -/
inductive Json where
  | null
  | bool (value : Bool)
  | int (value : Int)
  | number (value : Double)
  | str (text : String)
  | arr (items : List Json)
  | obj (fields : List (String × Json))

namespace Json

/-! ### Scalars -/

/-- One character of a string. -/
def escapeChar (c : Char) : List Char :=
  if c = '\\' then ['\\', '\\']
  else if c = '"' then ['\\', '"']
  else if c = '\n' then ['\\', 'n']
  else if c = '\r' then ['\\', 'r']
  else if c = '\t' then ['\\', 't']
  else [c]

/-- The text of a string. -/
def stringText (text : String) : String :=
  String.ofList ('"' :: (text.toList.flatMap escapeChar ++ ['"']))

/-- The text of a binary64 value. -/
def numberText : Double → String
  | .infinite negative => if negative then "-1e999" else "1e999"
  | v => v.text

/-! ### Layout -/

/-- The blanks before an item at the given depth; there are none at a depth below zero. -/
def indentation (depth : Int) : String := String.ofList (List.replicate (2 * depth.toNat) ' ')

/-- Items between brackets, one per line and one level deeper than the brackets; without items the
brackets stand together. -/
def bracketed (opening closing : String) (depth : Int) (items : List String) : String :=
  if items.isEmpty then opening ++ closing
  else
    opening ++ "\n" ++ ",\n".intercalate (items.map (indentation (depth + 1) ++ ·)) ++ "\n"
      ++ indentation depth ++ closing

mutual

/-- The text of a value whose first line stands at the given depth. -/
def render (depth : Int) : Json → String
  | .null => "null"
  | .bool value => if value then "true" else "false"
  | .int value => toString value
  | .number value => numberText value
  | .str text => stringText text
  | .arr items => bracketed "[" "]" depth (renderItems (depth + 1) items)
  | .obj fields => bracketed "\x7b" "\x7d" depth (renderFields (depth + 1) fields)

/-- The texts of the items of an array. -/
def renderItems (depth : Int) : List Json → List String
  | [] => []
  | item :: items => item.render depth :: renderItems depth items

/-- The texts of the fields of an object. -/
def renderFields (depth : Int) : List (String × Json) → List String
  | [] => []
  | (key, value) :: fields =>
    (stringText key ++ ": " ++ value.render depth) :: renderFields depth fields

end

/-- The text of a value. -/
def text (j : Json) : String := j.render 0

end Json

end NumScript
