import NumScript.Text.Visible

/-!
# NumScript.Text.Quoted

The form in which a message quotes a piece of text. The quote is `'`, or `"` for a text that holds
`'` and no `"`. The backslash and the quote in use are escaped, line feed, carriage return and tab
have their usual short escapes, and any other character without a visible form is written by its
code in hexadecimal.
-/

namespace NumScript

/-- The digits of `n` in lower-case hexadecimal, padded to `width`. -/
def hexText (width n : Nat) : List Char :=
  let ds := Nat.toDigits 16 n
  List.replicate (width - ds.length) '0' ++ ds

/-- A character by its code: two, four or eight digits, as few as can hold it. -/
def codeEscape (c : Char) : List Char :=
  let n := c.toNat
  if n < 0x100 then '\\' :: 'x' :: hexText 2 n
  else if n < 0x10000 then '\\' :: 'u' :: hexText 4 n
  else '\\' :: 'U' :: hexText 8 n

/-- One character of a quoted text. -/
def quoteChar (quote c : Char) : List Char :=
  if c = quote ∨ c = '\\' then ['\\', c]
  else if c = '\n' then ['\\', 'n']
  else if c = '\r' then ['\\', 'r']
  else if c = '\t' then ['\\', 't']
  else if isVisible c then [c]
  else codeEscape c

/-- The quote that surrounds a text. -/
def quoteFor (cs : List Char) : Char := if '\'' ∈ cs ∧ '"' ∉ cs then '"' else '\''

/-- A text as a message quotes it. -/
def quoted (text : String) : String :=
  let quote := quoteFor text.toList
  String.ofList (quote :: (text.toList.flatMap (quoteChar quote) ++ [quote]))

end NumScript
