import NumScript.Number.Shortest

/-!
# NumScript.Number.Text

Numbers as text. A finite value is written with its shortest digits, positionally when the decimal
exponent is moderate and in scientific form otherwise; `Double.read?` reads such a text, and any
other decimal text, as the nearest value.
-/

namespace NumScript

/-! ### Writing -/

/-- How a number is laid out as text. -/
structure NumberFormat where
  /-- The least exponent of the leading digit that is written positionally. -/
  positionalFrom : Int
  /-- The least larger exponent that is written in scientific form again. -/
  positionalBelow : Int
  /-- The least number of digits in a written exponent. -/
  exponentWidth : Nat

/-- Numbers from `0.0001` up to below `10 ^ 16` are written positionally, and an exponent has at
least two digits. -/
def NumberFormat.standard : NumberFormat := ⟨-4, 16, 2⟩

/-- A run of zero digits. -/
def zeros (n : Nat) : List Char := List.replicate n '0'

/-- The digits without the zeros at their end. -/
def dropTrailingZeros (ds : List Char) : List Char := (ds.reverse.dropWhile (· == '0')).reverse

/-- Positional form of the number `0.d₁d₂… * 10 ^ point`, with at least one digit on either side of
the point. -/
def positional (ds : List Char) (point : Int) : List Char :=
  if point ≤ 0 then
    '0' :: '.' :: (zeros (-point).toNat ++ ds)
  else if point < ds.length then
    ds.take point.toNat ++ '.' :: ds.drop point.toNat
  else
    ds ++ zeros (point.toNat - ds.length) ++ ['.', '0']

/-- A written exponent: its sign, then its digits padded to the given width. -/
def exponentText (width : Nat) (e : Int) : List Char :=
  let ds := natDigits e.natAbs
  (if e < 0 then '-' else '+') :: (zeros (width - ds.length) ++ ds)

/-- Scientific form of the number `0.d₁d₂… * 10 ^ point`: one digit before the point, and no point
when there is no other digit. -/
def scientific (width : Nat) (ds : List Char) (point : Int) : List Char :=
  let mantissa := match ds with
    | d :: rest@(_ :: _) => d :: '.' :: rest
    | _ => ds
  mantissa ++ 'e' :: exponentText width (point - 1)

/-- The text of a decimal that is not zero. -/
def Decimal.text (format : NumberFormat) (d : Decimal) : List Char :=
  let all := natDigits d.digits
  let ds := dropTrailingZeros all
  let point := all.length + d.exponent
  if format.positionalFrom < point ∧ point ≤ format.positionalBelow then positional ds point
  else scientific format.exponentWidth ds point

/-- The text of a finite size. -/
def Magnitude.text (format : NumberFormat) (m : Magnitude) : List Char :=
  if m.mantissa = 0 then ['0', '.', '0'] else (Decimal.shortest m).text format

/-- The text of a value. -/
def Double.text (v : Double) : String :=
  match v with
  | .finite negative magnitude =>
    String.ofList ((if negative then ['-'] else []) ++ magnitude.text .standard)
  | .infinite negative => if negative then "-inf" else "inf"
  | .nan => "nan"

/-! ### Reading -/

/-- The exponent part of a decimal text: nothing, or `e`, a sign that may be left out, and
digits. -/
def readExponent? : List Char → Option Int
  | [] => some 0
  | mark :: cs =>
    let (negative, ds) := match cs with
      | '-' :: ds => (true, ds)
      | '+' :: ds => (false, ds)
      | ds => (false, ds)
    if (mark == 'e' || mark == 'E') && !ds.isEmpty && ds.all Char.isDigit then
      some (if negative then -(natOfDigits ds : Int) else natOfDigits ds)
    else
      none

/-- Reads digits, of which some may follow a point, and an exponent. -/
def Decimal.read? (cs : List Char) : Option Decimal :=
  let whole := cs.takeWhile Char.isDigit
  let afterWhole := cs.dropWhile Char.isDigit
  let (fraction, rest) := match afterWhole with
    | '.' :: r => (r.takeWhile Char.isDigit, r.dropWhile Char.isDigit)
    | r => ([], r)
  if whole.isEmpty && fraction.isEmpty then none
  else (readExponent? rest).map fun e => ⟨natOfDigits (whole ++ fraction), e - fraction.length⟩

/-- Reads a text without a sign, giving it the sign `negative`. -/
def Double.readUnsigned? (negative : Bool) (cs : List Char) : Option Double :=
  if cs = ['i', 'n', 'f'] then some (.infinite negative)
  else if cs = ['n', 'a', 'n'] then some .nan
  else (Decimal.read? cs).map (Decimal.toDouble negative)

/-- The value nearest to a decimal text, or the infinity or not-a-number that it names. -/
def Double.read? (text : String) : Option Double :=
  match text.toList with
  | '-' :: cs => readUnsigned? true cs
  | cs => readUnsigned? false cs

end NumScript
