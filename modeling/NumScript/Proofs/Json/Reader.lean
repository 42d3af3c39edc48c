import NumScript.Json
import NumScript.Proofs.Token.Shape

/-!
# NumScript.Proofs.Json.Reader

The grammar of JSON (RFC 8259) and a reader for it.

`DocumentText j cs` says that the characters `cs` are a text of the value `j`, by rules that follow
the grammar of the standard: blanks between the parts, strings with all their escapes, numbers
without zeros in front. A number with neither a fraction nor an exponent is a whole number, any
other one is the nearest binary64 value, which is an infinity if the number is too large. An escaped
half of a surrogate pair is no character, so a string that has one without the other half has no
value.

The reader goes through the text once, from left to right, and reads every text of the grammar as
the value that the grammar gives it (`DocumentText.read?_eq_some`). So a text has at most one value.
-/

namespace NumScript

namespace Json

/-! ### Strings -/

/-- Characters that may stand between the parts of a text. -/
def isBlankChar (c : Char) : Bool := c == ' ' || c == '\t' || c == '\n' || c == '\r'

/-- Characters that stand for themselves in a string: not the quote, the backslash or a control
character. -/
def isPlainChar (c : Char) : Bool := decide (' ' ≤ c) && c != '"' && c != '\\'

/-- What a letter behind a backslash stands for. -/
def unescape? : Char → Option Char
  | '"' => some '"'
  | '\\' => some '\\'
  | '/' => some '/'
  | 'b' => some '\x08'
  | 'f' => some '\x0c'
  | 'n' => some '\n'
  | 'r' => some '\r'
  | 't' => some '\t'
  | _ => none

/-- The number that a hexadecimal digit stands for. -/
def hexValue? (c : Char) : Option Nat :=
  if c.isDigit then some (digitValue c)
  else if 'a' ≤ c ∧ c ≤ 'f' then some (10 + (c.toNat - 'a'.toNat))
  else if 'A' ≤ c ∧ c ≤ 'F' then some (10 + (c.toNat - 'A'.toNat))
  else none

/-- The number that four hexadecimal digits stand for. -/
def codeUnit? (a b c d : Char) : Option Nat := do
  return 4096 * (← hexValue? a) + 256 * (← hexValue? b) + 16 * (← hexValue? c) + (← hexValue? d)

/-- The first halves of surrogate pairs. -/
def isHighHalf (n : Nat) : Bool := decide (0xD800 ≤ n) && decide (n < 0xDC00)

/-- The second halves of surrogate pairs. -/
def isLowHalf (n : Nat) : Bool := decide (0xDC00 ≤ n) && decide (n < 0xE000)

/-- The character of a surrogate pair. -/
def ofPair (high low : Nat) : Char :=
  Char.ofNat (0x10000 + 0x400 * (high - 0xD800) + (low - 0xDC00))

/-- The characters `cs` behind a backslash stand for the character. -/
inductive EscapeText : Char → List Char → Prop
  | letter {e c : Char} (h : unescape? e = some c) : EscapeText c [e]
  | unit {a b c d : Char} {n : Nat} (h : codeUnit? a b c d = some n) (hhigh : isHighHalf n = false)
      (hlow : isLowHalf n = false) : EscapeText (Char.ofNat n) ['u', a, b, c, d]
  | pair {a b c d e f g h : Char} {high low : Nat} (hn : codeUnit? a b c d = some high)
      (hhigh : isHighHalf high = true) (hm : codeUnit? e f g h = some low)
      (hlow : isLowHalf low = true) :
      EscapeText (ofPair high low) ['u', a, b, c, d, '\\', 'u', e, f, g, h]

/-- The characters `ts` between quotes stand for the characters `cs`. -/
inductive StringText : List Char → List Char → Prop
  | nil : StringText [] []
  | plain {c : Char} {cs ts : List Char} (hc : isPlainChar c = true) (h : StringText cs ts) :
      StringText (c :: cs) (c :: ts)
  | escape {c : Char} {es cs ts : List Char} (he : EscapeText c es) (h : StringText cs ts) :
      StringText (c :: cs) ('\\' :: (es ++ ts))

/-! ### Numbers -/

/-- Whether digits are those of a whole number: only zero itself starts with a zero. -/
def isWhole (ds : List Char) : Bool :=
  ds.all Char.isDigit && !ds.isEmpty && (ds.head? != some '0' || ds == ['0'])

/-- The characters are a point and the digits `ds`, or there are none. -/
inductive FractionText : List Char → List Char → Prop
  | none : FractionText [] []
  | digits {ds : List Char} (hds : ds.all Char.isDigit = true) (hne : ds ≠ []) :
      FractionText ds ('.' :: ds)

/-- The characters are those of an exponent, or there are none. -/
inductive ExponentText : Int → List Char → Prop
  | none : ExponentText 0 []
  | unsigned {mark : Char} {ds : List Char} (hmark : mark = 'e' ∨ mark = 'E')
      (hds : ds.all Char.isDigit = true) (hne : ds ≠ []) :
      ExponentText (natOfDigits ds) (mark :: ds)
  | signed {mark : Char} {ds : List Char} (negative : Bool) (hmark : mark = 'e' ∨ mark = 'E')
      (hds : ds.all Char.isDigit = true) (hne : ds ≠ []) :
      ExponentText (if negative then -(natOfDigits ds : Int) else natOfDigits ds)
        (mark :: (if negative then '-' else '+') :: ds)

/-- The minus of a negative number. -/
def minusChars (negative : Bool) : List Char := if negative then ['-'] else []

/-! ### Values -/

mutual

/-- The characters are those of the value. -/
inductive ValueText : Json → List Char → Prop
  | null : ValueText .null ['n', 'u', 'l', 'l']
  | boolTrue : ValueText (.bool true) ['t', 'r', 'u', 'e']
  | boolFalse : ValueText (.bool false) ['f', 'a', 'l', 's', 'e']
  | int (negative : Bool) {ds : List Char} (h : isWhole ds = true) :
      ValueText (.int (if negative then -(natOfDigits ds : Int) else natOfDigits ds))
        (minusChars negative ++ ds)
  | number (negative : Bool) {whole ds fraction exponent : List Char} {e : Int}
      (hw : isWhole whole = true) (hf : FractionText ds fraction) (he : ExponentText e exponent)
      (hne : fraction ++ exponent ≠ []) :
      ValueText (.number (Decimal.toDouble negative ⟨natOfDigits (whole ++ ds), e - ds.length⟩))
        (minusChars negative ++ (whole ++ (fraction ++ exponent)))
  | str {cs ts : List Char} (h : StringText cs ts) :
      ValueText (.str (String.ofList cs)) ('"' :: (ts ++ ['"']))
  | noItems {ws : List Char} (hws : ws.all isBlankChar = true) :
      ValueText (.arr []) ('[' :: (ws ++ [']']))
  | arr {items : List Json} {ts : List Char} (h : ItemsText items ts) :
      ValueText (.arr items) ('[' :: (ts ++ [']']))
  | noFields {ws : List Char} (hws : ws.all isBlankChar = true) :
      ValueText (.obj []) ('\x7b' :: (ws ++ ['\x7d']))
  | obj {fields : List (String × Json)} {ts : List Char} (h : FieldsText fields ts) :
      ValueText (.obj fields) ('\x7b' :: (ts ++ ['\x7d']))

/-- The characters are those of items with commas between them. -/
inductive ItemsText : List Json → List Char → Prop
  | last {j : Json} {ws ts vs : List Char} (hws : ws.all isBlankChar = true) (h : ValueText j ts)
      (hvs : vs.all isBlankChar = true) : ItemsText [j] (ws ++ (ts ++ vs))
  | cons {j : Json} {items : List Json} {ws ts vs us : List Char} (hws : ws.all isBlankChar = true)
      (h : ValueText j ts) (hvs : vs.all isBlankChar = true) (hs : ItemsText items us) :
      ItemsText (j :: items) (ws ++ (ts ++ (vs ++ ',' :: us)))

/-- The characters are those of a key, a colon and a value. -/
inductive MemberText : String × Json → List Char → Prop
  | mk {key : List Char} {j : Json} {ks ws vs ts : List Char} (hkey : StringText key ks)
      (hws : ws.all isBlankChar = true) (hvs : vs.all isBlankChar = true) (h : ValueText j ts) :
      MemberText (String.ofList key, j) ('"' :: (ks ++ '"' :: (ws ++ ':' :: (vs ++ ts))))

/-- The characters are those of fields with commas between them. -/
inductive FieldsText : List (String × Json) → List Char → Prop
  | last {field : String × Json} {ws ts vs : List Char} (hws : ws.all isBlankChar = true)
      (h : MemberText field ts) (hvs : vs.all isBlankChar = true) :
      FieldsText [field] (ws ++ (ts ++ vs))
  | cons {field : String × Json} {fields : List (String × Json)} {ws ts vs us : List Char}
      (hws : ws.all isBlankChar = true) (h : MemberText field ts)
      (hvs : vs.all isBlankChar = true) (hs : FieldsText fields us) :
      FieldsText (field :: fields) (ws ++ (ts ++ (vs ++ ',' :: us)))

end

/-- The characters are those of a value, with blanks around it. -/
inductive DocumentText : Json → List Char → Prop
  | mk {j : Json} {ws ts vs : List Char} (hws : ws.all isBlankChar = true) (h : ValueText j ts)
      (hvs : vs.all isBlankChar = true) : DocumentText j (ws ++ (ts ++ vs))

/-! ### Reading -/

/-- The text without the blanks at its start. -/
def skipBlanks (cs : List Char) : List Char := cs.dropWhile isBlankChar

/-- The first character that is no blank, and what is behind it. -/
def nextMark (cs : List Char) : Option (Char × List Char) :=
  match skipBlanks cs with
  | c :: rest => some (c, rest)
  | [] => none

/-- Goes on behind what was read, if fewer than `limit` characters are left. -/
def behind {α β : Type} (limit : Nat) (read : Option (α × List Char))
    (next : α → (rest : List Char) → rest.length < limit → Option β) : Option β :=
  match read with
  | some (a, rest) => if h : rest.length < limit then next a rest h else none
  | none => none

/-- Reads an escape, from behind the backslash on. -/
def readEscape : List Char → Option (Char × List Char)
  | 'u' :: a :: b :: c :: d :: rest =>
    match codeUnit? a b c d with
    | none => none
    | some n =>
      if isHighHalf n then
        match rest with
        | '\\' :: 'u' :: e :: f :: g :: h :: rest' =>
          match codeUnit? e f g h with
          | none => none
          | some m => if isLowHalf m then some (ofPair n m, rest') else none
        | _ => none
      else if isLowHalf n then none
      else some (Char.ofNat n, rest)
  | c :: rest => (unescape? c).map (·, rest)
  | [] => none

/-- Reads the characters of a string, from behind the opening quote on. -/
def readChars (cs : List Char) : Option (List Char × List Char) :=
  match cs with
  | [] => none
  | '"' :: rest => some ([], rest)
  | '\\' :: rest =>
    behind rest.length (readEscape rest) fun c rest' _ =>
      (readChars rest').map (Prod.map (c :: ·) id)
  | c :: rest => if isPlainChar c then (readChars rest).map (Prod.map (c :: ·) id) else none
termination_by cs.length

/-- Characters of which numbers consist. -/
def isNumberChar (c : Char) : Bool :=
  c.isDigit || c == '.' || c == 'e' || c == 'E' || c == '+' || c == '-'

/-- The number with the given sign and the given characters behind it. -/
def unsignedNumber? (negative : Bool) (cs : List Char) : Option Json :=
  let whole := cs.takeWhile Char.isDigit
  if !isWhole whole then none
  else
    match cs.dropWhile Char.isDigit with
    | [] => some (.int (if negative then -(natOfDigits whole : Int) else natOfDigits whole))
    | '.' :: fraction =>
      if startsWithDigit fraction then
        (Decimal.read? cs).map fun d => .number (d.toDouble negative)
      else none
    | _ => (Decimal.read? cs).map fun d => .number (d.toDouble negative)

/-- The number with the given characters. -/
def numberOf? : List Char → Option Json
  | '-' :: cs => unsignedNumber? true cs
  | cs => unsignedNumber? false cs

/-- Reads a number. -/
def readNumber (cs : List Char) : Option (Json × List Char) :=
  (numberOf? (cs.takeWhile isNumberChar)).map (·, cs.dropWhile isNumberChar)

theorem length_skipBlanks_le (cs : List Char) : (skipBlanks cs).length ≤ cs.length :=
  length_dropWhile_le _ cs

mutual

/-- Reads a value. -/
def readValue (cs : List Char) : Option (Json × List Char) :=
  match cs with
  | '"' :: rest => (readChars rest).map (Prod.map (fun text => .str (String.ofList text)) id)
  | '[' :: rest =>
    match nextMark rest with
    | some (']', rest') => some (.arr [], rest')
    | _ => (readItems rest).map (Prod.map .arr id)
  | '\x7b' :: rest =>
    match nextMark rest with
    | some ('\x7d', rest') => some (.obj [], rest')
    | _ => (readFields rest).map (Prod.map .obj id)
  | 'n' :: 'u' :: 'l' :: 'l' :: rest => some (.null, rest)
  | 't' :: 'r' :: 'u' :: 'e' :: rest => some (.bool true, rest)
  | 'f' :: 'a' :: 'l' :: 's' :: 'e' :: rest => some (.bool false, rest)
  | cs => readNumber cs
termination_by 3 * cs.length

/-- Reads items up to the closing bracket. -/
def readItems (cs : List Char) : Option (List Json × List Char) :=
  behind cs.length (readValue (skipBlanks cs)) fun item rest _ =>
    behind rest.length (nextMark rest) fun mark rest' _ =>
      if mark = ',' then (readItems rest').map (Prod.map (item :: ·) id)
      else if mark = ']' then some ([item], rest')
      else none
termination_by 3 * cs.length + 1
decreasing_by
  · have := length_skipBlanks_le cs
    omega
  · omega

/-- Reads a key, a colon and a value. -/
def readMember (cs : List Char) : Option ((String × Json) × List Char) :=
  match cs with
  | '"' :: body =>
    behind body.length (readChars body) fun key rest _ =>
      behind rest.length (nextMark rest) fun mark rest' _ =>
        if mark = ':' then
          (readValue (skipBlanks rest')).map (Prod.map (String.ofList key, ·) id)
        else none
  | _ => none
termination_by 3 * cs.length + 1
decreasing_by
  have := length_skipBlanks_le rest'
  simp only [List.length_cons] at *
  omega

/-- Reads fields up to the closing brace. -/
def readFields (cs : List Char) : Option (List (String × Json) × List Char) :=
  behind cs.length (readMember (skipBlanks cs)) fun field rest _ =>
    behind rest.length (nextMark rest) fun mark rest' _ =>
      if mark = ',' then (readFields rest').map (Prod.map (field :: ·) id)
      else if mark = '\x7d' then some ([field], rest')
      else none
termination_by 3 * cs.length + 2
decreasing_by
  · have := length_skipBlanks_le cs
    omega
  · omega

end

/-- The value of a text. -/
def read? (text : String) : Option Json :=
  match readValue (skipBlanks text.toList) with
  | some (j, rest) => if (skipBlanks rest).isEmpty then some j else none
  | none => none

/-! ### Blanks and marks -/

theorem skipBlanks_append {ws cs : List Char} (hws : ws.all isBlankChar = true)
    (hcs : ∀ c ∈ cs.head?, isBlankChar c = false) : skipBlanks (ws ++ cs) = cs :=
  dropWhile_append_stop hws hcs

theorem nextMark_append {ws : List Char} {c : Char} (hws : ws.all isBlankChar = true)
    (hc : isBlankChar c = false) (rest : List Char) :
    nextMark (ws ++ c :: rest) = some (c, rest) := by
  have hskip : skipBlanks (ws ++ c :: rest) = c :: rest :=
    skipBlanks_append hws (by simp [hc])
  rw [nextMark, hskip]

theorem behind_some {α β : Type} {limit : Nat} {a : α} {rest : List Char}
    {next : α → (rest : List Char) → rest.length < limit → Option β} (h : rest.length < limit) :
    behind limit (some (a, rest)) next = next a rest h := by
  rw [behind, dif_pos h]

/-! ### Strings are read -/

theorem EscapeText.readEscape_append {c : Char} {es : List Char} (h : EscapeText c es)
    (rest : List Char) : readEscape (es ++ rest) = some (c, rest) := by
  cases h with
  | @letter e c h =>
    have hne : e ≠ 'u' := by
      intro heq
      subst heq
      cases h
    simp [readEscape, h, hne]
  | unit h hhigh hlow => simp [readEscape, h, hhigh, hlow]
  | pair hn hhigh hm hlow => simp [readEscape, hn, hhigh, hm, hlow]

theorem EscapeText.length_pos {c : Char} {es : List Char} (h : EscapeText c es) :
    0 < es.length := by
  cases h <;> simp

/-- The characters of a string are read up to its closing quote. -/
theorem StringText.readChars_append {cs ts : List Char} (h : StringText cs ts)
    (rest : List Char) : readChars (ts ++ '"' :: rest) = some (cs, rest) := by
  induction h with
  | nil => rw [List.nil_append, readChars]
  | @plain c cs ts hc _ ih =>
    have hne : c ≠ '"' ∧ c ≠ '\\' := by
      simp only [isPlainChar, Bool.and_eq_true, bne_iff_ne] at hc
      exact ⟨hc.1.2, hc.2⟩
    rw [List.cons_append, readChars.eq_4 _ _ hne.1 hne.2, if_pos hc, ih]
    rfl
  | @escape c es cs ts he _ ih =>
    have hlength : (ts ++ '"' :: rest).length < (es ++ (ts ++ '"' :: rest)).length := by
      have := he.length_pos
      simp only [List.length_append]
      omega
    rw [List.cons_append, List.append_assoc, readChars, he.readEscape_append,
      behind_some hlength, ih]
    rfl

/-! ### Numbers are read -/

theorem isWhole_digits {ds : List Char} (h : isWhole ds = true) :
    ds.all Char.isDigit = true := by
  simp only [isWhole, Bool.and_eq_true] at h
  exact h.1.1

theorem isWhole_cons {ds : List Char} (h : isWhole ds = true) :
    ∃ d rest, ds = d :: rest ∧ d.isDigit = true := by
  cases ds with
  | nil => cases h
  | cons d rest =>
    have hdigits := isWhole_digits h
    rw [List.all_cons, Bool.and_eq_true] at hdigits
    exact ⟨d, rest, rfl, hdigits.1⟩

theorem ExponentText.readExponent?_eq {e : Int} {cs : List Char} (h : ExponentText e cs) :
    readExponent? cs = some e := by
  cases h with
  | none => rfl
  | @unsigned mark ds hmark hds hne =>
    cases ds with
    | nil => exact absurd rfl hne
    | cons d ds =>
      have hd : d.isDigit = true := by
        rw [List.all_cons, Bool.and_eq_true] at hds
        exact hds.1
      have hsign : d ≠ '-' ∧ d ≠ '+' := by
        constructor <;> intro heq <;> subst heq <;> exact absurd hd (by decide)
      simpa [readExponent?, hsign, hmark, hd] using hds
  | @signed mark ds negative hmark hds hne =>
    cases negative <;> simpa [readExponent?, hmark, hne] using hds

/-- An exponent starts with neither a digit nor a point. -/
theorem ExponentText.isDigit_head? {e : Int} {cs : List Char} (h : ExponentText e cs) :
    ∀ c ∈ cs.head?, c.isDigit = false ∧ c ≠ '.' := by
  have hmarks : ∀ mark : Char, mark = 'e' ∨ mark = 'E' → mark.isDigit = false ∧ mark ≠ '.' := by
    intro mark hmark
    obtain rfl | rfl := hmark <;> decide
  cases h with
  | none => simp
  | unsigned hmark => simpa using hmarks _ hmark
  | signed _ hmark => simpa using hmarks _ hmark

theorem ExponentText.ne_point_cons {e : Int} {cs : List Char} (h : ExponentText e cs)
    (rest : List Char) : cs ≠ '.' :: rest := by
  intro heq
  exact (h.isDigit_head? '.' (by rw [heq]; rfl)).2 rfl

/-- Neither a fraction nor an exponent starts with a digit. -/
theorem FractionText.isDigit_head?_append {ds fraction exponent : List Char} {e : Int}
    (hf : FractionText ds fraction) (he : ExponentText e exponent) :
    ∀ c ∈ (fraction ++ exponent).head?, c.isDigit = false := by
  cases hf with
  | none => exact fun c hc => (he.isDigit_head? c hc).1
  | digits => simp

theorem FractionText.read?_append {whole ds fraction exponent : List Char} {e : Int}
    (hw : isWhole whole = true) (hf : FractionText ds fraction) (he : ExponentText e exponent) :
    Decimal.read? (whole ++ (fraction ++ exponent)) =
      some ⟨natOfDigits (whole ++ ds), e - ds.length⟩ := by
  obtain ⟨d, rest, hcons, -⟩ := isWhole_cons hw
  have hne : whole.isEmpty = false := by rw [hcons]; rfl
  have hstop := hf.isDigit_head?_append he
  have hexponent : ∀ c ∈ exponent.head?, c.isDigit = false := fun c hc =>
    (he.isDigit_head? c hc).1
  unfold Decimal.read?
  rw [takeWhile_append_stop (isWhole_digits hw) hstop,
    dropWhile_append_stop (isWhole_digits hw) hstop]
  cases hf with
  | none =>
    have hpoint := he.ne_point_cons
    simp [hne, he.readExponent?_eq]
  | digits hds hne' =>
    simp [hne, takeWhile_append_stop hds hexponent, dropWhile_append_stop hds hexponent,
      he.readExponent?_eq]

/-- Whether a value can end before the character. -/
def isDelimiter (c : Char) : Bool := isBlankChar c || c == ',' || c == ']' || c == '\x7d'

theorem isNumberChar_of_isDelimiter {c : Char} (h : isDelimiter c = true) :
    isNumberChar c = false := by
  simp only [isDelimiter, isBlankChar, Bool.or_eq_true, beq_iff_eq] at h
  obtain (((((rfl | rfl) | rfl) | rfl) | rfl) | rfl) | rfl := h <;> decide

theorem all_isNumberChar {ds : List Char} (h : ds.all Char.isDigit = true) :
    ds.all isNumberChar = true := by
  refine List.all_eq_true.mpr fun c hc => ?_
  simp [isNumberChar, List.all_eq_true.mp h c hc]

theorem all_isNumberChar_minusChars (negative : Bool) :
    (minusChars negative).all isNumberChar = true := by
  cases negative <;> decide

theorem FractionText.all_isNumberChar {ds cs : List Char} (h : FractionText ds cs) :
    cs.all isNumberChar = true := by
  cases h with
  | none => rfl
  | digits hds => rw [List.all_cons, Json.all_isNumberChar hds]; rfl

theorem ExponentText.all_isNumberChar {e : Int} {cs : List Char} (h : ExponentText e cs) :
    cs.all isNumberChar = true := by
  cases h with
  | none => rfl
  | unsigned hmark hds =>
    obtain rfl | rfl := hmark <;> rw [List.all_cons, Json.all_isNumberChar hds] <;> rfl
  | signed negative hmark hds =>
    obtain rfl | rfl := hmark <;> cases negative <;>
      rw [List.all_cons, List.all_cons, Json.all_isNumberChar hds] <;> rfl

theorem all_isNumberChar_int (negative : Bool) {ds : List Char} (hw : isWhole ds = true) :
    (minusChars negative ++ ds).all isNumberChar = true := by
  rw [List.all_append, all_isNumberChar_minusChars, all_isNumberChar (isWhole_digits hw)]
  rfl

theorem all_isNumberChar_number (negative : Bool) {whole ds fraction exponent : List Char} {e : Int}
    (hw : isWhole whole = true) (hf : FractionText ds fraction) (he : ExponentText e exponent) :
    (minusChars negative ++ (whole ++ (fraction ++ exponent))).all isNumberChar = true := by
  rw [List.all_append, List.all_append, List.all_append, all_isNumberChar_minusChars,
    all_isNumberChar (isWhole_digits hw), hf.all_isNumberChar, he.all_isNumberChar]
  rfl

theorem numberOf?_minusChars (negative : Bool) {d : Char} (hd : d.isDigit = true)
    (cs : List Char) :
    numberOf? (minusChars negative ++ d :: cs) = unsignedNumber? negative (d :: cs) := by
  cases negative with
  | true => rfl
  | false =>
    have hne : d ≠ '-' := by
      intro heq
      subst heq
      exact absurd hd (by decide)
    simp [minusChars, numberOf?, hne]

theorem numberOf?_int (negative : Bool) {ds : List Char} (h : isWhole ds = true) :
    numberOf? (minusChars negative ++ ds) =
      some (.int (if negative then -(natOfDigits ds : Int) else natOfDigits ds)) := by
  have hdigits := List.all_eq_true.mp (isWhole_digits h)
  obtain ⟨d, rest, hcons, hd⟩ := isWhole_cons h
  rw [hcons, numberOf?_minusChars negative hd, ← hcons]
  simp [unsignedNumber?, List.takeWhile_eq_self_iff.mpr hdigits,
    List.dropWhile_eq_nil_iff.mpr hdigits, h]

theorem numberOf?_number (negative : Bool) {whole ds fraction exponent : List Char} {e : Int}
    (hw : isWhole whole = true) (hf : FractionText ds fraction) (he : ExponentText e exponent)
    (hne : fraction ++ exponent ≠ []) :
    numberOf? (minusChars negative ++ (whole ++ (fraction ++ exponent))) =
      some (.number (Decimal.toDouble negative ⟨natOfDigits (whole ++ ds), e - ds.length⟩)) := by
  have hstop := hf.isDigit_head?_append he
  have hread := FractionText.read?_append hw hf he
  obtain ⟨d, rest, hcons, hd⟩ := isWhole_cons hw
  have hsigned : numberOf? (minusChars negative ++ (whole ++ (fraction ++ exponent))) =
      unsignedNumber? negative (whole ++ (fraction ++ exponent)) := by
    rw [hcons, List.cons_append, numberOf?_minusChars negative hd]
  rw [hsigned, unsignedNumber?, takeWhile_append_stop (isWhole_digits hw) hstop,
    dropWhile_append_stop (isWhole_digits hw) hstop, hread, hw]
  cases hf with
  | none =>
    have hpoint := he.ne_point_cons
    cases exponent with
    | nil => exact absurd rfl hne
    | cons => simp
  | @digits _ hds hne' =>
    cases ds with
    | nil => exact absurd rfl hne'
    | cons d ds =>
      rw [List.all_cons, Bool.and_eq_true] at hds
      simp [startsWithDigit, hds.1]

/-- A number is read up to a character that ends it. -/
theorem readNumber_append {cs rest : List Char} {j : Json} (h : numberOf? cs = some j)
    (hcs : cs.all isNumberChar = true) (hrest : ∀ c ∈ rest.head?, isDelimiter c = true) :
    readNumber (cs ++ rest) = some (j, rest) := by
  have hstop : ∀ c ∈ rest.head?, isNumberChar c = false := fun c hc =>
    isNumberChar_of_isDelimiter (hrest c hc)
  rw [readNumber, takeWhile_append_stop hcs hstop, dropWhile_append_stop hcs hstop, h]
  rfl

/-! ### First characters -/

theorem isBlankChar_of_isDelimiter {c : Char} (h : isDelimiter c = false) :
    isBlankChar c = false := by
  simp only [isDelimiter, Bool.or_eq_false_iff] at h
  exact h.1.1.1

/-- What follows a value ends it, if it is blanks and then such a character. -/
theorem isDelimiter_head?_append {ws rest : List Char} (hws : ws.all isBlankChar = true)
    (hrest : ∀ c ∈ rest.head?, isDelimiter c = true) :
    ∀ c ∈ (ws ++ rest).head?, isDelimiter c = true := by
  cases ws with
  | nil => exact hrest
  | cons w ws =>
    rw [List.all_cons, Bool.and_eq_true] at hws
    simp [isDelimiter, hws.1]

/-- The text starts with a character that neither is a blank nor ends a value. -/
def StartsValue (ts : List Char) : Prop := ∃ c cs, ts = c :: cs ∧ isDelimiter c = false

theorem StartsValue.skipBlanks_append {ts ws : List Char} (h : StartsValue ts)
    (hws : ws.all isBlankChar = true) (rest : List Char) :
    skipBlanks (ws ++ (ts ++ rest)) = ts ++ rest := by
  obtain ⟨c, cs, rfl, hc⟩ := h
  exact Json.skipBlanks_append hws (by simp [isBlankChar_of_isDelimiter hc])

theorem StartsValue.nextMark_append_ne {ts ws : List Char} {mark : Char} (h : StartsValue ts)
    (hws : ws.all isBlankChar = true) (hmark : isDelimiter mark = true) (rest rest' : List Char) :
    nextMark (ws ++ (ts ++ rest)) ≠ some (mark, rest') := by
  obtain ⟨c, cs, rfl, hc⟩ := h
  rw [List.cons_append, nextMark_append hws (isBlankChar_of_isDelimiter hc)]
  intro heq
  obtain ⟨rfl, -⟩ := Prod.mk.inj (Option.some.inj heq)
  rw [hmark] at hc
  cases hc

/-- A number starts with a minus or a digit. -/
theorem exists_cons_of_isWhole (negative : Bool) {whole : List Char} (hw : isWhole whole = true)
    (rest : List Char) :
    ∃ c cs, minusChars negative ++ (whole ++ rest) = c :: cs ∧ (c = '-' ∨ c.isDigit = true) := by
  obtain ⟨d, ds, rfl, hd⟩ := isWhole_cons hw
  cases negative with
  | true => exact ⟨_, _, rfl, .inl rfl⟩
  | false => exact ⟨_, _, rfl, .inr hd⟩

theorem startsValue_of_isWhole (negative : Bool) {whole : List Char} (hw : isWhole whole = true)
    (rest : List Char) : StartsValue (minusChars negative ++ (whole ++ rest)) := by
  obtain ⟨c, cs, hcons, hc⟩ := exists_cons_of_isWhole negative hw rest
  refine ⟨c, cs, hcons, ?_⟩
  have hnumber : isNumberChar c = true := by
    obtain rfl | hdigit := hc
    · decide
    · simp [isNumberChar, hdigit]
  by_cases hdelimiter : isDelimiter c = true
  · rw [isNumberChar_of_isDelimiter hdelimiter] at hnumber
    cases hnumber
  · exact eq_false_of_ne_true hdelimiter

theorem ValueText.startsValue {j : Json} {ts : List Char} (h : ValueText j ts) :
    StartsValue ts := by
  cases h with
  | int negative hw => simpa using startsValue_of_isWhole negative hw []
  | number negative hw => exact startsValue_of_isWhole negative hw _
  | _ => exact ⟨_, _, rfl, by decide⟩

theorem MemberText.startsValue {field : String × Json} {ts : List Char}
    (h : MemberText field ts) : StartsValue ts := by
  cases h with
  | mk => exact ⟨_, _, rfl, by decide⟩

theorem ItemsText.nextMark_append_ne {items : List Json} {ts : List Char}
    (h : ItemsText items ts) (rest rest' : List Char) :
    nextMark (ts ++ rest) ≠ some (']', rest') := by
  cases h with
  | last hws h => simpa using h.startsValue.nextMark_append_ne hws (by decide) _ rest'
  | cons hws h => simpa using h.startsValue.nextMark_append_ne hws (by decide) _ rest'

theorem FieldsText.nextMark_append_ne {fields : List (String × Json)} {ts : List Char}
    (h : FieldsText fields ts) (rest rest' : List Char) :
    nextMark (ts ++ rest) ≠ some ('\x7d', rest') := by
  cases h with
  | last hws h => simpa using h.startsValue.nextMark_append_ne hws (by decide) _ rest'
  | cons hws h => simpa using h.startsValue.nextMark_append_ne hws (by decide) _ rest'

/-! ### Values are read -/

theorem readValue_of_minus_or_digit {c : Char} (hc : c = '-' ∨ c.isDigit = true)
    (cs : List Char) : readValue (c :: cs) = readNumber (c :: cs) := by
  have hne : ∀ letter : Char, letter ≠ '-' → letter.isDigit = false → c ≠ letter := by
    intro letter hminus hdigit heq
    subst heq
    obtain heq | hdigit' := hc
    · exact hminus heq
    · rw [hdigit] at hdigit'
      cases hdigit'
  simp [readValue, hne]

theorem readValue_noItems {cs rest : List Char} (h : nextMark cs = some (']', rest)) :
    readValue ('[' :: cs) = some (.arr [], rest) := by
  simp only [readValue, h]

theorem readValue_arr {cs : List Char} (h : ∀ rest, nextMark cs ≠ some (']', rest)) :
    readValue ('[' :: cs) = (readItems cs).map (Prod.map .arr id) := by
  rw [readValue]
  split
  · rename_i rest heq
    exact absurd heq (h rest)
  · rfl

theorem readValue_noFields {cs rest : List Char} (h : nextMark cs = some ('\x7d', rest)) :
    readValue ('\x7b' :: cs) = some (.obj [], rest) := by
  simp only [readValue, h]

theorem readValue_obj {cs : List Char} (h : ∀ rest, nextMark cs ≠ some ('\x7d', rest)) :
    readValue ('\x7b' :: cs) = (readFields cs).map (Prod.map .obj id) := by
  rw [readValue]
  split
  · rename_i rest heq
    exact absurd heq (h rest)
  · rfl

/-- Reading goes on with the mark behind an item. -/
theorem behind_nextMark {α β : Type} {limit : Nat} {a : α} {vs rest : List Char} {mark : Char}
    {next : α → Char → List Char → Option β} (hvs : vs.all isBlankChar = true)
    (hmark : isBlankChar mark = false) (hlimit : (vs ++ mark :: rest).length < limit) :
    (behind limit (some (a, vs ++ mark :: rest)) fun a rest _ =>
      behind rest.length (nextMark rest) fun mark rest' _ => next a mark rest') =
        next a mark rest := by
  rw [behind_some hlimit, nextMark_append hvs hmark, behind_some]
  simp only [List.length_append, List.length_cons]
  omega

theorem length_lt_of_startsValue {ws ts rest : List Char} (h : StartsValue ts) :
    rest.length < (ws ++ (ts ++ rest)).length := by
  obtain ⟨c, cs, rfl, -⟩ := h
  simp only [List.length_append, List.length_cons]
  omega

mutual

/-- The text of a value is read up to a character that ends it. -/
theorem ValueText.readValue_append {j : Json} {ts : List Char} (h : ValueText j ts)
    {rest : List Char} (hrest : ∀ c ∈ rest.head?, isDelimiter c = true) :
    readValue (ts ++ rest) = some (j, rest) := by
  cases h with
  | null => exact readValue.eq_4 rest
  | boolTrue => exact readValue.eq_5 rest
  | boolFalse => exact readValue.eq_6 rest
  | @int negative ds hw =>
    -- the first character tells a number from all other values
    obtain ⟨c, cs, hcons, hc⟩ := exists_cons_of_isWhole negative hw []
    rw [List.append_nil] at hcons
    have hread := readNumber_append (numberOf?_int negative hw)
      (all_isNumberChar_int negative hw) hrest
    rw [hcons, List.cons_append] at hread ⊢
    rw [readValue_of_minus_or_digit hc, hread]
  | @number negative whole ds fraction exponent e hw hf he hne =>
    obtain ⟨c, cs, hcons, hc⟩ := exists_cons_of_isWhole negative hw (fraction ++ exponent)
    have hread := readNumber_append (numberOf?_number negative hw hf he hne)
      (all_isNumberChar_number negative hw hf he) hrest
    rw [hcons, List.cons_append] at hread ⊢
    rw [readValue_of_minus_or_digit hc, hread]
  | str h =>
    rw [List.cons_append, List.append_assoc, List.singleton_append, readValue,
      h.readChars_append]
    rfl
  | noItems hws =>
    rw [List.cons_append, List.append_assoc, List.singleton_append]
    exact readValue_noItems (nextMark_append hws (by decide) rest)
  | arr h =>
    rw [List.cons_append, List.append_assoc, List.singleton_append,
      readValue_arr (h.nextMark_append_ne _), h.readItems_append rest]
    rfl
  | noFields hws =>
    rw [List.cons_append, List.append_assoc, List.singleton_append]
    exact readValue_noFields (nextMark_append hws (by decide) rest)
  | obj h =>
    rw [List.cons_append, List.append_assoc, List.singleton_append,
      readValue_obj (h.nextMark_append_ne _), h.readFields_append rest]
    rfl

/-- Items are read up to the closing bracket. -/
theorem ItemsText.readItems_append {items : List Json} {ts : List Char} (h : ItemsText items ts)
    (rest : List Char) : readItems (ts ++ ']' :: rest) = some (items, rest) := by
  cases h with
  | @last j ws ts vs hws h hvs =>
    -- the item ends before the blanks behind it, or before the bracket if there are none
    have hend := isDelimiter_head?_append hvs (by simp; decide : ∀ c ∈ (']' :: rest).head?, _)
    simp only [List.append_assoc]
    rw [readItems, h.startsValue.skipBlanks_append hws, h.readValue_append hend,
      behind_nextMark hvs (by decide) (length_lt_of_startsValue h.startsValue)]
    rfl
  | @cons j items ws ts vs us hws h hvs hs =>
    have hend := isDelimiter_head?_append hvs
      (by simp; decide : ∀ c ∈ (',' :: (us ++ ']' :: rest)).head?, _)
    simp only [List.append_assoc, List.cons_append]
    rw [readItems, h.startsValue.skipBlanks_append hws, h.readValue_append hend,
      behind_nextMark hvs (by decide) (length_lt_of_startsValue h.startsValue), if_pos rfl,
      hs.readItems_append rest]
    rfl

/-- A field is read up to a character that ends its value. -/
theorem MemberText.readMember_append {field : String × Json} {ts : List Char}
    (h : MemberText field ts) {rest : List Char}
    (hrest : ∀ c ∈ rest.head?, isDelimiter c = true) :
    readMember (ts ++ rest) = some (field, rest) := by
  cases h with
  | @mk key j ks ws vs ts hkey hws hvs h =>
    have hlength : (ws ++ ':' :: (vs ++ (ts ++ rest))).length <
        (ks ++ '"' :: (ws ++ ':' :: (vs ++ (ts ++ rest)))).length := by
      simp only [List.length_append, List.length_cons]
      omega
    rw [readMember.eq_def]
    simp only [List.cons_append, List.append_assoc]
    rw [hkey.readChars_append, behind_nextMark hws (by decide) hlength, if_pos rfl,
      h.startsValue.skipBlanks_append hvs, h.readValue_append hrest]
    rfl

/-- Fields are read up to the closing brace. -/
theorem FieldsText.readFields_append {fields : List (String × Json)} {ts : List Char}
    (h : FieldsText fields ts) (rest : List Char) :
    readFields (ts ++ '\x7d' :: rest) = some (fields, rest) := by
  cases h with
  | @last field ws ts vs hws h hvs =>
    have hend := isDelimiter_head?_append hvs (by simp; decide : ∀ c ∈ ('\x7d' :: rest).head?, _)
    simp only [List.append_assoc]
    rw [readFields, h.startsValue.skipBlanks_append hws, h.readMember_append hend,
      behind_nextMark hvs (by decide) (length_lt_of_startsValue h.startsValue)]
    rfl
  | @cons field fields ws ts vs us hws h hvs hs =>
    have hend := isDelimiter_head?_append hvs
      (by simp; decide : ∀ c ∈ (',' :: (us ++ '\x7d' :: rest)).head?, _)
    simp only [List.append_assoc, List.cons_append]
    rw [readFields, h.startsValue.skipBlanks_append hws, h.readMember_append hend,
      behind_nextMark hvs (by decide) (length_lt_of_startsValue h.startsValue), if_pos rfl,
      hs.readFields_append rest]
    rfl

end

/-- A text of the grammar is read as the value that the grammar gives it. -/
theorem DocumentText.read?_eq_some {j : Json} {text : String}
    (h : DocumentText j text.toList) : read? text = some j := by
  unfold read?
  generalize text.toList = cs at h
  cases h with
  | @mk ws ts vs hws h hvs =>
    have hblank : skipBlanks vs = [] := List.dropWhile_eq_nil_iff.mpr (List.all_eq_true.mp hvs)
    have hend := isDelimiter_head?_append hvs (by simp : ∀ c ∈ ([] : List Char).head?, _)
    rw [List.append_nil] at hend
    simp [h.startsValue.skipBlanks_append hws, h.readValue_append hend, hblank]

/-- A text has at most one value. -/
theorem DocumentText.unique {j j' : Json} {text : String} (h : DocumentText j text.toList)
    (h' : DocumentText j' text.toList) : j = j' :=
  Option.some.inj (h.read?_eq_some.symm.trans h'.read?_eq_some)

end Json

end NumScript
