import NumScript.Proofs.Codegen.Units

/-!
# NumScript.Proofs.Codegen.Returns

Which expressions a unit returns and which it prints. A unit returns with its last line and nowhere
else: a function returns the expression that its body ends in, or zero, and the entry unit returns
zero. All other expressions of the unit are printed, one line for each, in the order of the source,
also those in loops and choices (`compile_returns`).

Lines are told apart by how their texts start (`isReturn`, `isPrint`). No variable can be mistaken
for one of these words, since both of them are reserved.
-/

namespace NumScript

/-! ### Lines that return and lines that print -/

/-- Whether the text of a line starts in the given way. -/
def opensWith (start line : String) : Bool := start.toList.isPrefixOf (lineText line)

/-- Whether a line returns from its unit. -/
def isReturn (line : String) : Bool := opensWith "return " line

/-- Whether a line prints a number. -/
def isPrint (line : String) : Bool := opensWith "print_number(" line

section Lines

variable {text start : String} {c : Char}

theorem opensWith_line (h : text.toList.head? = some c) (hblank : c ≠ ' ') (start : String)
    (level : Nat) :
    opensWith start (indentation level ++ text) = start.toList.isPrefixOf text.toList := by
  rw [opensWith, (blanks_of_line h hblank level).2]

/-- A line whose text has something in front. -/
theorem opensWith_append (h : start.toList.head? = some c) (hblank : c ≠ ' ') (text : String)
    (level : Nat) : opensWith start (indentation level ++ (start ++ text)) = true := by
  rw [opensWith_line (head?_append_of_eq h text) hblank, List.isPrefixOf_iff_prefix,
    String.toList_append]
  exact List.prefix_append _ _

/-- A line that starts with another character. -/
theorem opensWith_eq_false (h : text.toList.head? = some c) (hblank : c ≠ ' ') {c' : Char}
    (hstart : start.toList.head? = some c') (hne : c ≠ c') (level : Nat) :
    opensWith start (indentation level ++ text) = false := by
  rw [opensWith_line h hblank, Bool.eq_false_iff, ne_eq, List.isPrefixOf_iff_prefix]
  rintro ⟨more, hmore⟩
  rw [← hmore, List.head?_append, hstart] at h
  exact hne (Option.some.inj h).symm

/-- A line that neither returns nor prints. -/
def IsQuiet (line : String) : Prop := isReturn line = false ∧ isPrint line = false

/-- The first character of a line shows that it neither returns nor prints. -/
theorem isQuiet_of_head (h : text.toList.head? = some c) (hc : c ∉ [' ', 'r', 'p'])
    (level : Nat) : IsQuiet (indentation level ++ text) := by
  simp only [List.mem_cons, List.not_mem_nil, or_false, not_or] at hc
  obtain ⟨hblank, hr, hp⟩ := hc
  exact ⟨opensWith_eq_false h hblank rfl hr level, opensWith_eq_false h hblank rfl hp level⟩

end Lines

/-- Two texts that start with a word and something behind it start with the same. -/
theorem word_of_prefix {word word' rest : List Char} {c c' : Char}
    (hword : word.all isWordChar = true) (hword' : word'.all isWordChar = true)
    (hc : isWordChar c = false) (hc' : isWordChar c' = false)
    (h : word ++ [c] <+: word' ++ c' :: rest) : word = word' ∧ c = c' := by
  obtain ⟨more, hmore⟩ := h
  rw [List.append_assoc, List.singleton_append] at hmore
  have hsame : word = word' := by
    have htake := congrArg (List.takeWhile isWordChar) hmore
    rwa [takeWhile_append_stop hword (by simpa using hc),
      takeWhile_append_stop hword' (by simpa using hc')] at htake
  refine ⟨hsame, ?_⟩
  rw [hsame] at hmore
  exact (List.cons.inj (List.append_cancel_left hmore)).1

/-- An assignment neither returns nor prints, since its variable is called neither way. -/
theorem isQuiet_assign {name : String} (h : isIdentifier name = true) (value : String)
    (level : Nat) :
    IsQuiet (indentation level ++ (safeName name ++ " = " ++ value ++ ";")) := by
  obtain ⟨first, last, hname, hblank, -⟩ := exists_spans_safeName h
  have hword : (safeName name).toList.all isWordChar = true :=
    isCName.all_isWordChar (safeName_isCName (isCName_of_isIdentifier h))
  have hhead : (safeName name ++ " = " ++ value ++ ";").toList.head? = some first :=
    head?_append_of_eq (head?_append_of_eq (head?_append_of_eq hname.head _) _) _
  have hchars : (safeName name ++ " = " ++ value ++ ";").toList =
      (safeName name).toList ++ ' ' :: ("= " ++ value ++ ";").toList := by
    simp
  have hstart : ∀ (word : String) (c : Char), word.toList.all isWordChar = true →
      isWordChar c = false →
      opensWith (word ++ String.ofList [c])
        (indentation level ++ (safeName name ++ " = " ++ value ++ ";")) = true →
      word = safeName name ∧ c = ' ' := by
    intro word c hall hc hopens
    rw [opensWith_line hhead hblank, List.isPrefixOf_iff_prefix, hchars, String.toList_append,
      String.toList_ofList] at hopens
    obtain ⟨hsame, hc'⟩ := word_of_prefix hall hword hc rfl hopens
    exact ⟨String.toList_inj.mp hsame, hc'⟩
  constructor
  · rw [Bool.eq_false_iff]
    intro hreturn
    obtain ⟨hsame, -⟩ := hstart "return" ' ' (by decide) rfl hreturn
    exact safeName_not_mem_reservedNames name (hsame ▸ by decide)
  · rw [Bool.eq_false_iff]
    intro hprint
    obtain ⟨-, hc⟩ := hstart "print_number" '(' (by decide) rfl hprint
    exact absurd hc (by decide)

/-! ### The expressions of a unit -/

mutual

/-- The expressions that are statements of their own in a statement, outside of functions. -/
def Stmt.values : Stmt → List Expr
  | .expr _ value => [value]
  | .declare _ _ _ => []
  | .assign _ _ _ => []
  | .branch _ _ body rest => valuesOf body ++ valuesElse rest
  | .count _ _ _ body => valuesOf body
  | .loop _ _ body => valuesOf body
  | .define _ _ _ _ => []
  | .hole _ => []

/-- The expressions that are statements of their own among statements, in the order of the text. -/
def valuesOf : List Stmt → List Expr
  | [] => []
  | s :: ss => s.values ++ valuesOf ss

/-- The expressions that are statements of their own in the second body of a choice. -/
def valuesElse : Option (List Stmt) → List Expr
  | none => []
  | some body => valuesOf body

end

/-- The text of a line that prints an expression. -/
def printText (exprText : Expr → String) (e : Expr) : List Char :=
  ("print_number(" ++ exprText e ++ ");").toList

/-- No line returns, and those that print print these expressions. -/
structure PrintsOnly (exprText : Expr → String) (lines : List String) (values : List Expr) :
    Prop where
  returns : lines.filter isReturn = []
  prints : (lines.filter isPrint).map lineText = values.map (printText exprText)

section Printing

variable {exprText : Expr → String}

namespace PrintsOnly

variable {lines more : List String} {values values' : List Expr}

theorem nil : PrintsOnly exprText [] [] := ⟨rfl, rfl⟩

theorem append (h : PrintsOnly exprText lines values) (h' : PrintsOnly exprText more values') :
    PrintsOnly exprText (lines ++ more) (values ++ values') := by
  constructor
  · rw [List.filter_append, h.returns, h'.returns, List.append_nil]
  · rw [List.filter_append, List.map_append, h.prints, h'.prints, List.map_append]

theorem quiet {line : String} (h : IsQuiet line) : PrintsOnly exprText [line] [] := by
  constructor
  · simp [h.1]
  · simp [h.2]

/-- A quiet line in front. -/
theorem cons {line : String} (h : IsQuiet line) (h' : PrintsOnly exprText lines values) :
    PrintsOnly exprText (line :: lines) values := (quiet h).append h'

end PrintsOnly

/-- A line that ends a block is quiet. -/
theorem isQuiet_closing (level : Nat) : IsQuiet (indentation level ++ "\x7d") :=
  isQuiet_of_head (c := '\x7d') rfl (by decide) level

/-- A block between a quiet line and the brace that ends it. -/
theorem PrintsOnly.block {line : String} {lines : List String} {values : List Expr}
    (h : IsQuiet line) (hbody : PrintsOnly exprText lines values) (level : Nat) :
    PrintsOnly exprText (line :: (lines ++ [indentation level ++ "\x7d"])) values := by
  have hlines := hbody.append (.quiet (isQuiet_closing level))
  rw [List.append_nil] at hlines
  exact .cons h hlines

theorem printsOnly_print (e : Expr) (level : Nat) :
    PrintsOnly exprText [indentation level ++ ("print_number(" ++ exprText e ++ ");")] [e] := by
  have hhead : ("print_number(" ++ exprText e ++ ");").toList.head? = some 'p' :=
    head?_append_of_eq (head?_append_of_eq rfl _) _
  have hreturn : isReturn (indentation level ++ ("print_number(" ++ exprText e ++ ");")) = false :=
    opensWith_eq_false hhead (by decide) rfl (by decide) level
  have hprint : isPrint (indentation level ++ ("print_number(" ++ exprText e ++ ");")) = true := by
    rw [String.append_assoc]
    exact opensWith_append (c := 'p') rfl (by decide) _ level
  constructor
  · simp [hreturn]
  · rw [List.filter_cons_of_pos hprint, List.filter_nil, List.map_singleton, List.map_singleton,
      (blanks_of_line hhead (by decide) level).2, printText]

/-- The first line of a counting loop with one, two or three bounds. -/
theorem head?_countLine {var : String} {bounds : List Expr} (hone : 1 ≤ bounds.length)
    (hthree : bounds.length ≤ 3) : (countLine exprText var bounds).toList.head? = some 'f' := by
  rcases bounds with _ | ⟨a, _ | ⟨b, _ | ⟨c, _ | ⟨e, bounds⟩⟩⟩⟩
  · exact absurd hone (by simp)
  · exact head?_append_of_eq (by simp) _
  · exact head?_append_of_eq (by simp) _
  · exact head?_append_of_eq (by simp) _
  · exact absurd hthree (by simp)

mutual

theorem Stmt.linesAt_printsOnly (level : Nat) : ∀ s : Stmt, IsRead [s] →
    PrintsOnly exprText (s.linesAt exprText level false) s.values
  | .expr _ value, _ => printsOnly_print value level
  | .declare _ name value, _ => by
    have hhead : ("double " ++ safeName name ++ " = " ++ exprText value ++ ";").toList.head? =
        some 'd' :=
      head?_append_of_eq (head?_append_of_eq (head?_append_of_eq (head?_append_of_eq rfl _) _) _) _
    exact .quiet (isQuiet_of_head hhead (by decide) level)
  | .assign _ name value, h => by
    have hown := List.forall_mem_cons.mp h.ownAtoms
    exact .quiet (isQuiet_assign hown.1 (exprText value) level)
  | .branch _ cond body rest, h => by
    obtain ⟨hbody, hrest⟩ := isRead_append.mp h.inner
    have hhead : ("if (" ++ exprText cond ++ ") \x7b").toList.head? = some 'i' :=
      head?_append_of_eq (head?_append_of_eq rfl _) _
    exact .cons (isQuiet_of_head hhead (by decide) level)
      ((linesAllAt_printsOnly (level + 1) body hbody).append
        (elseLinesAt_printsOnly level rest hrest))
  | .count _ var bounds body, h => by
    have hcomplete := h.isComplete
    simp only [Stmt.isComplete, Bool.and_eq_true, decide_eq_true_eq] at hcomplete
    have hhead : (countLine exprText var bounds).toList.head? = some 'f' :=
      head?_countLine hcomplete.1.1.2 hcomplete.1.2
    exact .block (isQuiet_of_head hhead (by decide) level)
      (linesAllAt_printsOnly (level + 1) body h.inner) level
  | .loop _ cond body, h => by
    have hhead : ("while (" ++ exprText cond ++ ") \x7b").toList.head? = some 'w' :=
      head?_append_of_eq (head?_append_of_eq rfl _) _
    exact .block (isQuiet_of_head hhead (by decide) level)
      (linesAllAt_printsOnly (level + 1) body h.inner) level
  | .define _ _ _ _, _ => .nil
  | .hole _, _ => .nil
termination_by s => sizeOf s

/-- Statements that are not the body of a function print all their expressions. -/
theorem linesAllAt_printsOnly (level : Nat) : ∀ ss : List Stmt, IsRead ss →
    PrintsOnly exprText (linesAllAt exprText level false ss) (valuesOf ss)
  | [], _ => .nil
  | s :: ss, h => by
    obtain ⟨hs, hss⟩ := isRead_cons.mp h
    exact (s.linesAt_printsOnly level hs).append (linesAllAt_printsOnly level ss hss)
termination_by ss => sizeOf ss

theorem elseLinesAt_printsOnly (level : Nat) : ∀ o : Option (List Stmt), IsRead (o.getD []) →
    PrintsOnly exprText (elseLinesAt exprText level o) (valuesElse o)
  | o, h => by
    rw [elseLinesAt.eq_def]
    split
    · exact .quiet (isQuiet_closing level)
    · -- the chain goes on
      rename_i p cond body rest
      have hchoice : IsRead [.branch p cond body rest] := h
      obtain ⟨hbody, hrest⟩ := isRead_append.mp hchoice.inner
      have hhead : ("\x7d else if (" ++ exprText cond ++ ") \x7b").toList.head? = some '\x7d' :=
        head?_append_of_eq (head?_append_of_eq rfl _) _
      have hlines := (linesAllAt_printsOnly (level + 1) body hbody).append
        (elseLinesAt_printsOnly level rest hrest)
      rw [valuesElse, valuesOf, valuesOf, List.append_nil, Stmt.values]
      exact .cons (isQuiet_of_head hhead (by decide) level) hlines
    · rename_i body _
      exact .block (isQuiet_of_head (c := '\x7d') rfl (by decide) level)
        (linesAllAt_printsOnly (level + 1) body h) level
termination_by o => sizeOf o

end

end Printing

/-! ### Bodies of functions -/

section Bodies

variable {exprText : Expr → String}

/-- Only the last statement of a body may return. -/
theorem linesAllAt_concat (level : Nat) (returns : Bool) (ss : List Stmt) (s : Stmt) :
    linesAllAt exprText level returns (ss ++ [s]) =
      linesAllAt exprText level false ss ++ s.linesAt exprText level returns := by
  induction ss with
  | nil => simp [linesAllAt]
  | cons s' ss ih =>
    have hmore : (ss ++ [s]).isEmpty = false := by simp
    rw [List.cons_append, linesAllAt, linesAllAt, ih, hmore, Bool.and_false, Bool.false_and,
      List.append_assoc]

theorem Stmt.linesAt_of_not_isExpr {s : Stmt} (h : s.isExpr = false) (level : Nat)
    (returns : Bool) : s.linesAt exprText level returns = s.linesAt exprText level false := by
  cases s with
  | expr p value => cases h
  | _ => rfl

/-- A body that does not end in an expression is written as if it were not that of a function. -/
theorem linesAllAt_of_not_endsInExpr {body : List Stmt} (h : endsInExpr body = false)
    (level : Nat) :
    linesAllAt exprText level true body = linesAllAt exprText level false body := by
  rcases List.eq_nil_or_concat body with rfl | ⟨ss, s, rfl⟩
  · rfl
  · rw [List.concat_eq_append] at h ⊢
    rw [endsInExpr, List.getLast?_concat] at h
    rw [linesAllAt_concat, linesAllAt_concat, s.linesAt_of_not_isExpr h]

/-- A body that ends in an expression. -/
theorem exists_of_endsInExpr {body : List Stmt} (h : endsInExpr body = true) :
    ∃ (ss : List Stmt) (p : Pos) (value : Expr), body = ss ++ [.expr p value] := by
  rcases List.eq_nil_or_concat body with rfl | ⟨ss, s, rfl⟩
  · cases h
  · rw [List.concat_eq_append] at h ⊢
    rw [endsInExpr, List.getLast?_concat] at h
    cases s with
    | expr p value => exact ⟨ss, p, value, rfl⟩
    | _ => cases h

end Bodies

namespace FunctionUnit

/-- The statements of a function but for the expression that it ends in. -/
def unreturned (u : FunctionUnit) : List Stmt :=
  if endsInExpr u.body then u.body.dropLast else u.body

/-- What a function returns: the expression that it ends in, or zero. -/
def result (exprText : Expr → String) (u : FunctionUnit) : String :=
  match u.body.getLast? with
  | some (.expr _ value) => exprText value
  | _ => "0"

end FunctionUnit

/-- The line that returns from a unit. -/
def returnLine (result : String) : String := indentation 1 ++ ("return " ++ result ++ ";")

/-- A function is its header, the statements that it does not return, the line that returns and a
brace. -/
theorem FunctionUnit.lines_eq (symbolOf : String → String) (u : FunctionUnit) :
    u.lines symbolOf = (Build.signature (symbolOf u.name) u.params ++ " \x7b") ::
      (linesAllAt (exprTextOf symbolOf) 1 false u.unreturned ++
        [returnLine (u.result (exprTextOf symbolOf)), "\x7d"]) := by
  rw [lines, unitLines, unreturned, result]
  cases h : endsInExpr u.body with
  | true =>
    obtain ⟨ss, p, value, hbody⟩ := exists_of_endsInExpr h
    rw [hbody, linesAllAt_concat, List.getLast?_concat, if_pos rfl, List.dropLast_concat]
    simp [Stmt.linesAt, returnLine]
  | false =>
    have hresult : (match u.body.getLast? with
        | some (.expr _ value) => exprTextOf symbolOf value
        | _ => "0") = "0" := by
      split
      · rename_i p value hlast
        rw [endsInExpr, hlast] at h
        cases h
      · rfl
    have hzero : "return 0;" = "return " ++ "0" ++ ";" := by decide
    rw [hresult, linesAllAt_of_not_endsInExpr h, hzero]
    simp [returnLine]

/-! ### Units -/

/-- Read from the depth zero on, the lines of a unit return the result with the last line before the
closing brace, at the depth one, and with no other line. The lines that print are those of the given
expressions. -/
structure Yields (exprText : Expr → String) (lines : List String) (printed : List Expr)
    (result : String) : Prop where
  returns : lines.filter isReturn = [returnLine result]
  last : ∃ before, lineDepths 0 lines = before ++ [(returnLine result, 1), ("\x7d", 0)]
  prints : (lines.filter isPrint).map lineText = printed.map (printText exprText)

section Units

variable {exprText : Expr → String}

theorem head?_return (result : String) :
    ("return " ++ result ++ ";").toList.head? = some 'r' :=
  head?_append_of_eq (head?_append_of_eq rfl _) _

theorem isReturn_returnLine (result : String) : isReturn (returnLine result) = true := by
  rw [returnLine, String.append_assoc]
  exact opensWith_append (c := 'r') rfl (by decide) _ 1

theorem isPrint_returnLine (result : String) : isPrint (returnLine result) = false :=
  opensWith_eq_false (head?_return result) (by decide) rfl (by decide) 1

/-- The depths of the last two lines of a block can be read off their blanks. -/
theorem lineDepths_of_singleBlock {lines : List String} {result : String}
    (h : SingleBlock (lines ++ [returnLine result, "\x7d"])) :
    ∃ before, lineDepths 0 (lines ++ [returnLine result, "\x7d"]) =
      before ++ [(returnLine result, 1), ("\x7d", 0)] := by
  have hindented := h.indented
  rw [lineDepths_append, lineDepths, lineDepths, lineDepths] at hindented ⊢
  generalize depthOf (finalDepth 0 lines) (returnLine result) = d at hindented ⊢
  generalize depthOf _ "\x7d" = d' at hindented ⊢
  have hreturn := (hindented (returnLine result, d) (by simp)).1
  have hclose := (hindented ("\x7d", d') (by simp)).1
  have hblanks : leadingBlanks (returnLine result) = 4 :=
    (blanks_of_line (head?_return result) (by decide) 1).1
  have hblanks' : leadingBlanks "\x7d" = 0 := by decide
  simp only [hblanks, hblanks'] at hreturn hclose
  obtain rfl : d = 1 := by omega
  obtain rfl : d' = 0 := by omega
  exact ⟨_, rfl⟩

/-- A unit whose header is quiet and whose statements only print returns at its end. -/
theorem yields_of_printsOnly {header : String} {lines : List String} {values : List Expr}
    {result : String} (hheader : IsQuiet header) (hlines : PrintsOnly exprText lines values)
    (hblock : SingleBlock (header :: (lines ++ [returnLine result, "\x7d"]))) :
    Yields exprText (header :: (lines ++ [returnLine result, "\x7d"])) values result := by
  have hbefore : PrintsOnly exprText (header :: lines) values := .cons hheader hlines
  have hclose : IsQuiet "\x7d" := ⟨by decide, by decide⟩
  rw [← List.cons_append] at hblock ⊢
  refine ⟨?_, lineDepths_of_singleBlock hblock, ?_⟩
  · rw [List.filter_append, hbefore.returns, List.filter_cons_of_pos (isReturn_returnLine result),
      List.filter_cons_of_neg (by simp [hclose.1])]
    rfl
  · rw [List.filter_append, List.map_append, hbefore.prints,
      List.filter_cons_of_neg (by simp [isPrint_returnLine]),
      List.filter_cons_of_neg (by simp [hclose.2])]
    simp

end Units

theorem isQuiet_of_head_zero {text : String} {c : Char} (h : text.toList.head? = some c)
    (hc : c ∉ [' ', 'r', 'p']) : IsQuiet text := by
  have hquiet := isQuiet_of_head h hc 0
  simpa [indentation] using hquiet

theorem IsRead.unreturned {u : FunctionUnit} (h : IsRead [u.stmt]) : IsRead u.unreturned := by
  have hbody : IsRead u.body := h.inner
  unfold FunctionUnit.unreturned
  split
  · rename_i hends
    obtain ⟨ss, p, value, heq⟩ := exists_of_endsInExpr hends
    rw [heq] at hbody ⊢
    rw [List.dropLast_concat]
    exact (isRead_append.mp hbody).1
  · exact hbody

namespace Program

/-- Functions return at their end what they end in. -/
theorem yields_function {p : Program} (h : IsRead p) {u : FunctionUnit} (hu : u ∈ functionsOf p) :
    Yields (exprTextOf p.symbolOf) (u.lines p.symbolOf) (valuesOf u.unreturned)
      (u.result (exprTextOf p.symbolOf)) := by
  have hblock : SingleBlock (u.lines p.symbolOf) :=
    singleBlock_units h _ (List.mem_append_left _ (List.mem_map_of_mem hu))
  have hread := (isRead_functionsOf p h u hu).unreturned
  have hheader : (Build.signature (p.symbolOf u.name) u.params ++ " \x7b").toList.head? =
      some 'd' := by
    simp [Build.signature]
  rw [u.lines_eq] at hblock ⊢
  exact yields_of_printsOnly (isQuiet_of_head_zero hheader (by decide))
    (linesAllAt_printsOnly 1 _ hread) hblock

/-- The entry unit returns zero at its end and prints all its expressions. -/
theorem yields_main {p : Program} (h : IsRead p) :
    Yields (exprTextOf p.symbolOf) p.mainLines (valuesOf p) "0" := by
  have hblock : SingleBlock p.mainLines :=
    singleBlock_units h _ (List.mem_append_right _ (List.mem_singleton_self _))
  have hzero : "return 0;" = "return " ++ "0" ++ ";" := by decide
  have hlines : p.mainLines = "int main(void) \x7b" ::
      (linesAllAt (exprTextOf p.symbolOf) 1 false p ++ [returnLine "0", "\x7d"]) := by
    rw [mainLines, unitLines, if_pos rfl, List.append_assoc, hzero]
    rfl
  rw [hlines] at hblock ⊢
  exact yields_of_printsOnly ⟨by decide, by decide⟩ (linesAllAt_printsOnly 1 p h) hblock

end Program

/-! ### The texts of expressions -/

section Lowering

variable {names names' : NameTable} {p q : Pos}

mutual

/-- What could be lowered keeps its text when functions are added. -/
theorem Expr.lower_of_extends (h : names.Extends names') : ∀ {e : Expr} {text : String},
    e.lower names p = .ok text → e.lower names' q = .ok text
  | .number _, _, hlower => by
    cases hlower
    rfl
  | .ident _, _, hlower => by
    cases hlower
    rfl
  | .call name args, text, hlower => by
    rw [Expr.lower] at hlower ⊢
    split at hlower
    · cases hlower
    · rename_i d hd
      split at hlower
      · rename_i harity
        obtain ⟨texts, htexts, hok⟩ := exists_of_bind_eq_ok hlower
        cases hok
        rw [h.find?_eq_some hd]
        dsimp only
        rw [if_pos harity, lowerArgs_of_extends h htexts]
        rfl
      · cases hlower
  | .binary o left right, _, hlower => by
    obtain ⟨l, hl, hlower⟩ := exists_of_bind_eq_ok hlower
    obtain ⟨r, hr, hlower⟩ := exists_of_bind_eq_ok hlower
    cases hlower
    rw [Expr.lower, Expr.lower_of_extends h hl, Expr.lower_of_extends h hr]
    rfl
  | .pair left right, _, hlower => by
    obtain ⟨l, hl, hlower⟩ := exists_of_bind_eq_ok hlower
    obtain ⟨r, hr, hlower⟩ := exists_of_bind_eq_ok hlower
    cases hlower
    rw [Expr.lower, Expr.lower_of_extends h hl, Expr.lower_of_extends h hr]
    rfl
  | .hole, _, hlower => by cases hlower

theorem lowerArgs_of_extends (h : names.Extends names') : ∀ {es : List Expr} {texts : List String},
    lowerArgs names p es = .ok texts → lowerArgs names' q es = .ok texts
  | [], _, hlower => by
    cases hlower
    rfl
  | e :: es, _, hlower => by
    obtain ⟨text, htext, hlower⟩ := exists_of_bind_eq_ok hlower
    obtain ⟨texts, htexts, hlower⟩ := exists_of_bind_eq_ok hlower
    cases hlower
    rw [lowerArgs, Expr.lower_of_extends h htext, lowerArgs_of_extends h htexts]
    rfl

end

end Lowering

/-- All expressions of a script that was run can be lowered with the functions that it leaves. -/
theorem Script.Runs.lowerArgs_of_mem {s : Script} {b b' : Builder} (h : Runs s b (.ok () b'))
    {p : Pos} {xs : List String} {es : List Expr} (hmem : Piece.exprs p xs es ∈ s.pieces) :
    ∃ texts, lowerArgs b'.names p es = .ok texts := by
  generalize hr : (EStateM.Result.ok () b' : EStateM.Result CodegenError Builder Unit) = r at h
  induction h generalizing b' with
  | seq hs ht ihs iht =>
    subst hr
    rcases List.mem_append.mp hmem with hmem | hmem
    · obtain ⟨texts, htexts⟩ := ihs hmem rfl
      exact ⟨texts, lowerArgs_of_extends ht.grows.names htexts⟩
    · exact iht hmem rfl
  | statement htexts _ =>
    cases hr
    cases List.mem_singleton.mp hmem
    exact ⟨_, htexts⟩
  | @indented s b b₁ _ ih =>
    cases hr
    exact @ih b₁ hmem rfl
  | @define _ _ _ _ _ _ _ b b₁ returnsZero _ _ _ ih =>
    cases hr
    exact @ih b₁ ((List.mem_cons.mp hmem).resolve_left (by simp)) rfl
  | skip b => cases hmem
  | closing l b => cases hmem
  | _ => cases hr

namespace Program

/-- The functions of a program, as the table that it leaves has them. -/
def table (p : Program) : NameTable :=
  ⟨NameTable.counting, p.heads.zipIdx.map fun h => h.1.definitionAt NameTable.counting h.2⟩

/-- The text of an expression is what it is lowered to, with all functions of the program. -/
theorem lower_of_mem {p : Program} {text : String}
    (h : p.toC (.empty NameTable.counting) = .ok text) {q : Pos} {value : Expr}
    (hmem : Stmt.expr q value ∈ listings p) :
    value.lower p.table q = .ok (exprTextOf p.symbolOf value) := by
  obtain ⟨b, hruns, -⟩ := Program.exists_runs h
  have hhoists : Hoists p.heads p.finished (.atMain (.empty NameTable.counting)) b := by
    have hscript := hruns.hoists
    rwa [stmtsScript_heads, stmtsScript_finished] at hscript
  have htable : b.names = p.table := by
    have hsuffix := hhoists.suffix
    have hdefinitions := hhoists.definitions
    cases hnames : b.names with
    | mk suffix definitions =>
      rw [hnames] at hsuffix hdefinitions
      obtain rfl : suffix = NameTable.counting := hsuffix
      obtain rfl : definitions = p.table.definitions := hdefinitions
      rfl
  have hmatched : b.Matched := hruns.matched ⟨NameTable.isRegular_empty _, .nil⟩
  have hnames := hhoists.names_symbolOf (hhoists.nodup hmatched)
  have hpiece : Piece.exprs q [] [value] ∈ (stmtsScript false p).pieces := by
    rw [stmtsScript_pieces]
    exact List.mem_map_of_mem hmem
  obtain ⟨texts, htexts⟩ := hruns.lowerArgs_of_mem hpiece
  obtain ⟨lowered, hlowered, -⟩ := exists_of_bind_eq_ok htexts
  rw [← htable, hlowered, Expr.lower_eq_textOf hnames hlowered]
  rfl

end Program

/-- If a text compiles, the C text is the preamble, the prototypes and the units of its program, and
a unit returns only with its last line. A function returns the expression that its body ends in, or
zero if it does not end in one, and prints all other expressions that are statements of its own, at
any depth and in the order of the source. The entry unit prints all of them and returns zero. The
texts of these expressions are what they are lowered to. -/
theorem compile_returns {source text : String} (h : compile source = .ok text) :
    ∃ p : Program, parse source = .ok p ∧
      text = "\n\n".intercalate (preamble ::
        (p.prototypeSection ++ p.units.map ("\n".intercalate ·))) ++ "\n" ∧
      p.units = (functionsOf p).map (FunctionUnit.lines p.symbolOf) ++ [p.mainLines] ∧
      (∀ u ∈ functionsOf p, Yields (exprTextOf p.symbolOf) (u.lines p.symbolOf)
        (valuesOf u.unreturned) (u.result (exprTextOf p.symbolOf))) ∧
      Yields (exprTextOf p.symbolOf) p.mainLines (valuesOf p) "0" ∧
      ∀ (q : Pos) (value : Expr), Stmt.expr q value ∈ listings p →
        value.lower p.table q = .ok (exprTextOf p.symbolOf value) := by
  obtain ⟨p, hparse, htext⟩ := compile_eq_ok_iff.mp h
  have hread : IsRead p := ⟨completeStmts_of_parse hparse, parse_atoms_isLexical hparse⟩
  refine ⟨p, hparse, Program.toC_eq_units htext, rfl, ?_, Program.yields_main hread, ?_⟩
  · intro u hu
    exact Program.yields_function hread hu
  · intro q value hmem
    exact Program.lower_of_mem htext hmem

/-- A function that ends in an expression, with another one in it that ends in a loop. -/
def differentEnds : String :=
  "function f(a) a - 1 function g() while a do 3 end end if a then g() else 5 end a * 2 end f(7)"

/-- The first function returns what it ends in and prints three other expressions, the one in it
prints in its loop and returns zero. -/
theorem differentEnds_compile_returns :
    ∃ (p : Program) (text : String), compile differentEnds = .ok text ∧
      p.units = [
        ["double f2_g(void) \x7b", "    while (a) \x7b", "        print_number(3.0);", "    \x7d",
          "    return 0;", "\x7d"],
        ["double f1_f(double a) \x7b", "    print_number((a - 1.0));", "    if (a) \x7b",
          "        print_number(f2_g());", "    \x7d else \x7b", "        print_number(5.0);",
          "    \x7d", "    return (a * 2.0);", "\x7d"],
        ["int main(void) \x7b", "    print_number(f1_f(7.0));", "    return 0;", "\x7d"]] ∧
      (functionsOf p).map (FunctionUnit.result (exprTextOf p.symbolOf)) = ["0", "(a * 2.0)"] ∧
      (∀ u ∈ functionsOf p, Yields (exprTextOf p.symbolOf) (u.lines p.symbolOf)
        (valuesOf u.unreturned) (u.result (exprTextOf p.symbolOf))) ∧
      Yields (exprTextOf p.symbolOf) p.mainLines (valuesOf p) "0" := by
  obtain ⟨text, htext, -⟩ := exists_of_map_toOption (r := compile differentEnds)
    (f := String.isEmpty) (b := false) (by decide +kernel)
  obtain ⟨p, hparse, -, -, hfunctions, hmain, -⟩ := compile_returns htext
  have hread : (parse differentEnds).toOption.map (fun r : Program =>
      (r.units, (functionsOf r).map (FunctionUnit.result (exprTextOf r.symbolOf)))) =
      some (p.units, (functionsOf p).map (FunctionUnit.result (exprTextOf p.symbolOf))) := by
    rw [hparse]
    rfl
  refine ⟨p, text, htext,
    and_assoc.mp ⟨Prod.mk.inj (Option.some.inj (hread.symm.trans ?_)), hfunctions, hmain⟩⟩
  decide +kernel

end NumScript
