import NumScript.Proofs.Codegen.Blocks
import NumScript.Proofs.Compile

/-!
# NumScript.Proofs.Codegen.Units

The C text of a program, line by line. Behind the preamble and the prototypes stand the units, that
is, the functions in the order in which their bodies end, and the entry unit. The lines of each unit
are listed from the statements of its own body (`Program.units`): a definition adds no line to the
unit around it, and a unit whose body does not end in a value has one more line, which returns zero.

Every unit is one block, whose lines are indented by their depths (`compile_units`).
-/

namespace NumScript

/-! ### Texts without line breaks -/

theorem DecimalParts.newline_not_mem_chars (t : DecimalParts) : '\n' ∉ t.chars := by
  have hwhole := newline_not_mem_of_all_isDigit t.whole_digits
  have hfraction : '\n' ∉ t.fractionChars := by
    unfold fractionChars
    cases h : t.fraction with
    | none => exact List.not_mem_nil
    | some ds => simp [newline_not_mem_of_all_isDigit (t.fraction_digits ds h)]
  have hexponent : '\n' ∉ t.exponentChars := by
    unfold exponentChars
    cases h : t.exponent with
    | none => exact List.not_mem_nil
    | some e =>
      obtain ⟨negative, ds⟩ := e
      have hds := newline_not_mem_of_all_isDigit (t.exponent_digits _ h).1
      cases negative <;> simp [hds]
  rw [chars, List.mem_append, List.mem_append, not_or, not_or]
  exact ⟨hwhole, hfraction, hexponent⟩

theorem Double.newline_not_mem_literal (v : Double) : '\n' ∉ v.literal.toList := by
  cases v with
  | finite negative magnitude =>
    obtain ⟨t, hchars, -, -⟩ := magnitude.exists_parts .standard
    have htext : '\n' ∉ (Double.finite negative magnitude).text.toList := by
      rw [Double.text, String.toList_ofList, hchars]
      cases negative <;> simp [t.newline_not_mem_chars]
    unfold literal
    dsimp only
    split
    · simp [htext]
    · exact htext
  | infinite negative => cases negative <;> decide
  | nan => decide

theorem not_mem_intercalate {c : Char} {gap : String} {texts : List String}
    (hgap : c ∉ gap.toList) (htexts : ∀ text ∈ texts, c ∉ text.toList) :
    c ∉ (gap.intercalate texts).toList := by
  cases texts with
  | nil => exact List.not_mem_nil
  | cons text texts =>
    rw [List.forall_mem_cons] at htexts
    rw [intercalate_cons_eq, String.toList_append, String.toList_ofList, List.mem_append, not_or]
    refine ⟨htexts.1, fun hmem => ?_⟩
    obtain ⟨text', htext', hmem⟩ := List.mem_flatMap.mp hmem
    rcases List.mem_append.mp hmem with hmem | hmem
    · exact hgap hmem
    · exact htexts.2 text' htext' hmem

section Flat

variable {symbolOf : String → String}

/-- The symbols of functions are names. -/
def NamesFunctions (symbolOf : String → String) : Prop :=
  ∀ name, isIdentifier name = true → isCName (symbolOf name) = true

mutual

theorem Expr.newline_not_mem (hsymbol : NamesFunctions symbolOf) : ∀ e : Expr,
    (∀ f ∈ e.atoms, f.isLexical = true) → '\n' ∉ (textOf symbolOf e.fragments).toList
  | .number v, _ => by
    simp [Expr.fragments, Fragment.text, v.newline_not_mem_literal]
  | .ident name, h => by
    have hname : isIdentifier name = true := h (.var name) List.mem_cons_self
    have hflat := newline_not_mem_of_isCName (safeName_isCName (isCName_of_isIdentifier hname))
    simp [Expr.fragments, Fragment.text, hflat]
  | .call name args, h => by
    have h' := List.forall_mem_cons.mp h
    have hflat := newline_not_mem_of_isCName (hsymbol name h'.1)
    have hargs : '\n' ∉ (textOf symbolOf (joined ", " (fragmentsEach args))).toList := by
      rw [textOf_joined]
      exact not_mem_intercalate (by decide) (newline_not_mem_each hsymbol args h'.2)
    simp [Expr.fragments, Fragment.text, hflat, hargs]
  | .binary o left right, h => by
    have h' := List.forall_mem_append.mp h
    have hleft := Expr.newline_not_mem hsymbol left h'.1
    have hright := Expr.newline_not_mem hsymbol right h'.2
    have hsign : '\n' ∉ o.text.toList := by cases o <;> decide
    rw [Expr.fragments, ← Operator.apply_eq_textOf]
    cases o <;> simp [Operator.apply, hleft, hright, hsign]
  | .pair left right, h => by
    have h' := List.forall_mem_append.mp h
    have hleft := Expr.newline_not_mem hsymbol left h'.1
    have hright := Expr.newline_not_mem hsymbol right h'.2
    simp [Expr.fragments, Fragment.text, hleft, hright]
  | .hole, _ => by simp [Expr.fragments]

theorem newline_not_mem_each (hsymbol : NamesFunctions symbolOf) : ∀ es : List Expr,
    (∀ f ∈ atomsOf es, f.isLexical = true) →
      ∀ text ∈ (fragmentsEach es).map (textOf symbolOf), '\n' ∉ text.toList
  | [], _ => List.forall_mem_nil _
  | e :: es, h => by
    have h' := List.forall_mem_append.mp h
    rw [fragmentsEach, List.map_cons, List.forall_mem_cons]
    exact ⟨Expr.newline_not_mem hsymbol e h'.1, newline_not_mem_each hsymbol es h'.2⟩

end

/-- The first line of a function begins a block. -/
theorem spans_signature {symbol : String} {params : List String} (hsymbol : isCName symbol = true)
    (hparams : ∀ param ∈ params, isIdentifier param = true) :
    Spans (Build.signature symbol params ++ " \x7b") 'd' '\x7b' := by
  have hlist : '\n' ∉ (if params.isEmpty then "void"
      else ", ".intercalate (params.map fun param => "double " ++ safeName param)).toList := by
    split
    · decide
    · refine not_mem_intercalate (by decide) (List.forall_mem_map.mpr fun param hparam => ?_)
      have hname := safeName_isCName (isCName_of_isIdentifier (hparams param hparam))
      simp [newline_not_mem_of_isCName hname]
  have hname := newline_not_mem_of_isCName hsymbol
  have hsignature : Spans (Build.signature symbol params) 'd' ')' :=
    .around (.around ⟨rfl, rfl, by decide⟩ ⟨rfl, rfl, by decide⟩ hname) ⟨rfl, rfl, by decide⟩ hlist
  exact hsignature.append ⟨rfl, rfl, by decide⟩

end Flat

/-! ### The lines of a script -/

section Lines

variable {symbolOf : String → String}

/-- The text of an expression, the symbols of functions being given. -/
def exprTextOf (symbolOf : String → String) (e : Expr) : String := textOf symbolOf e.fragments

theorem map_fragmentsEach (es : List Expr) :
    (fragmentsEach es).map (textOf symbolOf) = es.map (exprTextOf symbolOf) := by
  induction es with
  | nil => rfl
  | cons e es ih => rw [fragmentsEach, List.map_cons, List.map_cons, ih, exprTextOf]

/-- The line of a statement, of which the form and the expressions are given. -/
theorem lines_statement (p : Pos) {form : LineForm} {es : List Expr} {text : String}
    (h : form.text (es.map (exprTextOf symbolOf)) = .ok text) (level : Nat) :
    ((Script.statement p es form).lines level).map (UnitLine.text symbolOf) =
      [indentation level ++ text] := by
  rw [← map_fragmentsEach] at h
  rw [Script.lines, List.map_singleton, UnitLine.text, LineForm.text_eq_textOf h]

theorem lines_closing (l : Closing) (level : Nat) :
    ((Script.closing l).lines level).map (UnitLine.text symbolOf) =
      [indentation level ++ l.text] := by
  rw [Script.lines, List.map_singleton, UnitLine.text, l.text_eq_textOf]

theorem lines_count (p : Pos) (var : String) (bounds : List Expr) (level : Nat) :
    ((Script.statement p bounds (.count var)).lines level).map (UnitLine.text symbolOf) =
      [indentation level ++ countLine (exprTextOf symbolOf) var bounds] := by
  rcases bounds with _ | ⟨a, _ | ⟨b, _ | ⟨c, _ | ⟨e, bounds⟩⟩⟩⟩
  · rfl
  · exact lines_statement p rfl level
  · exact lines_statement p rfl level
  · exact lines_statement p rfl level
  · rfl

theorem lines_block (first body rest : Script) (level : Nat) :
    ((Script.seq first (.seq (.indented body) rest)).lines level).map (UnitLine.text symbolOf) =
      (first.lines level).map (UnitLine.text symbolOf) ++
        ((body.lines (level + 1)).map (UnitLine.text symbolOf) ++
          (rest.lines level).map (UnitLine.text symbolOf)) := by
  simp only [Script.lines, List.map_append]

mutual

theorem Stmt.script_lines (level : Nat) (returns : Bool) : ∀ s : Stmt,
    ((s.script returns).lines level).map (UnitLine.text symbolOf) =
      s.linesAt (exprTextOf symbolOf) level returns
  | .expr p value => by
    cases returns with
    | true => exact lines_statement p rfl level
    | false => exact lines_statement p rfl level
  | .declare p name value => lines_statement p rfl level
  | .assign p name value => lines_statement p rfl level
  | .branch p cond body rest => by
    rw [Stmt.script, Stmt.linesAt, lines_block, lines_statement p rfl,
      stmtsScript_lines (level + 1) false body, elseScript_lines level rest]
    rfl
  | .count p var bounds body => by
    rw [Stmt.script, Stmt.linesAt, lines_block, lines_count,
      stmtsScript_lines (level + 1) false body, lines_closing]
    rfl
  | .loop p cond body => by
    rw [Stmt.script, Stmt.linesAt, lines_block, lines_statement p rfl,
      stmtsScript_lines (level + 1) false body, lines_closing]
    rfl
  | .define _ _ _ _ => rfl
  | .hole _ => rfl
termination_by s => sizeOf s

/-- The lines of a script are those of its statements. -/
theorem stmtsScript_lines (level : Nat) (returns : Bool) : ∀ ss : List Stmt,
    ((stmtsScript returns ss).lines level).map (UnitLine.text symbolOf) =
      linesAllAt (exprTextOf symbolOf) level returns ss
  | [] => rfl
  | s :: ss => by
    rw [stmtsScript, linesAllAt, Script.lines, List.map_append, s.script_lines,
      stmtsScript_lines level returns ss]
termination_by ss => sizeOf ss

theorem elseScript_lines (level : Nat) : ∀ o : Option (List Stmt),
    ((elseScript o).lines level).map (UnitLine.text symbolOf) =
      elseLinesAt (exprTextOf symbolOf) level o
  | o => by
    rw [elseScript.eq_def]
    split
    · exact lines_closing .close level
    · rename_i p cond body rest
      rw [elseLinesAt, lines_block, lines_statement p rfl,
        stmtsScript_lines (level + 1) false body, elseScript_lines level rest]
      rfl
    · rename_i body hbody
      rw [elseLinesAt.eq_3 _ _ body hbody, lines_block, lines_closing, lines_closing,
        stmtsScript_lines (level + 1) false body]
      rfl
termination_by o => sizeOf o

end

end Lines

/-! ### Functions -/

/-- A function with its body. -/
structure FunctionUnit extends FunctionHead where
  body : List Stmt

/-- The lines of the unit of a function. It returns zero if its body does not end in a value. -/
def FunctionUnit.lines (symbolOf : String → String) (u : FunctionUnit) : List String :=
  unitLines (Build.signature (symbolOf u.name) u.params ++ " \x7b")
    (linesAllAt (exprTextOf symbolOf) 1 true u.body) (!endsInExpr u.body)

/-- The definition that a function comes from. -/
def FunctionUnit.stmt (u : FunctionUnit) : Stmt := .define u.pos u.name u.params u.body

mutual

/-- The functions of a statement with their bodies, in the order in which these end. -/
def Stmt.functions : Stmt → List FunctionUnit
  | .expr _ _ => []
  | .declare _ _ _ => []
  | .assign _ _ _ => []
  | .branch _ _ body rest => functionsOf body ++ functionsElse rest
  | .count _ _ _ body => functionsOf body
  | .loop _ _ body => functionsOf body
  | .define p name params body => functionsOf body ++ [⟨⟨name, params, p⟩, body⟩]
  | .hole _ => []

/-- The functions of statements. -/
def functionsOf : List Stmt → List FunctionUnit
  | [] => []
  | s :: ss => s.functions ++ functionsOf ss

/-- The functions of the second body of a choice. -/
def functionsElse : Option (List Stmt) → List FunctionUnit
  | none => []
  | some body => functionsOf body

end

mutual

theorem Stmt.isRead_functions : ∀ s : Stmt, IsRead [s] → ∀ u ∈ s.functions, IsRead [u.stmt]
  | .expr _ _, _ => List.forall_mem_nil _
  | .declare _ _ _, _ => List.forall_mem_nil _
  | .assign _ _ _, _ => List.forall_mem_nil _
  | .branch _ _ body rest, h => by
    obtain ⟨hbody, hrest⟩ := isRead_append.mp h.inner
    rw [Stmt.functions, List.forall_mem_append]
    exact ⟨isRead_functionsOf body hbody, isRead_functionsElse rest hrest⟩
  | .count _ _ _ body, h => isRead_functionsOf body h.inner
  | .loop _ _ body, h => isRead_functionsOf body h.inner
  | .define p name params body, h => by
    rw [Stmt.functions, List.forall_mem_append, List.forall_mem_singleton]
    exact ⟨isRead_functionsOf body h.inner, h⟩
  | .hole _, _ => List.forall_mem_nil _

/-- Functions in statements that were read were read. -/
theorem isRead_functionsOf : ∀ ss : List Stmt, IsRead ss → ∀ u ∈ functionsOf ss, IsRead [u.stmt]
  | [], _ => List.forall_mem_nil _
  | s :: ss, h => by
    obtain ⟨hs, hss⟩ := isRead_cons.mp h
    rw [functionsOf, List.forall_mem_append]
    exact ⟨s.isRead_functions hs, isRead_functionsOf ss hss⟩

theorem isRead_functionsElse : ∀ o : Option (List Stmt), IsRead (o.getD []) →
    ∀ u ∈ functionsElse o, IsRead [u.stmt]
  | none, _ => List.forall_mem_nil _
  | some body, h => isRead_functionsOf body h

end

section Functions

variable {symbolOf : String → String}

/-- The text of a unit is that of its lines. -/
theorem textOf_unitFragments (head : List Fragment) (body : List UnitLine) (returnsZero : Bool) :
    textOf symbolOf (unitFragments head body returnsZero) =
      "\n".intercalate (unitLines (textOf symbolOf head ++ " \x7b")
        (body.map (UnitLine.text symbolOf)) returnsZero) := by
  let b : Builder := { Builder.start (.empty NameTable.counting) with
    lines := (textOf symbolOf head ++ " \x7b") :: body.map (UnitLine.text symbolOf), indent := 1 }
  exact (Builder.unitText_eq_textOf (b := b) rfl rfl returnsZero).symm

theorem textOf_define (name : String) (params : List String) (p : Pos) (body : List Stmt) :
    textOf symbolOf (unitFragments (headFragments name params) ((stmtsScript true body).lines 1)
      (!endsInExpr body)) =
      "\n".intercalate (FunctionUnit.lines symbolOf ⟨⟨name, params, p⟩, body⟩) := by
  rw [textOf_unitFragments, stmtsScript_lines, ← signature_eq_textOf]
  rfl

mutual

theorem Stmt.script_units (returns : Bool) : ∀ s : Stmt,
    (s.script returns).units.map (textOf symbolOf) =
      s.functions.map fun u => "\n".intercalate (u.lines symbolOf)
  | .expr _ _ => rfl
  | .declare _ _ _ => rfl
  | .assign _ _ _ => rfl
  | .branch _ _ body rest => by
    simp only [Stmt.script, Script.units, Stmt.functions, List.nil_append, List.map_append,
      stmtsScript_units false body, elseScript_units rest]
  | .count _ _ _ body => by
    simp only [Stmt.script, Script.units, Stmt.functions, List.nil_append, List.append_nil,
      stmtsScript_units false body]
  | .loop _ _ body => by
    simp only [Stmt.script, Script.units, Stmt.functions, List.nil_append, List.append_nil,
      stmtsScript_units false body]
  | .define p name params body => by
    rw [Stmt.script, Script.units, Stmt.functions, List.map_append, List.map_append,
      stmtsScript_units true body, List.map_singleton, List.map_singleton, textOf_define _ _ p]
  | .hole _ => rfl
termination_by s => sizeOf s

/-- The units of a script are those of the functions of its statements. -/
theorem stmtsScript_units (returns : Bool) : ∀ ss : List Stmt,
    (stmtsScript returns ss).units.map (textOf symbolOf) =
      (functionsOf ss).map fun u => "\n".intercalate (u.lines symbolOf)
  | [] => rfl
  | s :: ss => by
    rw [stmtsScript, functionsOf, Script.units, List.map_append, List.map_append, s.script_units,
      stmtsScript_units returns ss]
termination_by ss => sizeOf ss

theorem elseScript_units : ∀ o : Option (List Stmt),
    (elseScript o).units.map (textOf symbolOf) =
      (functionsElse o).map fun u => "\n".intercalate (u.lines symbolOf)
  | o => by
    rw [elseScript.eq_def]
    split
    · rfl
    · rename_i p cond body rest
      simp only [Script.units, functionsElse, functionsOf, Stmt.functions, List.nil_append,
        List.append_nil, List.map_append, stmtsScript_units false body, elseScript_units rest]
    · rename_i body _
      simp only [Script.units, functionsElse, List.nil_append, List.append_nil,
        stmtsScript_units false body]
termination_by o => sizeOf o

end

end Functions

/-! ### Programs -/

namespace Program

/-- The lines of the entry unit, which returns zero. -/
def mainLines (p : Program) : List String :=
  unitLines "int main(void) \x7b" (linesAllAt (exprTextOf p.symbolOf) 1 false p) true

/-- The lines of the units of a program: its functions in the order in which their bodies end, and
the entry unit. -/
def units (p : Program) : List (List String) :=
  (functionsOf p).map (FunctionUnit.lines p.symbolOf) ++ [p.mainLines]

/-- The prototypes of the functions of a program, in one section if there are any. -/
def prototypeSection (p : Program) : List String :=
  if p.heads.isEmpty then []
  else ["\n".intercalate (p.heads.map fun h => Build.signature (p.symbolOf h.name) h.params ++ ";")]

theorem map_textOf_sections (p : Program) :
    p.sections.map (textOf p.symbolOf) =
      p.prototypeSection ++ p.units.map ("\n".intercalate ·) := by
  have hprototypes : (if p.heads.isEmpty then [] else [prototypeFragments p.heads]).map
      (textOf p.symbolOf) = p.prototypeSection := by
    rw [prototypeSection]
    split
    · rfl
    · rw [List.map_singleton, prototypeFragments, textOf_joined, List.map_map]
      simp only [Function.comp_def, textOf_append, ← signature_eq_textOf, textOf_cons, textOf_nil,
        Fragment.text, String.append_empty]
  have hmain : textOf p.symbolOf (unitFragments mainHead ((stmtsScript false p).lines 1) true) =
      "\n".intercalate p.mainLines := by
    rw [textOf_unitFragments, stmtsScript_lines]
    rfl
  rw [sections, List.map_append, List.map_append, hprototypes, stmtsScript_units,
    List.map_singleton, hmain, units, List.map_append, List.map_map, List.append_assoc]
  rfl

/-- The C text of a program is the preamble, the prototypes and the units, with an empty line
between each two of them. -/
theorem toC_eq_units {p : Program} {text : String}
    (h : p.toC (.empty NameTable.counting) = .ok text) :
    text = "\n\n".intercalate (preamble ::
      (p.prototypeSection ++ p.units.map ("\n".intercalate ·))) ++ "\n" := by
  rw [Program.toC_eq_textOf h, ← map_textOf_sections, intercalate_cons_eq, fragments, textOf_append,
    textOf_sections, String.append_assoc]
  rfl

/-- The units of a program that was read are blocks. -/
theorem singleBlock_units {p : Program} (h : IsRead p) : ∀ lines ∈ p.units, SingleBlock lines := by
  have hsymbol : NamesFunctions p.symbolOf := fun _ => p.symbolOf_isCName
  have hflat : IsFlat (exprTextOf p.symbolOf) := Expr.newline_not_mem hsymbol
  rw [units, List.forall_mem_append, List.forall_mem_map, List.forall_mem_singleton]
  constructor
  · intro u hu
    have hread := isRead_functionsOf p h u hu
    have hown := List.forall_mem_cons.mp hread.ownAtoms
    have hheader := spans_signature (hsymbol _ hown.1) (List.forall_mem_map.mp hown.2)
    exact singleBlock_unitLines hheader (by decide) (by decide)
      (linesAllAt_nests hflat 1 true u.body hread.inner) _
  · have hheader : Spans "int main(void) \x7b" 'i' '\x7b' := ⟨rfl, rfl, by decide⟩
    exact singleBlock_unitLines hheader (by decide) (by decide)
      (linesAllAt_nests hflat 1 false p h) true

end Program

/-- If a text compiles, the C text is the preamble, the prototypes and the units of its program. The
lines of a unit are its header, those of its own statements in order, one that returns zero unless
the unit is a function that ends in a value, and a closing brace. They form one block. -/
theorem compile_units {source text : String} (h : compile source = .ok text) :
    ∃ p : Program, parse source = .ok p ∧
      text = "\n\n".intercalate (preamble ::
        (p.prototypeSection ++ p.units.map ("\n".intercalate ·))) ++ "\n" ∧
      ∀ lines ∈ p.units, SingleBlock lines := by
  obtain ⟨p, hparse, htext⟩ := compile_eq_ok_iff.mp h
  have hread : IsRead p := ⟨completeStmts_of_parse hparse, parse_atoms_isLexical hparse⟩
  exact ⟨p, hparse, Program.toC_eq_units htext, Program.singleBlock_units hread⟩

/-- A program with a function in the body of a loop. -/
def functionInLoop : String :=
  "while x do function f(a) if a then a elseif b then a = b else c end end f(x) end"

/-- The function leaves no line in the loop, and its chain of choices stays on one level. -/
theorem functionInLoop_compile_units :
    ∃ (p : Program) (text : String), compile functionInLoop = .ok text ∧
      p.units = [
        ["double f1_f(double a) \x7b", "    if (a) \x7b", "        print_number(a);",
          "    \x7d else if (b) \x7b", "        a = b;", "    \x7d else \x7b",
          "        print_number(c);", "    \x7d", "    return 0;", "\x7d"],
        ["int main(void) \x7b", "    while (x) \x7b", "        print_number(f1_f(x));",
          "    \x7d", "    return 0;", "\x7d"]] ∧
      ∀ lines ∈ p.units, SingleBlock lines := by
  obtain ⟨text, htext, -⟩ := exists_of_map_toOption (r := compile functionInLoop)
    (f := String.isEmpty) (b := false) (by decide +kernel)
  obtain ⟨p, hparse, -, hblocks⟩ := compile_units htext
  have hunits : (parse functionInLoop).toOption.map Program.units = some p.units := by
    rw [hparse]
    rfl
  refine ⟨p, text, htext, Option.some.inj (hunits.symm.trans ?_), hblocks⟩
  decide +kernel

/-- A unit has a line for no statement. -/
theorem emptyProgram_has_line :
    (parse "").toOption = some [] ∧
      (compile "").toOption =
        some (preamble ++ "\n\nint main(void) \x7b\n    return 0;\n\x7d\n") := by
  decide +kernel

end NumScript
