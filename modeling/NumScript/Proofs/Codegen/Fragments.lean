import NumScript.Proofs.Codegen.Hoisting

/-!
# NumScript.Proofs.Codegen.Fragments

The C text of a program as a function of the program. A text is a list of fragments: words and signs
that the forms of lines and expressions bring along, numbers, variables and symbols of functions,
the last two by their names in the source. `Program.fragments` has the fragments of everything
behind the preamble, with no builder and no failure in it.

What code generation writes is these fragments, one after the other: for expressions
(`Expr.lower_eq_textOf`), for what a run of a script adds to a builder (`Script.Runs.renders`) and
for whole programs (`Program.toC_eq_textOf`).
-/

namespace NumScript

/-! ### Fragments -/

/-- A part of a C text. -/
inductive Fragment where
  /-- Signs, blanks and digits between other parts. -/
  | gap (text : String)
  /-- A word of C or of the surrounding text. -/
  | word (text : String)
  /-- A number. -/
  | literal (value : Double)
  /-- A variable, by its name in the source. -/
  | var (name : String)
  /-- The symbol of a function, by its name in the source. -/
  | symbol (name : String)
deriving DecidableEq

/-- The text of a fragment, the symbols of functions being given. -/
def Fragment.text (symbolOf : String → String) : Fragment → String
  | .gap text => text
  | .word text => text
  | .literal value => value.literal
  | .var name => safeName name
  | .symbol name => symbolOf name

/-- The text of fragments, one after the other. -/
def textOf (symbolOf : String → String) : List Fragment → String
  | [] => ""
  | f :: fs => f.text symbolOf ++ textOf symbolOf fs

/-- Lists of fragments with a gap between each two. -/
def joined (gap : String) : List (List Fragment) → List Fragment
  | [] => []
  | [fs] => fs
  | fs :: gs :: more => fs ++ .gap gap :: joined gap (gs :: more)

section Text

variable {symbolOf : String → String}

@[simp]
theorem textOf_nil : textOf symbolOf [] = "" := rfl

@[simp]
theorem textOf_cons (f : Fragment) (fs : List Fragment) :
    textOf symbolOf (f :: fs) = f.text symbolOf ++ textOf symbolOf fs := rfl

@[simp]
theorem textOf_append (fs gs : List Fragment) :
    textOf symbolOf (fs ++ gs) = textOf symbolOf fs ++ textOf symbolOf gs := by
  induction fs with
  | nil => simp
  | cons f fs ih => simp [ih, String.append_assoc]

theorem textOf_joined (gap : String) (fss : List (List Fragment)) :
    textOf symbolOf (joined gap fss) = gap.intercalate (fss.map (textOf symbolOf)) := by
  fun_induction joined gap fss with
  | case1 => rfl
  | case2 fs => rw [List.map_singleton, String.intercalate_singleton]
  | case3 fs gs more ih =>
    rw [List.map_cons, List.map_cons, String.intercalate_cons_cons, textOf_append, textOf_cons, ih]
    simp [Fragment.text, String.append_assoc]

end Text

/-! ### Expressions -/

/-- An application of an operator to two operands. -/
def Operator.fragments (o : Operator) (left right : List Fragment) : List Fragment :=
  match o with
  | .pow => .word "pow" :: .gap "(" :: (left ++ .gap ", " :: (right ++ [.gap ")"]))
  | .div => .gap "((" :: .word "double" :: .gap ")" :: (left ++ .gap " / " :: (right ++ [.gap ")"]))
  | .mod =>
    .gap "((" :: .word "int" :: .gap ")" ::
      (left ++ .gap " % (" :: .word "int" :: .gap ")" :: (right ++ [.gap ")"]))
  | o => .gap "(" :: (left ++ .gap (" " ++ o.text ++ " ") :: (right ++ [.gap ")"]))

mutual

/-- The fragments of an expression. -/
def Expr.fragments : Expr → List Fragment
  | .number value => [.literal value]
  | .ident name => [.var name]
  | .call name args =>
    .symbol name :: .gap "(" :: (joined ", " (fragmentsEach args) ++ [.gap ")"])
  | .binary o left right => o.fragments left.fragments right.fragments
  | .pair left right => .gap "(" :: (left.fragments ++ .gap "  " :: (right.fragments ++ [.gap ")"]))
  | .hole => []

/-- The fragments of each of some expressions. -/
def fragmentsEach : List Expr → List (List Fragment)
  | [] => []
  | e :: es => e.fragments :: fragmentsEach es

end

/-- The symbols in the table are those that are given. -/
def NameTable.Names (t : NameTable) (symbolOf : String → String) : Prop :=
  ∀ name d, t.find? name = some d → symbolOf name = d.symbol

theorem Operator.apply_eq_textOf {symbolOf : String → String} (o : Operator)
    (left right : List Fragment) :
    o.apply (textOf symbolOf left) (textOf symbolOf right) =
      textOf symbolOf (o.fragments left right) := by
  refine String.toList_inj.mp ?_
  cases o <;> simp [apply, fragments, Fragment.text]

section Lowering

variable {names : NameTable} {symbolOf : String → String} {p : Pos}

mutual

/-- The text of an expression is that of its fragments. -/
theorem Expr.lower_eq_textOf (hnames : names.Names symbolOf) : ∀ {e : Expr} {text : String},
    e.lower names p = .ok text → text = textOf symbolOf e.fragments
  | .number v, _, h => by
    cases h
    simp [Expr.fragments, Fragment.text]
  | .ident x, _, h => by
    cases h
    simp [Expr.fragments, Fragment.text]
  | .call name args, text, h => by
    rw [Expr.lower] at h
    split at h
    · cases h
    · rename_i d hd
      split at h
      · obtain ⟨texts, htexts, hok⟩ := exists_of_bind_eq_ok h
        cases hok
        rw [lowerArgs_eq_textOf hnames htexts, ← hnames name d hd, ← textOf_joined]
        simp [Expr.fragments, Fragment.text, String.append_assoc]
      · cases h
  | .binary o left right, _, h => by
    obtain ⟨l, hl, h⟩ := exists_of_bind_eq_ok h
    obtain ⟨r, hr, h⟩ := exists_of_bind_eq_ok h
    cases h
    rw [Expr.lower_eq_textOf hnames hl, Expr.lower_eq_textOf hnames hr, o.apply_eq_textOf,
      Expr.fragments]
  | .pair left right, _, h => by
    obtain ⟨l, hl, h⟩ := exists_of_bind_eq_ok h
    obtain ⟨r, hr, h⟩ := exists_of_bind_eq_ok h
    cases h
    rw [Expr.lower_eq_textOf hnames hl, Expr.lower_eq_textOf hnames hr]
    simp [Expr.fragments, Fragment.text, String.append_assoc]
  | .hole, _, h => by cases h

theorem lowerArgs_eq_textOf (hnames : names.Names symbolOf) :
    ∀ {es : List Expr} {texts : List String}, lowerArgs names p es = .ok texts →
      texts = (fragmentsEach es).map (textOf symbolOf)
  | [], _, h => by
    cases h
    rfl
  | e :: es, _, h => by
    obtain ⟨text, htext, h⟩ := exists_of_bind_eq_ok h
    obtain ⟨texts, htexts, h⟩ := exists_of_bind_eq_ok h
    cases h
    rw [Expr.lower_eq_textOf hnames htext, lowerArgs_eq_textOf hnames htexts, fragmentsEach,
      List.map_cons]

end

end Lowering

/-! ### Lines -/

/-- The test that a counting loop goes on, `down` being the comparison of its start and its stop. -/
def countTestFragments (var : String) (down stop : List Fragment) : List Fragment :=
  down ++ .gap " ? " :: .var var :: .gap " > (" :: .word "int" :: .gap ")" ::
    (stop ++ .gap " : " :: .var var :: .gap " < (" :: .word "int" :: .gap ")" :: stop)

/-- The header of a counting loop with one, two or three bounds. -/
def countFragments (var : String) : List (List Fragment) → List Fragment
  | [stop] =>
    .word "for" :: .gap " (" :: .word "int" :: .gap " " :: .var var :: .gap " = 0; " :: .var var ::
      .gap " < " :: (stop ++ .gap "; " :: .var var :: [.gap "++) \x7b"])
  | [first, stop] =>
    let down := first ++ .gap " > " :: stop
    .word "for" :: .gap " (" :: .word "int" :: .gap " " :: .var var :: .gap " = (" :: .word "int" ::
      .gap ")" :: (first ++ .gap "; " :: (countTestFragments var down stop ++ .gap "; " ::
        (down ++ .gap " ? " :: .var var :: .gap "-- : " :: .var var :: [.gap "++) \x7b"])))
  | [first, stop, step] =>
    let down := first ++ .gap " > " :: stop
    .word "for" :: .gap " (" :: .word "int" :: .gap " " :: .var var :: .gap " = (" :: .word "int" ::
      .gap ")" :: (first ++ .gap "; " :: (countTestFragments var down stop ++ .gap "; " ::
        .var var :: .gap " += (" :: .word "int" :: .gap ")" :: (step ++ [.gap ") \x7b"])))
  | _ => []

/-- The line of the form with the given expressions in it. -/
def LineForm.fragments : LineForm → List (List Fragment) → List Fragment
  | .print, [t] => .word "print_number" :: .gap "(" :: (t ++ [.gap ");"])
  | .result, [t] => .word "return" :: .gap " " :: (t ++ [.gap ";"])
  | .declare name, [t] =>
    .word "double" :: .gap " " :: .var name :: .gap " = " :: (t ++ [.gap ";"])
  | .assign name, [t] => .var name :: .gap " = " :: (t ++ [.gap ";"])
  | .choice, [t] => .word "if" :: .gap " (" :: (t ++ [.gap ") \x7b"])
  | .orChoice, [t] =>
    .gap "\x7d " :: .word "else" :: .gap " " :: .word "if" :: .gap " (" :: (t ++ [.gap ") \x7b"])
  | .loop, [t] => .word "while" :: .gap " (" :: (t ++ [.gap ") \x7b"])
  | .count var, ts => countFragments var ts
  | _, _ => []

/-- A line that ends a body. -/
def Closing.fragments : Closing → List Fragment
  | .close => [.gap "\x7d"]
  | .orElse => [.gap "\x7d ", .word "else", .gap " \x7b"]

/-- The head of a function. -/
def headFragments (name : String) (params : List String) : List Fragment :=
  let list := if params.isEmpty then [.word "void"]
    else joined ", " (params.map fun param => [.word "double", .gap " ", .var param])
  .word "double" :: .gap " " :: .symbol name :: .gap "(" :: (list ++ [.gap ")"])

section Lines

variable {symbolOf : String → String}

theorem countHeader_eq_textOf {var text : String} {fss : List (List Fragment)}
    (h : countHeader (safeName var) (fss.map (textOf symbolOf)) = .ok text) :
    text = textOf symbolOf (countFragments var fss) := by
  refine String.toList_inj.mp ?_
  match fss, h with
  | [], h => cases h
  | [stop], h =>
    cases h
    simp [countFragments, Fragment.text]
  | [first, stop], h =>
    cases h
    simp [countFragments, countTest, countTestFragments, Fragment.text]
  | [first, stop, step], h =>
    cases h
    simp [countFragments, countTest, countTestFragments, Fragment.text]
  | _ :: _ :: _ :: _ :: _, h => cases h

theorem LineForm.text_eq_textOf {form : LineForm} {fss : List (List Fragment)} {text : String}
    (h : form.text (fss.map (textOf symbolOf)) = .ok text) :
    text = textOf symbolOf (form.fragments fss) := by
  cases form with
  | count var => exact countHeader_eq_textOf h
  | _ =>
    match fss, h with
    | [], h => cases h
    | [t], h =>
      cases h
      exact String.toList_inj.mp (by simp [LineForm.fragments, Fragment.text])
    | _ :: _ :: _, h => cases h

theorem Closing.text_eq_textOf (l : Closing) : l.text = textOf symbolOf l.fragments := by
  refine String.toList_inj.mp ?_
  cases l <;> simp [Closing.text, Closing.fragments, Fragment.text]

theorem signature_eq_textOf (name : String) (params : List String) :
    Build.signature (symbolOf name) params = textOf symbolOf (headFragments name params) := by
  have hlist : (params.map fun param => [.word "double", .gap " ", .var param]).map
      (textOf symbolOf) = params.map fun param => "double " ++ safeName param := by
    rw [List.map_map]
    refine List.map_congr_left fun param _ => ?_
    exact String.toList_inj.mp (by simp [Fragment.text])
  unfold Build.signature headFragments
  refine String.toList_inj.mp ?_
  split
  · simp [Fragment.text]
  · simp [Fragment.text, textOf_joined, hlist]

end Lines

/-! ### Scripts -/

/-- A line of a unit: its level of indentation and what is on it. -/
abbrev UnitLine := Nat × List Fragment

/-- The text of a line of a unit. -/
def UnitLine.text (symbolOf : String → String) (line : UnitLine) : String :=
  indentation line.1 ++ textOf symbolOf line.2

/-- Lines below others. -/
def below (lines : List UnitLine) : List Fragment :=
  lines.flatMap fun line => .gap ("\n" ++ indentation line.1) :: line.2

/-- The fragments of a unit, of which the head and the lines of the body are given. -/
def unitFragments (head : List Fragment) (body : List UnitLine) (returnsZero : Bool) :
    List Fragment :=
  head ++ .gap " \x7b" :: below (body ++
    (if returnsZero then [(1, [.word "return", .gap " 0;"])] else []) ++ [(0, [.gap "\x7d"])])

namespace Script

/-- The lines that a script writes into the unit it is in, from the given level on. -/
def lines (level : Nat) : Script → List UnitLine
  | .skip => []
  | .seq first second => first.lines level ++ second.lines level
  | .closing l => [(level, l.fragments)]
  | .statement _ es form => [(level, form.fragments (fragmentsEach es))]
  | .indented body => body.lines (level + 1)
  | .define _ _ _ _ _ => []
  | .hole _ => []

/-- The units of the functions of a script, in the order in which they are finished. -/
def units : Script → List (List Fragment)
  | .skip => []
  | .seq first second => first.units ++ second.units
  | .closing _ => []
  | .statement _ _ _ => []
  | .indented body => body.units
  | .define _ name params returnsZero body =>
    body.units ++ [unitFragments (headFragments name params) (body.lines 1) returnsZero]
  | .hole _ => []

end Script

section Units

variable {symbolOf : String → String}

/-- Texts behind another one, each with a gap in front. -/
theorem intercalate_cons_eq (gap text : String) (texts : List String) :
    gap.intercalate (text :: texts) =
      text ++ String.ofList (texts.flatMap fun t => gap.toList ++ t.toList) := by
  induction texts generalizing text with
  | nil => simp
  | cons t texts ih =>
    rw [String.intercalate_cons_cons, ih]
    exact String.toList_inj.mp (by simp)

theorem textOf_below (lines : List UnitLine) :
    textOf symbolOf (below lines) =
      String.ofList ((lines.map (UnitLine.text symbolOf)).flatMap
        fun t => "\n".toList ++ t.toList) := by
  induction lines with
  | nil => rfl
  | cons line lines ih =>
    have hsplit : below (line :: lines) =
        .gap ("\n" ++ indentation line.1) :: (line.2 ++ below lines) := rfl
    rw [hsplit, textOf_cons, textOf_append, ih]
    exact String.toList_inj.mp (by simp [Fragment.text, UnitLine.text])

/-- A unit whose builder holds its lines has the text of its fragments. -/
theorem Builder.unitText_eq_textOf {b : Builder} {head : List Fragment} {body : List UnitLine}
    (hlines : b.lines = (textOf symbolOf head ++ " \x7b") :: body.map (UnitLine.text symbolOf))
    (hindent : b.indent = 1) (returnsZero : Bool) :
    b.unitText returnsZero = textOf symbolOf (unitFragments head body returnsZero) := by
  have hlast : (if returnsZero then [indentation 1 ++ "return 0;"] else []) =
      (if returnsZero then [(1, [.word "return", .gap " 0;"])] else [] : List UnitLine).map
        (UnitLine.text symbolOf) := by
    cases returnsZero
    · rfl
    · simp [UnitLine.text, Fragment.text]
  have hclose : [indentation 0 ++ "\x7d"] =
      [((0, [.gap "\x7d"]) : UnitLine)].map (UnitLine.text symbolOf) := by
    simp [UnitLine.text, Fragment.text]
  rw [unitText, hlines, hindent, hlast, hclose, List.cons_append, List.cons_append,
    ← List.map_append, ← List.map_append, intercalate_cons_eq, unitFragments, textOf_append,
    textOf_cons, textOf_below, String.append_assoc]
  rfl

end Units

/-! ### Runs -/

/-- What is found in a table is found in one that extends it. -/
theorem NameTable.Extends.find?_eq_some {t t' : NameTable} (h : t.Extends t') {name : String}
    {d : Definition} (hd : t.find? name = some d) : t'.find? name = some d := by
  obtain ⟨more, hmore⟩ := h.definitions
  have hfirst : t.definitions.find? (·.name == name) = some d := hd
  rw [find?, ← hmore, List.find?_append, hfirst]
  rfl

theorem NameTable.Names.of_extends {t t' : NameTable} {symbolOf : String → String}
    (h : t'.Names symbolOf) (hextends : t.Extends t') : t.Names symbolOf :=
  fun name d hd => h name d (hextends.find?_eq_some hd)

/-- A function that was just defined has the symbol that it is given later on. -/
theorem NameTable.Names.of_define {t t' t'' : NameTable} {symbolOf : String → String}
    (h : t''.Names symbolOf) (hextends : t'.Extends t'') {name symbol : String} {arity : Int}
    {p : Pos} (hdefine : t.define name arity p = .ok (symbol, t')) : symbolOf name = symbol := by
  refine h.of_extends hextends name ⟨name, symbol, arity, p⟩ ?_
  obtain ⟨hnone, rfl, rfl⟩ := define_eq_ok_iff.mp hdefine
  have hnew : t.definitions.find? (·.name == name) = none := hnone
  simp [find?, hnew]

/-- From one builder to another the lines and the units of a script were added. -/
structure Renders (symbolOf : String → String) (s : Script) (b b' : Builder) : Prop where
  lines : b'.lines = b.lines ++ (s.lines b.indent).map (UnitLine.text symbolOf)
  functions : b'.functions = b.functions ++ s.units.map (textOf symbolOf)

/-- A run that succeeds adds the lines and the units of its script. -/
theorem Script.Runs.renders {symbolOf : String → String} {s : Script} {b b' : Builder}
    (h : Runs s b (.ok () b')) (hnames : b'.names.Names symbolOf) : Renders symbolOf s b b' := by
  generalize hr : (EStateM.Result.ok () b' : EStateM.Result CodegenError Builder Unit) = r at h
  induction h generalizing b' with
  | skip b =>
    cases hr
    exact ⟨(List.append_nil _).symm, (List.append_nil _).symm⟩
  | @seq s t b b₁ r hs ht ihs iht =>
    subst hr
    have hfirst := ihs (hnames.of_extends ht.grows.names) rfl
    have hsecond := iht hnames rfl
    constructor
    · rw [hsecond.lines, hfirst.lines, hs.lines.2, Script.lines, List.map_append,
        List.append_assoc]
    · rw [hsecond.functions, hfirst.functions, Script.units, List.map_append, List.append_assoc]
  | closing l b =>
    cases hr
    refine ⟨?_, (List.append_nil _).symm⟩
    simp only [Script.lines, List.map_cons, List.map_nil, UnitLine.text, ← l.text_eq_textOf]
    rfl
  | @statement p es form b texts text htexts htext =>
    cases hr
    refine ⟨?_, (List.append_nil _).symm⟩
    have hlower := lowerArgs_eq_textOf hnames htexts
    subst hlower
    simp only [Script.lines, List.map_cons, List.map_nil, UnitLine.text,
      ← LineForm.text_eq_textOf htext]
    rfl
  | @indented s b b₁ _ ih =>
    cases hr
    have hbody := @ih b₁ hnames rfl
    exact ⟨hbody.lines, hbody.functions⟩
  | @define p name symbol head params body names b b₁ returnsZero hname hhead hbody ih =>
    cases hr
    have hinner := @ih b₁ hnames rfl
    have hsymbol : symbolOf name = symbol := hnames.of_define hbody.grows.names hname
    rw [← hsymbol, signature_eq_textOf] at hhead
    subst hhead
    have hunit := Builder.unitText_eq_textOf hinner.lines hbody.lines.2 returnsZero
    refine ⟨(List.append_nil _).symm, ?_⟩
    show b₁.functions ++ [b₁.unitText returnsZero] = _
    rw [hinner.functions, hunit, Script.units, List.map_append, ← List.append_assoc]
    rfl
  | _ => cases hr

/-! ### Programs -/

/-- The symbol of a function of a program, made from its place among the functions. -/
def Program.symbolOf (p : Program) (name : String) : String :=
  NameTable.mangle (NameTable.counting ((p.heads.map FunctionHead.name).idxOf name)) name

/-- The head of the entry unit. -/
def mainHead : List Fragment :=
  [.word "int", .gap " ", .word "main", .gap "(", .word "void", .gap ")"]

/-- The prototypes of functions. -/
def prototypeFragments (heads : List FunctionHead) : List Fragment :=
  joined "\n" (heads.map fun h => headFragments h.name h.params ++ [.gap ";"])

/-- The sections of the C text of a program: the prototypes if there are functions, the units of the
functions and the entry unit. -/
def Program.sections (p : Program) : List (List Fragment) :=
  (if p.heads.isEmpty then [] else [prototypeFragments p.heads]) ++ (stmtsScript false p).units ++
    [unitFragments mainHead ((stmtsScript false p).lines 1) true]

/-- The C text of a program behind the preamble. -/
def Program.fragments (p : Program) : List Fragment :=
  p.sections.flatMap (.gap "\n\n" :: ·) ++ [.gap "\n"]

theorem textOf_sections {symbolOf : String → String} (gap : String) (fss : List (List Fragment)) :
    textOf symbolOf (fss.flatMap (.gap gap :: ·)) =
      String.ofList ((fss.map (textOf symbolOf)).flatMap fun t => gap.toList ++ t.toList) := by
  induction fss with
  | nil => rfl
  | cons fs fss ih =>
    rw [List.flatMap_cons, textOf_append, textOf_cons, ih]
    exact String.toList_inj.mp (by simp [Fragment.text])

/-- Among functions with names of their own, the symbol of each has its number in it. -/
theorem Program.symbolOf_of_mem {p : Program} {h : FunctionHead} {k : Nat}
    (hdistinct : (p.heads.map FunctionHead.name).Nodup) (hmem : (h, k) ∈ p.heads.zipIdx) :
    p.symbolOf h.name = NameTable.mangle (NameTable.counting k) h.name := by
  have hat : p.heads[k]? = some h := List.mem_zipIdx_iff_getElem?.mp hmem
  have hname : (p.heads.map FunctionHead.name)[k]? = some h.name := by
    rw [List.getElem?_map, hat]
    rfl
  obtain ⟨hlt, hget⟩ := List.getElem?_eq_some_iff.mp hname
  have hplace : (p.heads.map FunctionHead.name).idxOf h.name = k := by
    rw [← hget]
    exact hdistinct.idxOf_getElem k hlt
  rw [Program.symbolOf, hplace]

section ToC

variable {p : Program} {finished : List FunctionHead} {b : Builder}

/-- The table that a program leaves has its symbols. -/
theorem Hoists.names_symbolOf
    (h : Hoists p.heads finished (.atMain (.empty NameTable.counting)) b)
    (hdistinct : (p.heads.map FunctionHead.name).Nodup) : b.names.Names p.symbolOf := by
  intro name d hd
  obtain ⟨hmem, rfl⟩ := NameTable.mem_of_find? hd
  rw [h.definitions] at hmem
  have hadded := (List.mem_append.mp hmem).resolve_left List.not_mem_nil
  obtain ⟨⟨head, k⟩, hk, rfl⟩ := List.mem_map.mp hadded
  exact Program.symbolOf_of_mem hdistinct hk

theorem Hoists.prototypes_eq_textOf
    (h : Hoists p.heads finished (.atMain (.empty NameTable.counting)) b)
    (hdistinct : (p.heads.map FunctionHead.name).Nodup) :
    b.prototypes = p.heads.map fun head =>
      textOf p.symbolOf (headFragments head.name head.params ++ [.gap ";"]) := by
  have hempty : (Builder.atMain (.empty NameTable.counting)).prototypes = [] := rfl
  rw [h.prototypes, hempty, List.nil_append]
  conv => rhs; rw [← List.zipIdx_map_fst 0 p.heads, List.map_map]
  refine List.map_congr_left ?_
  rintro ⟨head, k⟩ hk
  show Build.signature (NameTable.mangle (NameTable.counting k) head.name) head.params ++ ";" = _
  rw [← Program.symbolOf_of_mem hdistinct hk, signature_eq_textOf, Function.comp, textOf_append]
  simp [Fragment.text]

/-- The C text of a program is the preamble and the fragments of the program. -/
theorem Program.toC_eq_textOf {text : String} (h : p.toC (.empty NameTable.counting) = .ok text) :
    text = preamble ++ textOf p.symbolOf p.fragments := by
  obtain ⟨b, hruns, rfl⟩ := Program.exists_runs h
  have hhoists : Hoists p.heads p.finished (.atMain (.empty NameTable.counting)) b := by
    have hscript := hruns.hoists
    rwa [stmtsScript_heads, stmtsScript_finished] at hscript
  have hmatched : b.Matched := hruns.matched ⟨NameTable.isRegular_empty _, .nil⟩
  have hdistinct := hhoists.nodup hmatched
  have hrenders := hruns.renders (hhoists.names_symbolOf hdistinct)
  have hprototypes := hhoists.prototypes_eq_textOf hdistinct
  have hmain : b.unitText true =
      textOf p.symbolOf (unitFragments mainHead ((stmtsScript false p).lines 1) true) :=
    Builder.unitText_eq_textOf hrenders.lines hruns.lines.2 true
  have hfunctions : b.functions = (stmtsScript false p).units.map (textOf p.symbolOf) :=
    hrenders.functions
  have hsections : (if b.prototypes.isEmpty then [] else ["\n".intercalate b.prototypes]) =
      (if p.heads.isEmpty then [] else [prototypeFragments p.heads]).map (textOf p.symbolOf) := by
    rw [hprototypes, List.isEmpty_map]
    split
    · rfl
    · rw [List.map_singleton, prototypeFragments, textOf_joined, List.map_map]
      rfl
  rw [Builder.fileText, hsections, hfunctions, hmain, intercalate_cons_eq,
    Program.fragments, textOf_append, textOf_sections, Program.sections, List.map_append,
    List.map_append, String.append_assoc]
  rfl

end ToC

end NumScript
