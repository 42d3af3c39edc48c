import NumScript.Codegen.Program
import NumScript.Proofs.Stmt.Listing

/-!
# NumScript.Proofs.Codegen.Script

What code generation does with a builder, as data. A `Script` is a tree of elementary actions: write
the line of a statement, write a closing line, go one level deeper, define a function. Statements of
all kinds become scripts (`Stmt.script`), and writing statements is running their script
(`Build.stmts_eq_run`).

Everything that is proved about code generation below goes by induction on scripts: they have one
way to follow another and one way to nest, where statements have three that call each other, and
`Script.run` has an equation for each elementary action that says all it can do to a builder.
-/

namespace NumScript

/-! ### Lines -/

/-- What a statement writes around the texts of its expressions. -/
inductive LineForm where
  | print
  | result
  | declare (name : String)
  | assign (name : String)
  | choice
  | orChoice
  | loop
  | count (var : String)

namespace LineForm

/-- The line with the given texts in it. All forms but the counting loop take one text. -/
def text : LineForm → List String → Except CodegenError String
  | .print, [t] => .ok ("print_number(" ++ t ++ ");")
  | .result, [t] => .ok ("return " ++ t ++ ";")
  | .declare name, [t] => .ok ("double " ++ safeName name ++ " = " ++ t ++ ";")
  | .assign name, [t] => .ok (safeName name ++ " = " ++ t ++ ";")
  | .choice, [t] => .ok ("if (" ++ t ++ ") \x7b")
  | .orChoice, [t] => .ok ("\x7d else if (" ++ t ++ ") \x7b")
  | .loop, [t] => .ok ("while (" ++ t ++ ") \x7b")
  | .count var, ts => countHeader (safeName var) ts
  | _, ts => .error (.boundCount ts.length)

end LineForm

/-- A line that ends a body. -/
inductive Closing where
  | close
  | orElse

/-- The text of a line that ends a body. -/
def Closing.text : Closing → String
  | .close => "\x7d"
  | .orElse => "\x7d else \x7b"

/-! ### Scripts -/

/-- Elementary actions on a builder. -/
inductive Script where
  /-- Nothing. -/
  | skip
  /-- One script and then another. -/
  | seq (first second : Script)
  /-- A line that ends a body. -/
  | closing (line : Closing)
  /-- The line of the statement at `pos`, with these expressions in it. -/
  | statement (pos : Pos) (exprs : List Expr) (form : LineForm)
  /-- A script one level deeper. -/
  | indented (body : Script)
  /-- The definition of a function at `pos`. -/
  | define (pos : Pos) (name : String) (params : List String) (returnsZero : Bool) (body : Script)
  /-- The missing statement at `pos`. -/
  | hole (pos : Pos)

mutual

/-- The script of a statement. `returns` marks the last one of a function. -/
def Stmt.script (returns : Bool) : Stmt → Script
  | .expr p value => .statement p [value] (if returns then .result else .print)
  | .declare p name value => .statement p [value] (.declare name)
  | .assign p name value => .statement p [value] (.assign name)
  | .branch p cond body rest =>
    .seq (.statement p [cond] .choice) (.seq (.indented (stmtsScript false body)) (elseScript rest))
  | .loop p cond body =>
    .seq (.statement p [cond] .loop)
      (.seq (.indented (stmtsScript false body)) (.closing .close))
  | .count p var bounds body =>
    .seq (.statement p bounds (.count var))
      (.seq (.indented (stmtsScript false body)) (.closing .close))
  | .define p name params body =>
    .define p name params (!endsInExpr body) (stmtsScript true body)
  | .hole p => .hole p

/-- The script of statements in order. `returns` says whether they are the body of a function. -/
def stmtsScript (returns : Bool) : List Stmt → Script
  | [] => .skip
  | s :: ss => .seq (s.script (returns && ss.isEmpty)) (stmtsScript returns ss)

/-- The script of what follows the first body of a choice. -/
def elseScript : Option (List Stmt) → Script
  | none => .closing .close
  | some [.branch p cond body rest] =>
    .seq (.statement p [cond] .orChoice)
      (.seq (.indented (stmtsScript false body)) (elseScript rest))
  | some body =>
    .seq (.closing .orElse) (.seq (.indented (stmtsScript false body)) (.closing .close))

end

/-! ### Pieces -/

/-- What a statement holds itself, without the statements in its bodies. -/
inductive Piece where
  | exprs (pos : Pos) (names : List String) (exprs : List Expr)
  | head (pos : Pos) (name : String) (params : List String)
  | hole (pos : Pos)

/-- What a statement holds itself. -/
def Stmt.piece : Stmt → Piece
  | .expr p value => .exprs p [] [value]
  | .declare p name value => .exprs p [name] [value]
  | .assign p name value => .exprs p [name] [value]
  | .branch p cond _ _ => .exprs p [] [cond]
  | .count p var bounds _ => .exprs p [var] bounds
  | .loop p cond _ => .exprs p [] [cond]
  | .define p name params _ => .head p name params
  | .hole p => .hole p

/-- The names of variables in a line of the form. -/
def LineForm.names : LineForm → List String
  | .print => []
  | .result => []
  | .declare name => [name]
  | .assign name => [name]
  | .choice => []
  | .orChoice => []
  | .loop => []
  | .count var => [var]

/-- What the statements of a script hold, in order. -/
def Script.pieces : Script → List Piece
  | .skip => []
  | .seq first second => first.pieces ++ second.pieces
  | .closing _ => []
  | .statement p es form => [.exprs p form.names es]
  | .indented body => body.pieces
  | .define p name params _ body => .head p name params :: body.pieces
  | .hole p => [.hole p]

mutual

theorem Stmt.script_pieces (returns : Bool) : ∀ s : Stmt,
    (s.script returns).pieces = s.listing.map Stmt.piece
  | .expr _ _ => by cases returns <;> rfl
  | .declare _ _ _ => rfl
  | .assign _ _ _ => rfl
  | .branch _ _ body rest => by
    simp [Stmt.script, Script.pieces, Stmt.listing, Stmt.piece, LineForm.names,
      stmtsScript_pieces false body, elseScript_pieces rest]
  | .count _ _ _ body => by
    simp [Stmt.script, Script.pieces, Stmt.listing, Stmt.piece, LineForm.names,
      stmtsScript_pieces false body]
  | .loop _ _ body => by
    simp [Stmt.script, Script.pieces, Stmt.listing, Stmt.piece, LineForm.names,
      stmtsScript_pieces false body]
  | .define _ _ _ body => by
    simp [Stmt.script, Script.pieces, Stmt.listing, Stmt.piece, stmtsScript_pieces true body]
  | .hole _ => rfl
termination_by s => sizeOf s

/-- The script of statements goes through them in the order of their listing. -/
theorem stmtsScript_pieces (returns : Bool) : ∀ ss : List Stmt,
    (stmtsScript returns ss).pieces = (listings ss).map Stmt.piece
  | [] => rfl
  | s :: ss => by
    simp [stmtsScript, Script.pieces, listings, Stmt.script_pieces _ s,
      stmtsScript_pieces returns ss]
termination_by ss => sizeOf ss

theorem elseScript_pieces : ∀ o : Option (List Stmt),
    (elseScript o).pieces = (elseListing o).map Stmt.piece
  | o => by
    rw [elseScript.eq_def]
    split
    · rfl
    · -- a chain has another form of line, but the same piece
      rename_i p cond body rest
      simp [Script.pieces, elseListing, listings, Stmt.listing, Stmt.piece, LineForm.names,
        stmtsScript_pieces false body, elseScript_pieces rest]
    · rename_i body _
      simp [Script.pieces, elseListing, stmtsScript_pieces false body]
termination_by o => sizeOf o

end

/-! ### Running a script -/

/-- Performs the actions of a script. -/
def Script.run : Script → Build Unit
  | .skip => pure ()
  | .seq first second => do
    first.run
    second.run
  | .closing l => Build.line l.text
  | .statement p es form => do
    Build.enter p
    let texts ← Build.exprs es
    Build.line (← Build.ofExcept (form.text texts))
  | .indented body => Build.indented body.run
  | .define p name params returnsZero body => do
    Build.enter p
    let text ← Build.function (some p) name params returnsZero body.run
    modify fun b => { b with functions := b.functions ++ [text] }
  | .hole p => do
    Build.enter p
    throw .stmtHole

namespace Build

/-- Expressions of which there is one are that expression. -/
theorem exprs_singleton (e : Expr) : exprs [e] = (do let v ← expr e; pure [v]) := by
  funext b
  show ofExcept (lowerArgs b.names b.pos [e]) b =
    (ofExcept (e.lower b.names b.pos) >>= fun v => pure [v]) b
  cases h : e.lower b.names b.pos <;> simp [lowerArgs, h] <;> rfl

/-- The line of a statement with one expression. -/
theorem run_statement_singleton (p : Pos) (e : Expr) (form : LineForm) :
    (Script.statement p [e] form).run =
      (do enter p; let v ← expr e; line (← ofExcept (form.text [v]))) := by
  simp only [Script.run, exprs_singleton, bind_assoc, pure_bind]

mutual

/-- Writing a statement is running its script. -/
theorem stmt_eq_run (returns : Bool) (s : Stmt) : stmt returns s = (s.script returns).run := by
  cases s with
  | expr p value =>
    rw [stmt, Stmt.script, run_statement_singleton]
    cases returns <;> rfl
  | declare p name value => rw [stmt, Stmt.script, run_statement_singleton]; rfl
  | assign p name value => rw [stmt, Stmt.script, run_statement_singleton]; rfl
  | branch p cond body rest =>
    rw [stmt, Stmt.script, Script.run, run_statement_singleton, stmts_eq_run, otherwise_eq_run]
    simp only [bind_assoc]
    rfl
  | loop p cond body =>
    rw [stmt, Stmt.script, Script.run, run_statement_singleton, stmts_eq_run]
    simp only [bind_assoc]
    rfl
  | count p var bounds body =>
    rw [stmt, Stmt.script, stmts_eq_run]
    simp only [Script.run, bind_assoc]
    rfl
  | define p name params body => rw [stmt, Stmt.script, Script.run, stmts_eq_run]
  | hole p => rw [stmt, Stmt.script, Script.run]
termination_by sizeOf s

/-- Writing statements is running their script. -/
theorem stmts_eq_run (returns : Bool) (ss : List Stmt) :
    stmts returns ss = (stmtsScript returns ss).run := by
  cases ss with
  | nil => rw [stmts, stmtsScript, Script.run]
  | cons s ss => rw [stmts, stmtsScript, Script.run, stmt_eq_run, stmts_eq_run]
termination_by sizeOf ss

/-- Writing what follows the first body of a choice is running its script. -/
theorem otherwise_eq_run (o : Option (List Stmt)) : otherwise o = (elseScript o).run := by
  rw [otherwise.eq_def]
  split
  · rfl
  · -- the chain goes on
    rename_i p cond body rest
    rw [elseScript, Script.run, run_statement_singleton, stmts_eq_run, otherwise_eq_run]
    simp only [bind_assoc]
    rfl
  · rename_i body hbody
    rw [stmts_eq_run, elseScript.eq_3 body hbody]
    rfl
termination_by sizeOf o

end

end Build

/-! ### What the actions do to a builder -/

/-- The blanks in front of a line at the given level. -/
def indentation (level : Nat) : String := String.ofList (List.replicate (4 * level) ' ')

namespace Builder

/-- The builder at the statement that starts at `p`. -/
def moveTo (b : Builder) (p : Pos) : Builder := { b with pos := p }

/-- The builder one level deeper. -/
def deeper (b : Builder) : Builder := { b with indent := b.indent + 1 }

/-- The builder one level up. -/
def back (b : Builder) : Builder := { b with indent := b.indent - 1 }

/-- The builder with one more line in its unit. -/
def addLine (b : Builder) (text : String) : Builder :=
  { b with lines := b.lines ++ [indentation b.indent ++ text] }

/-- The builder with one more prototype, for a function that has just been added to `names`. -/
def declare (b : Builder) (names : NameTable) (head : String) : Builder :=
  { b with names := names, prototypes := b.prototypes ++ [head ++ ";"] }

/-- The builder at the start of a new unit. -/
def openUnit (b : Builder) (header : String) : Builder := { b with lines := [header], indent := 1 }

/-- The builder at the start of the unit of a function that was just defined at `p`. -/
def openFunction (b : Builder) (p : Pos) (names : NameTable) (head : String) : Builder :=
  ((b.moveTo p).declare names head).openUnit (head ++ " \x7b")

/-- The builder with one more finished function. -/
def addFunction (b : Builder) (text : String) : Builder :=
  { b with functions := b.functions ++ [text] }

/-- The builder back in the unit `outer`. -/
def backTo (b outer : Builder) : Builder := { b with lines := outer.lines, indent := outer.indent }

/-- The text of the finished unit. -/
def unitText (b : Builder) (returnsZero : Bool) : String :=
  "\n".intercalate (b.lines ++ (if returnsZero then [indentation b.indent ++ "return 0;"] else [])
    ++ [indentation (b.indent - 1) ++ "\x7d"])

/-- The whole text, with `main` as its entry unit. -/
def fileText (b : Builder) (main : String) : String :=
  "\n\n".intercalate (preamble ::
    ((if b.prototypes.isEmpty then [] else ["\n".intercalate b.prototypes]) ++ b.functions
      ++ [main])) ++ "\n"

end Builder

namespace Build

theorem bind_ok {α β : Type} {x : Build α} {f : α → Build β} {b b' : Builder} {a : α}
    (h : x b = .ok a b') : (x >>= f) b = f a b' := by
  show EStateM.bind x f b = _
  rw [EStateM.bind, h]

theorem bind_error {α β : Type} {x : Build α} {f : α → Build β} {b b' : Builder} {e : CodegenError}
    (h : x b = .error e b') : (x >>= f) b = .error e b' := by
  show EStateM.bind x f b = _
  rw [EStateM.bind, h]

theorem line_apply (text : String) (b : Builder) : line text b = .ok () (b.addLine text) := rfl

theorem indented_ok {action : Build Unit} {b b' : Builder}
    (h : action b.deeper = .ok () b') :
    indented action b = .ok () b'.back := by
  show (action >>= fun _ => modify Builder.back) b.deeper = _
  rw [bind_ok h]
  rfl

theorem indented_error {action : Build Unit} {b b' : Builder} {e : CodegenError}
    (h : action b.deeper = .error e b') :
    indented action b = .error e b' := by
  show (action >>= fun _ => modify Builder.back) b.deeper = _
  rw [bind_error h]

/-- Finishes a unit and goes back to `outer`. -/
def finishUnit (outer : Builder) : Build String := do
  line "\x7d"
  let inner ← get
  set (inner.backTo outer)
  return "\n".intercalate inner.lines

/-- A unit starts with its header. -/
theorem unit_eq_bind (header : String) (returnsZero : Bool) (body : Build Unit) (b : Builder) :
    unit header returnsZero body b =
      (indented (do body; if returnsZero then line "return 0;") >>= fun _ => finishUnit b)
        { b with lines := [header], indent := 0 } := by
  have hheader : ({ b with lines := [], indent := 0 } : Builder).addLine header =
      { b with lines := [header], indent := 0 } := by
    simp [Builder.addLine, indentation]
  have hopen : unit header returnsZero body b =
      (line header >>= fun _ =>
        indented (do body; if returnsZero then line "return 0;") >>= fun _ => finishUnit b)
        { b with lines := [], indent := 0 } := by
    refine (bind_ok (rfl : (get : Build Builder) b = .ok b b)).trans ?_
    exact bind_ok (rfl : (set _ : Build Unit) b = .ok () _)
  rw [hopen, bind_ok (line_apply header _), hheader]

theorem unit_ok {header : String} {returnsZero : Bool} {body : Build Unit} {b b' : Builder}
    (h : body (b.openUnit header) = .ok () b') :
    unit header returnsZero body b = .ok (b'.unitText returnsZero) (b'.backTo b) := by
  have hfinish : ∀ closed : Builder, finishUnit b closed =
      .ok ("\n".intercalate (closed.addLine "\x7d").lines) (closed.backTo b) := fun _ => rfl
  rw [unit_eq_bind]
  cases returnsZero with
  | true =>
    have hbody : (do body; if true then line "return 0;" : Build Unit) (b.openUnit header) =
        .ok () (b'.addLine "return 0;") := bind_ok h
    rw [bind_ok (indented_ok hbody), hfinish]
    rfl
  | false =>
    have hbody : (do body; if false then line "return 0;" : Build Unit) (b.openUnit header) =
        .ok () b' := bind_ok h
    rw [bind_ok (indented_ok hbody), hfinish]
    simp [Builder.unitText, Builder.addLine, Builder.backTo, Builder.back]

theorem unit_error {header : String} {returnsZero : Bool} {body : Build Unit} {b b' : Builder}
    {e : CodegenError} (h : body (b.openUnit header) = .error e b') :
    unit header returnsZero body b = .error e b' := by
  rw [unit_eq_bind, bind_error (indented_error (bind_error h))]

theorem function_eq_unit {pos? : Option Pos} {name symbol : String} {params : List String}
    {names : NameTable} {b : Builder}
    (h : b.names.define name params.length (pos?.getD b.pos) = .ok (symbol, names))
    (returnsZero : Bool) (body : Build Unit) :
    function pos? name params returnsZero body b =
      unit (signature symbol params ++ " \x7b") returnsZero body
        (b.declare names (signature symbol params)) := by
  show (ofExcept (b.names.define name params.length (pos?.getD b.pos)) >>= _) b = _
  rw [h]
  rfl

theorem function_error {pos? : Option Pos} {name : String} {params : List String} {b : Builder}
    {e : CodegenError} (h : b.names.define name params.length (pos?.getD b.pos) = .error e)
    (returnsZero : Bool) (body : Build Unit) :
    function pos? name params returnsZero body b = .error e b := by
  show (ofExcept (b.names.define name params.length (pos?.getD b.pos)) >>= _) b = _
  rw [h]
  rfl

theorem entry_eq_unit (p : Program) :
    entry p = unit "int main(void) \x7b" true (stmtsScript false p).run := by
  rw [entry, stmts_eq_run]

theorem program_ok {p : Program} {b b' : Builder}
    (h : (stmtsScript false p).run (b.openUnit "int main(void) \x7b") = .ok () b') :
    program p b = .ok (b'.fileText (b'.unitText true)) (b'.backTo b) := by
  have hentry : entry p b = _ := (congrFun (entry_eq_unit p) b).trans (unit_ok h)
  rw [program, bind_ok hentry]
  rfl

theorem program_error {p : Program} {b b' : Builder} {e : CodegenError}
    (h : (stmtsScript false p).run (b.openUnit "int main(void) \x7b") = .error e b') :
    program p b = .error e b' := by
  have hentry : entry p b = _ := (congrFun (entry_eq_unit p) b).trans (unit_error h)
  rw [program, bind_error hentry]

end Build

/-- The builder that a program starts with. -/
def Builder.atMain (names : NameTable) : Builder :=
  (Builder.start names).openUnit "int main(void) \x7b"

theorem Program.toC_of_ok {names : NameTable} {p : Program} {b : Builder}
    (h : (stmtsScript false p).run (.atMain names) = .ok () b) :
    Program.toC names p = .ok (b.fileText (b.unitText true)) := by
  have hrun : (Build.program p).run (.start names) = _ := Build.program_ok h
  rw [Program.toC, hrun]

theorem Program.toC_of_error {names : NameTable} {p : Program} {b : Builder} {e : CodegenError}
    (h : (stmtsScript false p).run (.atMain names) = .error e b) :
    Program.toC names p = .error e := by
  have hrun : (Build.program p).run (.start names) = _ := Build.program_error h
  rw [Program.toC, hrun]

/-! ### Runs -/

namespace Script

/-- `Runs s b r`: run on the builder `b`, the script `s` comes to `r`, a builder or an error with
the builder that it leaves. -/
inductive Runs : Script → Builder → EStateM.Result CodegenError Builder Unit → Prop
  | skip (b : Builder) : Runs .skip b (.ok () b)
  | seq {s t : Script} {b b' : Builder} {r : EStateM.Result CodegenError Builder Unit}
      (hs : Runs s b (.ok () b')) (ht : Runs t b' r) : Runs (.seq s t) b r
  | seqFails {s : Script} {b b' : Builder} {e : CodegenError} (t : Script)
      (hs : Runs s b (.error e b')) : Runs (.seq s t) b (.error e b')
  | closing (l : Closing) (b : Builder) : Runs (.closing l) b (.ok () (b.addLine l.text))
  | statement {p : Pos} {es : List Expr} {form : LineForm} {b : Builder} {texts : List String}
      {text : String} (htexts : lowerArgs b.names p es = .ok texts)
      (htext : form.text texts = .ok text) :
      Runs (.statement p es form) b (.ok () ((b.moveTo p).addLine text))
  | exprsFail {p : Pos} {es : List Expr} {b : Builder} {e : CodegenError} (form : LineForm)
      (h : lowerArgs b.names p es = .error e) :
      Runs (.statement p es form) b (.error e (b.moveTo p))
  | formFails {p : Pos} {es : List Expr} {form : LineForm} {b : Builder} {texts : List String}
      {e : CodegenError} (htexts : lowerArgs b.names p es = .ok texts)
      (h : form.text texts = .error e) : Runs (.statement p es form) b (.error e (b.moveTo p))
  | indented {s : Script} {b b' : Builder} (hs : Runs s b.deeper (.ok () b')) :
      Runs (.indented s) b (.ok () b'.back)
  | indentedFails {s : Script} {b b' : Builder} {e : CodegenError}
      (hs : Runs s b.deeper (.error e b')) : Runs (.indented s) b (.error e b')
  | define {p : Pos} {name symbol head : String} {params : List String} {body : Script}
      {names : NameTable} {b b' : Builder} (returnsZero : Bool)
      (hname : b.names.define name params.length p = .ok (symbol, names))
      (hhead : head = Build.signature symbol params)
      (hbody : Runs body (b.openFunction p names head) (.ok () b')) :
      Runs (.define p name params returnsZero body) b
        (.ok () ((b'.backTo b).addFunction (b'.unitText returnsZero)))
  | defineFails {p : Pos} {name symbol head : String} {params : List String} {body : Script}
      {names : NameTable} {b b' : Builder} {e : CodegenError} (returnsZero : Bool)
      (hname : b.names.define name params.length p = .ok (symbol, names))
      (hhead : head = Build.signature symbol params)
      (hbody : Runs body (b.openFunction p names head) (.error e b')) :
      Runs (.define p name params returnsZero body) b (.error e b')
  | redefined {p : Pos} {name : String} {params : List String} {b : Builder} {e : CodegenError}
      (returnsZero : Bool) (body : Script)
      (hname : b.names.define name params.length p = .error e) :
      Runs (.define p name params returnsZero body) b (.error e (b.moveTo p))
  | hole (p : Pos) (b : Builder) : Runs (.hole p) b (.error .stmtHole (b.moveTo p))

theorem run_statement (p : Pos) (es : List Expr) (form : LineForm) (b : Builder) :
    (statement p es form).run b =
      (Build.ofExcept (lowerArgs b.names p es) >>= fun texts =>
        Build.ofExcept (form.text texts) >>= Build.line) (b.moveTo p) := rfl

theorem run_define (p : Pos) (name : String) (params : List String) (returnsZero : Bool)
    (body : Script) (b : Builder) :
    (define p name params returnsZero body).run b =
      (Build.function (some p) name params returnsZero body.run >>= fun text =>
        modify (·.addFunction text)) (b.moveTo p) := rfl

/-- Every run is described. -/
theorem runs_run : ∀ (s : Script) (b : Builder), Runs s b (s.run b)
  | .skip, b => .skip b
  | .seq s t, b => by
    have hs := runs_run s b
    rw [run]
    cases h : s.run b with
    | ok u b' =>
      rw [h] at hs
      rw [Build.bind_ok h]
      exact .seq hs (runs_run t b')
    | error e b' =>
      rw [h] at hs
      rw [Build.bind_error h]
      exact .seqFails t hs
  | .closing l, b => .closing l b
  | .statement p es form, b => by
    rw [run_statement]
    cases htexts : lowerArgs b.names p es with
    | error e => exact .exprsFail form htexts
    | ok texts =>
      show Runs _ b ((Build.ofExcept (form.text texts) >>= Build.line) (b.moveTo p))
      cases htext : form.text texts with
      | error e => exact .formFails htexts htext
      | ok text => exact .statement htexts htext
  | .indented s, b => by
    have hs := runs_run s b.deeper
    rw [run]
    cases h : s.run b.deeper with
    | ok u b' =>
      rw [h] at hs
      rw [Build.indented_ok h]
      exact .indented hs
    | error e b' =>
      rw [h] at hs
      rw [Build.indented_error h]
      exact .indentedFails hs
  | .define p name params returnsZero body, b => by
    rw [run_define]
    cases hname : b.names.define name params.length p with
    | error e =>
      rw [Build.bind_error (Build.function_error hname returnsZero body.run)]
      exact .redefined returnsZero body hname
    | ok defined =>
      obtain ⟨symbol, names⟩ := defined
      have hfunction : Build.function (some p) name params returnsZero body.run (b.moveTo p) = _ :=
        Build.function_eq_unit hname returnsZero body.run
      have hbody := runs_run body (b.openFunction p names (Build.signature symbol params))
      cases h : body.run (b.openFunction p names (Build.signature symbol params)) with
      | ok u b' =>
        rw [h] at hbody
        rw [Build.bind_ok (hfunction.trans (Build.unit_ok h))]
        exact .define returnsZero hname rfl hbody
      | error e b' =>
        rw [h] at hbody
        rw [Build.bind_error (hfunction.trans (Build.unit_error h))]
        exact .defineFails returnsZero hname rfl hbody
  | .hole p, b => .hole p b

/-- A run comes to nothing else than what is described. -/
theorem Runs.run_eq {s : Script} {b : Builder} {r : EStateM.Result CodegenError Builder Unit}
    (h : Runs s b r) : s.run b = r := by
  induction h with
  | skip b => rfl
  | seq _ _ ihs iht =>
    rw [run, Build.bind_ok ihs]
    exact iht
  | seqFails t _ ih => exact Build.bind_error ih
  | closing l b => rfl
  | @statement p es form b texts text htexts htext =>
    rw [run_statement, htexts]
    show (Build.ofExcept (form.text texts) >>= Build.line) (b.moveTo p) = _
    rw [htext]
    rfl
  | exprsFail form herror =>
    rw [run_statement, herror]
    rfl
  | @formFails p es form b texts e htexts herror =>
    rw [run_statement, htexts]
    show (Build.ofExcept (form.text texts) >>= Build.line) (b.moveTo p) = _
    rw [herror]
    rfl
  | indented _ ih => exact Build.indented_ok ih
  | indentedFails _ ih => exact Build.indented_error ih
  | @define p name _ _ params body _ b _ returnsZero hname hhead _ ih =>
    subst hhead
    have hfunction : Build.function (some p) name params returnsZero body.run (b.moveTo p) = _ :=
      (Build.function_eq_unit hname returnsZero body.run).trans (Build.unit_ok ih)
    rw [run_define, Build.bind_ok hfunction]
    rfl
  | @defineFails p name _ _ params body _ b _ _ returnsZero hname hhead _ ih =>
    subst hhead
    have hfunction : Build.function (some p) name params returnsZero body.run (b.moveTo p) = _ :=
      (Build.function_eq_unit hname returnsZero body.run).trans (Build.unit_error ih)
    rw [run_define, Build.bind_error hfunction]
  | redefined returnsZero body hname =>
    rw [run_define, Build.bind_error (Build.function_error hname returnsZero body.run)]
  | hole p b => rfl

end Script

/-- A program that has a C text is run to its end, and the text is that of the builder it leaves. -/
theorem Program.exists_runs {names : NameTable} {p : Program} {text : String}
    (h : p.toC names = .ok text) :
    ∃ b, (stmtsScript false p).Runs (.atMain names) (.ok () b) ∧
      text = b.fileText (b.unitText true) := by
  have hruns := Script.runs_run (stmtsScript false p) (.atMain names)
  cases hrun : (stmtsScript false p).run (.atMain names) with
  | error e b => rw [Program.toC_of_error hrun] at h; cases h
  | ok _ b =>
    rw [Program.toC_of_ok hrun] at h
    exact ⟨b, hrun ▸ hruns, (Except.ok.inj h).symm⟩

end NumScript
