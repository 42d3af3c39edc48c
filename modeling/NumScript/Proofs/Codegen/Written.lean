import NumScript.Proofs.Codegen.Growth
import NumScript.Proofs.Stmt.Complete

/-!
# NumScript.Proofs.Codegen.Written

Where the text that code generation writes comes from. `ExprText` says how the text of an expression
is put together, `LineText` that of a line and `Written` that of everything else, up to the whole
file. In all of them a call is a call of a function that is defined, with as many arguments as the
function has parameters, and a variable has a name that is taken from the source.

All that a run of a script leaves in the builder is written so, whether it succeeds or fails
(`Script.Runs.written`). An unfinished unit is no exception: its lines stay in the builder, and the
functions that they call are defined there.
-/

namespace NumScript

/-! ### Names in the source -/

mutual

/-- The names in an expression. -/
def Expr.names : Expr → List String
  | .number _ => []
  | .ident name => [name]
  | .call name args => name :: namesOf args
  | .binary _ left right => left.names ++ right.names
  | .pair left right => left.names ++ right.names
  | .hole => []

/-- The names in expressions. -/
def namesOf : List Expr → List String
  | [] => []
  | e :: es => e.names ++ namesOf es

end

/-- The names in a statement, without those in the statements of its bodies. -/
def Stmt.ownNames : Stmt → List String
  | .expr _ value => value.names
  | .declare _ name value => name :: value.names
  | .assign _ name value => name :: value.names
  | .branch _ cond _ _ => cond.names
  | .count _ var bounds _ => var :: namesOf bounds
  | .loop _ cond _ => cond.names
  | .define _ name params _ => name :: params
  | .hole _ => []

/-- The names in statements, at any depth. -/
def stmtsNames (ss : List Stmt) : List String := (listings ss).flatMap Stmt.ownNames

/-! ### Texts -/

/-- Texts of expressions, with variables named by `isName` and calls of the functions in `defs`. -/
inductive ExprText (defs : List Definition) (isName : String → Prop) : String → Prop
  | number (v : Double) : ExprText defs isName v.literal
  | ident {x : String} (hx : isName x) : ExprText defs isName (safeName x)
  | call {d : Definition} {args : List String} (hd : d ∈ defs) (harity : d.arity = args.length)
      (hargs : ∀ a ∈ args, ExprText defs isName a) :
      ExprText defs isName (d.symbol ++ "(" ++ ", ".intercalate args ++ ")")
  | binary (o : Operator) {left right : String} (hleft : ExprText defs isName left)
      (hright : ExprText defs isName right) : ExprText defs isName (o.apply left right)
  | pair {left right : String} (hleft : ExprText defs isName left)
      (hright : ExprText defs isName right) :
      ExprText defs isName ("(" ++ left ++ "  " ++ right ++ ")")

/-- Texts of lines, without the blanks in front of them. -/
inductive LineText (defs : List Definition) (isName : String → Prop) : String → Prop
  | statement {form : LineForm} {texts : List String} {text : String}
      (hnames : ∀ x ∈ form.names, isName x) (htexts : ∀ t ∈ texts, ExprText defs isName t)
      (htext : form.text texts = .ok text) : LineText defs isName text
  | closing (l : Closing) : LineText defs isName l.text
  | returnsZero : LineText defs isName "return 0;"
  | main : LineText defs isName "int main(void) \x7b"
  | header {d : Definition} {params : List String} (hd : d ∈ defs)
      (harity : d.arity = params.length) (hparams : ∀ x ∈ params, isName x) :
      LineText defs isName (Build.signature d.symbol params ++ " \x7b")
  | prototype {d : Definition} {params : List String} (hd : d ∈ defs)
      (harity : d.arity = params.length) (hparams : ∀ x ∈ params, isName x) :
      LineText defs isName (Build.signature d.symbol params ++ ";")

/-- Texts of any kind. -/
inductive Written (defs : List Definition) (isName : String → Prop) : String → Prop
  | expr {text : String} (h : ExprText defs isName text) : Written defs isName text
  | line {text : String} (level : Nat) (h : LineText defs isName text) :
      Written defs isName (indentation level ++ text)
  | preamble : Written defs isName preamble
  | lines {texts : List String} (h : ∀ t ∈ texts, Written defs isName t) :
      Written defs isName ("\n".intercalate texts)
  | file {texts : List String} (h : ∀ t ∈ texts, Written defs isName t) :
      Written defs isName ("\n\n".intercalate texts ++ "\n")

section Monotone

variable {defs defs' : List Definition} {isName : String → Prop}

/-- A text stays what it is when functions are added. -/
theorem ExprText.mono (hsub : defs ⊆ defs') {text : String} (h : ExprText defs isName text) :
    ExprText defs' isName text := by
  induction h with
  | number v => exact .number v
  | ident hx => exact .ident hx
  | call hd harity _ ih => exact .call (hsub hd) harity ih
  | binary o _ _ ihl ihr => exact .binary o ihl ihr
  | pair _ _ ihl ihr => exact .pair ihl ihr

theorem LineText.mono (hsub : defs ⊆ defs') {text : String} (h : LineText defs isName text) :
    LineText defs' isName text := by
  cases h with
  | statement hnames htexts htext =>
    exact .statement hnames (fun t ht => (htexts t ht).mono hsub) htext
  | closing l => exact .closing l
  | returnsZero => exact .returnsZero
  | main => exact .main
  | header hd harity hparams => exact .header (hsub hd) harity hparams
  | prototype hd harity hparams => exact .prototype (hsub hd) harity hparams

theorem Written.mono (hsub : defs ⊆ defs') {text : String} (h : Written defs isName text) :
    Written defs' isName text := by
  induction h with
  | expr h => exact .expr (h.mono hsub)
  | line level h => exact .line level (h.mono hsub)
  | preamble => exact .preamble
  | lines _ ih => exact .lines ih
  | file _ ih => exact .file ih

end Monotone

/-! ### Expressions -/

section Lowering

variable {names : NameTable} {isName : String → Prop} {p : Pos}

mutual

/-- The text of an expression is put together as it should be. -/
theorem exprText_of_lower : ∀ {e : Expr} {text : String}, (∀ x ∈ e.names, isName x) →
    e.lower names p = .ok text → ExprText names.definitions isName text
  | .number v, _, _, h => by
    cases h
    exact .number v
  | .ident x, _, hnames, h => by
    cases h
    exact .ident (hnames x (by simp [Expr.names]))
  | .call name args, text, hnames, h => by
    rw [Expr.lower] at h
    split at h
    · cases h
    · rename_i d hd
      split at h
      · rename_i harity
        obtain ⟨texts, htexts, hok⟩ := exists_of_bind_eq_ok h
        cases hok
        refine .call (NameTable.mem_of_find? hd).1 (harity.trans ?_)
          (exprTexts_of_lowerArgs (fun x hx => hnames x (by simp [Expr.names, hx])) htexts)
        rw [length_of_lowerArgs htexts]
      · cases h
  | .binary o left right, _, hnames, h => by
    obtain ⟨l, hl, h⟩ := exists_of_bind_eq_ok h
    obtain ⟨r, hr, h⟩ := exists_of_bind_eq_ok h
    cases h
    exact .binary o (exprText_of_lower (fun x hx => hnames x (by simp [Expr.names, hx])) hl)
      (exprText_of_lower (fun x hx => hnames x (by simp [Expr.names, hx])) hr)
  | .pair left right, _, hnames, h => by
    obtain ⟨l, hl, h⟩ := exists_of_bind_eq_ok h
    obtain ⟨r, hr, h⟩ := exists_of_bind_eq_ok h
    cases h
    exact .pair (exprText_of_lower (fun x hx => hnames x (by simp [Expr.names, hx])) hl)
      (exprText_of_lower (fun x hx => hnames x (by simp [Expr.names, hx])) hr)
  | .hole, _, _, h => by cases h

theorem exprTexts_of_lowerArgs : ∀ {es : List Expr} {texts : List String},
    (∀ x ∈ namesOf es, isName x) → lowerArgs names p es = .ok texts →
    ∀ t ∈ texts, ExprText names.definitions isName t
  | [], _, _, h => by
    cases h
    simp
  | e :: es, _, hnames, h => by
    obtain ⟨text, htext, h⟩ := exists_of_bind_eq_ok h
    obtain ⟨texts, htexts, h⟩ := exists_of_bind_eq_ok h
    cases h
    intro t ht
    rcases List.mem_cons.mp ht with rfl | ht
    · exact exprText_of_lower (fun x hx => hnames x (by simp [namesOf, hx])) htext
    · exact exprTexts_of_lowerArgs (fun x hx => hnames x (by simp [namesOf, hx])) htexts t ht

end

end Lowering

/-! ### Builders -/

theorem LineText.written {defs : List Definition} {isName : String → Prop} {text : String}
    (h : LineText defs isName text) : Written defs isName text := by
  have hline : indentation 0 ++ text = text := by simp [indentation]
  exact hline ▸ .line 0 h

namespace Builder

/-- All texts in the builder are written as they should be, and the functions have names that are
taken from the source. -/
structure IsWritten (isName : String → Prop) (b : Builder) : Prop where
  named : ∀ d ∈ b.names.definitions, isName d.name
  lines : ∀ t ∈ b.lines, Written b.names.definitions isName t
  functions : ∀ t ∈ b.functions, Written b.names.definitions isName t
  prototypes : ∀ t ∈ b.prototypes, Written b.names.definitions isName t

variable {isName : String → Prop} {b : Builder}

theorem IsWritten.addLine (hb : b.IsWritten isName) {text : String}
    (h : LineText b.names.definitions isName text) : (b.addLine text).IsWritten isName := by
  refine ⟨hb.named, ?_, hb.functions, hb.prototypes⟩
  intro t ht
  rcases List.mem_append.mp ht with ht | ht
  · exact hb.lines t ht
  · rw [List.mem_singleton.mp ht]
    exact .line b.indent h

/-- The lines of a unit may be dropped for those of another one. -/
theorem IsWritten.openUnit (hb : b.IsWritten isName) {header : String}
    (h : LineText b.names.definitions isName header) : (b.openUnit header).IsWritten isName := by
  refine ⟨hb.named, ?_, hb.functions, hb.prototypes⟩
  intro t ht
  rw [List.mem_singleton.mp ht]
  exact h.written

/-- A function is declared with the names in its head. -/
theorem exists_declared {name symbol : String} {params : List String} {p : Pos}
    {names names' : NameTable} (h : names.define name params.length p = .ok (symbol, names')) :
    ∃ d ∈ names'.definitions, d.arity = params.length ∧ d.symbol = symbol := by
  obtain ⟨-, -, rfl⟩ := NameTable.define_eq_ok_iff.mp h
  exact ⟨_, List.mem_append_right _ (List.mem_singleton_self _), rfl, rfl⟩

theorem IsWritten.declare (hb : b.IsWritten isName) {name symbol : String}
    {params : List String} {p : Pos} {names : NameTable} (hnames : ∀ x ∈ name :: params, isName x)
    (hname : b.names.define name params.length p = .ok (symbol, names)) :
    (b.declare names (Build.signature symbol params)).IsWritten isName := by
  have hsub : b.names.definitions ⊆ names.definitions :=
    (NameTable.extends_of_define hname).definitions.subset
  refine ⟨?_, fun t ht => (hb.lines t ht).mono hsub, fun t ht => (hb.functions t ht).mono hsub, ?_⟩
  · obtain ⟨-, -, rfl⟩ := NameTable.define_eq_ok_iff.mp hname
    intro d hd
    rcases List.mem_append.mp hd with hd | hd
    · exact hb.named d hd
    · rw [List.mem_singleton.mp hd]
      exact hnames name List.mem_cons_self
  · obtain ⟨d, hd, harity, rfl⟩ := exists_declared hname
    intro t ht
    rcases List.mem_append.mp ht with ht | ht
    · exact (hb.prototypes t ht).mono hsub
    · rw [List.mem_singleton.mp ht]
      exact (LineText.prototype hd harity fun x hx => hnames x (List.mem_cons_of_mem _ hx)).written

/-- The head of a function that was just declared is written with a brace. -/
theorem header_lineText {name symbol : String} {params : List String} {p : Pos}
    {names names' : NameTable} (hparams : ∀ x ∈ params, isName x)
    (h : names.define name params.length p = .ok (symbol, names')) :
    LineText names'.definitions isName (Build.signature symbol params ++ " \x7b") := by
  obtain ⟨d, hd, harity, rfl⟩ := exists_declared h
  exact .header hd harity hparams

theorem IsWritten.openFunction (hb : b.IsWritten isName) {name symbol : String}
    {params : List String} {p : Pos} {names : NameTable} (hnames : ∀ x ∈ name :: params, isName x)
    (hname : b.names.define name params.length p = .ok (symbol, names)) :
    (b.openFunction p names (Build.signature symbol params)).IsWritten isName :=
  have hdeclared := hb.declare hnames hname
  have hopen := hdeclared.openUnit
    (header_lineText (fun x hx => hnames x (List.mem_cons_of_mem _ hx)) hname)
  ⟨hopen.named, hopen.lines, hopen.functions, hopen.prototypes⟩

theorem IsWritten.unitText (hb : b.IsWritten isName) (returnsZero : Bool) :
    Written b.names.definitions isName (b.unitText returnsZero) := by
  refine .lines ?_
  intro t ht
  rcases List.mem_append.mp ht with ht | ht
  · rcases List.mem_append.mp ht with ht | ht
    · exact hb.lines t ht
    · cases returnsZero with
      | true =>
        rw [List.mem_singleton.mp ht]
        exact .line b.indent .returnsZero
      | false => exact absurd ht List.not_mem_nil
  · rw [List.mem_singleton.mp ht]
    exact .line (b.indent - 1) (.closing .close)

/-- The unit around a finished one is put back. -/
theorem IsWritten.backTo {b' : Builder} (hb' : b'.IsWritten isName) (hb : b.IsWritten isName)
    (hgrows : b.Grows b') : (b'.backTo b).IsWritten isName :=
  ⟨hb'.named, fun t ht => (hb.lines t ht).mono hgrows.names.definitions.subset, hb'.functions,
    hb'.prototypes⟩

theorem IsWritten.addFunction (hb : b.IsWritten isName) {text : String}
    (h : Written b.names.definitions isName text) : (b.addFunction text).IsWritten isName := by
  refine ⟨hb.named, hb.lines, ?_, hb.prototypes⟩
  intro t ht
  rcases List.mem_append.mp ht with ht | ht
  · exact hb.functions t ht
  · rw [List.mem_singleton.mp ht]
    exact h

theorem IsWritten.fileText (hb : b.IsWritten isName) {main : String}
    (h : Written b.names.definitions isName main) :
    Written b.names.definitions isName (b.fileText main) := by
  refine .file ?_
  intro t ht
  rcases List.mem_cons.mp ht with rfl | ht
  · exact .preamble
  · rcases List.mem_append.mp ht with ht | ht
    · rcases List.mem_append.mp ht with ht | ht
      · by_cases hnone : b.prototypes.isEmpty = true
        · rw [if_pos hnone] at ht
          exact absurd ht List.not_mem_nil
        · rw [if_neg hnone] at ht
          rw [List.mem_singleton.mp ht]
          exact .lines hb.prototypes
      · exact hb.functions t ht
    · rw [List.mem_singleton.mp ht]
      exact h

end Builder

/-! ### Runs -/

/-- The names in a piece of a statement. -/
def Piece.names : Piece → List String
  | .exprs _ names es => names ++ namesOf es
  | .head _ name params => name :: params
  | .hole _ => []

/-- The names in a script. -/
def Script.names (s : Script) : List String := s.pieces.flatMap Piece.names

theorem Stmt.piece_names (s : Stmt) : s.piece.names = s.ownNames := by
  cases s <;> simp [piece, Piece.names, ownNames, namesOf]

/-- The names in a script are those in its statements. -/
theorem stmtsScript_names (returns : Bool) (ss : List Stmt) :
    (stmtsScript returns ss).names = stmtsNames ss := by
  rw [Script.names, stmtsScript_pieces, List.flatMap_map, stmtsNames]
  simp only [Stmt.piece_names]

/-- What a run leaves in the builder is written as it should be. -/
theorem Script.Runs.written {isName : String → Prop} {s : Script} {b : Builder}
    {r : EStateM.Result CodegenError Builder Unit} (h : Runs s b r) :
    (∀ x ∈ s.names, isName x) → b.IsWritten isName → (builderLeft r).IsWritten isName := by
  induction h with
  | skip b => exact fun _ hb => hb
  | @seq s t _ _ _ _ _ ihs iht =>
    intro hnames hb
    have hsplit : (Script.seq s t).names = s.names ++ t.names := List.flatMap_append
    rw [hsplit, List.forall_mem_append] at hnames
    exact iht hnames.2 (ihs hnames.1 hb)
  | @seqFails s _ _ _ t _ ih =>
    intro hnames hb
    have hsplit : (Script.seq s t).names = s.names ++ t.names := List.flatMap_append
    rw [hsplit, List.forall_mem_append] at hnames
    exact ih hnames.1 hb
  | closing l b => exact fun _ hb => hb.addLine (.closing l)
  | @statement p es form b texts text htexts htext =>
    intro hnames hb
    have hpiece : (Script.statement p es form).names = form.names ++ namesOf es :=
      List.append_nil _
    rw [hpiece, List.forall_mem_append] at hnames
    have hmoved : (b.moveTo p).IsWritten isName := ⟨hb.named, hb.lines, hb.functions, hb.prototypes⟩
    exact hmoved.addLine (.statement hnames.1 (exprTexts_of_lowerArgs hnames.2 htexts) htext)
  | indented _ ih =>
    intro hnames hb
    have hbody := ih hnames ⟨hb.named, hb.lines, hb.functions, hb.prototypes⟩
    exact ⟨hbody.named, hbody.lines, hbody.functions, hbody.prototypes⟩
  | indentedFails _ ih =>
    exact fun hnames hb => ih hnames ⟨hb.named, hb.lines, hb.functions, hb.prototypes⟩
  | @define p name symbol head params body names b b' returnsZero hname hhead hbody ih =>
    intro hnames hb
    subst hhead
    have hpiece : (Script.define p name params returnsZero body).names =
        (name :: params) ++ body.names := rfl
    rw [hpiece, List.forall_mem_append] at hnames
    have hinner := ih hnames.2 (hb.openFunction hnames.1 hname)
    have hgrows := (Builder.Grows.openFunction hname _).trans hbody.grows
    exact (hinner.backTo hb hgrows).addFunction (hinner.unitText returnsZero)
  | @defineFails p name symbol head params body names b b' e returnsZero hname hhead hbody ih =>
    intro hnames hb
    subst hhead
    have hpiece : (Script.define p name params returnsZero body).names =
        (name :: params) ++ body.names := rfl
    rw [hpiece, List.forall_mem_append] at hnames
    exact ih hnames.2 (hb.openFunction hnames.1 hname)
  | _ => exact fun _ hb => ⟨hb.named, hb.lines, hb.functions, hb.prototypes⟩

end NumScript
