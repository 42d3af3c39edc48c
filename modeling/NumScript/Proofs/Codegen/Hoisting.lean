import Mathlib.Data.List.Perm.Basic
import NumScript.Proofs.Codegen.Growth

/-!
# NumScript.Proofs.Codegen.Hoisting

Where the functions of a program end up in its C text. Definitions may stand in any body. Each of
them gets a prototype when it is reached, so prototypes are in the order of the text, and a unit
when its body is finished, so the unit of a nested function comes before that of the function around
it.

The two orders are `Program.heads` and `Program.finished`. They hold the same functions
(`finishedOf_perm`), and the C text of a program is its preamble, the prototypes in the one order,
the units in the other, and the entry unit (`Program.toC_layout`).
-/

namespace NumScript

/-! ### The functions of a program -/

/-- What is known of a function before its body. -/
structure FunctionHead where
  name : String
  params : List String
  pos : Pos
deriving DecidableEq, Repr

namespace FunctionHead

/-- The list of parameters of a function in the C text. -/
def paramList (h : FunctionHead) : String :=
  if h.params.isEmpty then "void" else ", ".intercalate (h.params.map ("double " ++ safeName ·))

/-- The head of a function in the C text, `number` being its number. -/
def declarator (h : FunctionHead) (number : Nat) : String :=
  "double f" ++ toString number ++ "_" ++ h.name ++ "(" ++ h.paramList ++ ")"

end FunctionHead

/-- The function that a statement defines, if it is a definition. -/
def Stmt.heads : Stmt → List FunctionHead
  | .expr _ _ => []
  | .declare _ _ _ => []
  | .assign _ _ _ => []
  | .branch _ _ _ _ => []
  | .count _ _ _ _ => []
  | .loop _ _ _ => []
  | .define p name params _ => [⟨name, params, p⟩]
  | .hole _ => []

/-- The functions of a program in the order of the text. -/
def Program.heads (p : Program) : List FunctionHead := (listings p).flatMap Stmt.heads

mutual

/-- The functions of a statement in the order in which their bodies end. -/
def Stmt.finished : Stmt → List FunctionHead
  | .expr _ _ => []
  | .declare _ _ _ => []
  | .assign _ _ _ => []
  | .branch _ _ body rest => finishedOf body ++ finishedElse rest
  | .count _ _ _ body => finishedOf body
  | .loop _ _ body => finishedOf body
  | .define p name params body => finishedOf body ++ [⟨name, params, p⟩]
  | .hole _ => []

/-- The functions of statements in the order in which their bodies end. -/
def finishedOf : List Stmt → List FunctionHead
  | [] => []
  | s :: ss => s.finished ++ finishedOf ss

/-- The functions of the second body of a choice in the order in which their bodies end. -/
def finishedElse : Option (List Stmt) → List FunctionHead
  | none => []
  | some body => finishedOf body

end

/-- The functions of a program in the order in which their bodies end. -/
def Program.finished (p : Program) : List FunctionHead := finishedOf p

mutual

theorem Stmt.finished_perm : ∀ s : Stmt, s.finished.Perm (s.listing.flatMap Stmt.heads)
  | .expr _ _ => .refl _
  | .declare _ _ _ => .refl _
  | .assign _ _ _ => .refl _
  | .branch _ _ body rest => by
    rw [Stmt.finished, Stmt.listing, List.flatMap_cons, List.flatMap_append]
    exact (finishedOf_perm body).append (finishedElse_perm rest)
  | .count _ _ _ body => by
    rw [Stmt.finished, Stmt.listing, List.flatMap_cons]
    exact finishedOf_perm body
  | .loop _ _ body => by
    rw [Stmt.finished, Stmt.listing, List.flatMap_cons]
    exact finishedOf_perm body
  | .define p name params body => by
    rw [Stmt.finished, Stmt.listing, List.flatMap_cons]
    exact List.perm_append_comm.trans ((finishedOf_perm body).append_left _)
  | .hole _ => .refl _

/-- The two orders hold the same functions. -/
theorem finishedOf_perm : ∀ ss : List Stmt, (finishedOf ss).Perm ((listings ss).flatMap Stmt.heads)
  | [] => .refl _
  | s :: ss => by
    rw [finishedOf, listings, List.flatMap_append]
    exact s.finished_perm.append (finishedOf_perm ss)

theorem finishedElse_perm : ∀ o : Option (List Stmt),
    (finishedElse o).Perm ((elseListing o).flatMap Stmt.heads)
  | none => .refl _
  | some body => finishedOf_perm body

end

/-! ### The functions of a script -/

namespace Script

/-- The functions of a script in the order in which they are reached. -/
def heads : Script → List FunctionHead
  | .skip => []
  | .seq first second => first.heads ++ second.heads
  | .closing _ => []
  | .statement _ _ _ => []
  | .indented body => body.heads
  | .define p name params _ body => ⟨name, params, p⟩ :: body.heads
  | .hole _ => []

/-- The functions of a script in the order in which they are finished. -/
def finished : Script → List FunctionHead
  | .skip => []
  | .seq first second => first.finished ++ second.finished
  | .closing _ => []
  | .statement _ _ _ => []
  | .indented body => body.finished
  | .define p name params _ body => body.finished ++ [⟨name, params, p⟩]
  | .hole _ => []

end Script

/-- The function that a piece of a statement is the head of. -/
def Piece.heads : Piece → List FunctionHead
  | .exprs _ _ _ => []
  | .head p name params => [⟨name, params, p⟩]
  | .hole _ => []

theorem Stmt.piece_heads (s : Stmt) : s.piece.heads = s.heads := by
  cases s <;> rfl

theorem Script.heads_eq (s : Script) : s.heads = s.pieces.flatMap Piece.heads := by
  induction s with
  | seq first second ih ih' => simp [heads, pieces, ih, ih']
  | indented body ih => exact ih
  | define p name params _ body ih => simp [heads, pieces, ih, Piece.heads]
  | _ => simp [heads, pieces, Piece.heads]

/-- A script reaches the functions in the order of the text. -/
theorem stmtsScript_heads (returns : Bool) (ss : List Stmt) :
    (stmtsScript returns ss).heads = (listings ss).flatMap Stmt.heads := by
  rw [Script.heads_eq, stmtsScript_pieces, List.flatMap_map]
  simp only [Stmt.piece_heads]

mutual

theorem Stmt.script_finished (returns : Bool) : ∀ s : Stmt,
    (s.script returns).finished = s.finished
  | .expr _ _ => rfl
  | .declare _ _ _ => rfl
  | .assign _ _ _ => rfl
  | .branch _ _ body rest => by
    simp [Stmt.script, Script.finished, Stmt.finished, stmtsScript_finished false body,
      elseScript_finished rest]
  | .count _ _ _ body => by
    simp [Stmt.script, Script.finished, Stmt.finished, stmtsScript_finished false body]
  | .loop _ _ body => by
    simp [Stmt.script, Script.finished, Stmt.finished, stmtsScript_finished false body]
  | .define _ _ _ body => by
    simp [Stmt.script, Script.finished, Stmt.finished, stmtsScript_finished true body]
  | .hole _ => rfl
termination_by s => sizeOf s

/-- A script finishes the functions in the order in which their bodies end. -/
theorem stmtsScript_finished (returns : Bool) : ∀ ss : List Stmt,
    (stmtsScript returns ss).finished = finishedOf ss
  | [] => rfl
  | s :: ss => by
    simp [stmtsScript, Script.finished, finishedOf, Stmt.script_finished _ s,
      stmtsScript_finished returns ss]
termination_by ss => sizeOf ss

theorem elseScript_finished : ∀ o : Option (List Stmt), (elseScript o).finished = finishedElse o
  | o => by
    rw [elseScript.eq_def]
    split
    · rfl
    · rename_i p cond body rest
      simp [Script.finished, finishedElse, finishedOf, Stmt.finished,
        stmtsScript_finished false body, elseScript_finished rest]
    · rename_i body _
      simp [Script.finished, finishedElse, stmtsScript_finished false body]
termination_by o => sizeOf o

end

/-! ### What a run adds -/

/-- The head of a function at the given place in the table. -/
def FunctionHead.signatureAt (suffix : Nat → String) (h : FunctionHead) (place : Nat) : String :=
  Build.signature (NameTable.mangle (suffix place) h.name) h.params

/-- The definition of a function at the given place in the table. -/
def FunctionHead.definitionAt (suffix : Nat → String) (h : FunctionHead) (place : Nat) :
    Definition :=
  ⟨h.name, NameTable.mangle (suffix place) h.name, h.params.length, h.pos⟩

/-- A text whose first line is given. -/
def HasFirstLine (text line : String) : Prop := ∃ more, text = "\n".intercalate (line :: more)

/-- From one builder to another these functions were reached and finished: the first have
definitions and prototypes, at the next places of the table, the second have units. -/
structure Hoists (heads finished : List FunctionHead) (b b' : Builder) : Prop where
  suffix : b'.names.suffix = b.names.suffix
  definitions : b'.names.definitions = b.names.definitions ++
    (heads.zipIdx b.names.size).map fun (h, k) => h.definitionAt b.names.suffix k
  prototypes : b'.prototypes = b.prototypes ++
    (heads.zipIdx b.names.size).map fun (h, k) => h.signatureAt b.names.suffix k ++ ";"
  functions : ∃ units, b'.functions = b.functions ++ units ∧
    List.Forall₂ (fun h unit => ∃ k, (h, k) ∈ heads.zipIdx b.names.size ∧
      HasFirstLine unit (h.signatureAt b.names.suffix k ++ " \x7b")) finished units

namespace Hoists

variable {b b' b'' : Builder} {heads heads' finished finished' : List FunctionHead}

theorem size (h : Hoists heads finished b b') : b'.names.size = b.names.size + heads.length := by
  simp [NameTable.size, h.definitions]

/-- Nothing was reached. -/
theorem none (hnames : b'.names = b.names) (hprototypes : b'.prototypes = b.prototypes)
    (hfunctions : b'.functions = b.functions) : Hoists [] [] b b' where
  suffix := by rw [hnames]
  definitions := by simp [hnames]
  prototypes := by simp [hprototypes]
  functions := ⟨[], by simp [hfunctions], .nil⟩

theorem append (h : Hoists heads finished b b') (h' : Hoists heads' finished' b' b'') :
    Hoists (heads ++ heads') (finished ++ finished') b b'' := by
  obtain ⟨units, hunits, hfirst⟩ := h.functions
  obtain ⟨units', hunits', hfirst'⟩ := h'.functions
  have hnumbers : (heads ++ heads').zipIdx b.names.size =
      heads.zipIdx b.names.size ++ heads'.zipIdx b'.names.size := by
    rw [List.zipIdx_append, h.size]
  refine ⟨h'.suffix.trans h.suffix, ?_, ?_, units ++ units', ?_, ?_⟩
  · rw [h'.definitions, h.definitions, hnumbers, h.suffix, List.map_append, List.append_assoc]
  · rw [h'.prototypes, h.prototypes, hnumbers, h.suffix, List.map_append, List.append_assoc]
  · rw [hunits', hunits, List.append_assoc]
  · rw [hnumbers]
    refine List.rel_append (hfirst.imp ?_) (hfirst'.imp ?_)
    · rintro head unit ⟨k, hk, hline⟩
      exact ⟨k, List.mem_append_left _ hk, hline⟩
    · rintro head unit ⟨k, hk, hline⟩
      exact ⟨k, List.mem_append_right _ hk, h.suffix ▸ hline⟩

/-- A definition was reached. -/
theorem reached {p : Pos} {name symbol : String} {params : List String} {names : NameTable}
    (h : b.names.define name params.length p = .ok (symbol, names)) :
    Hoists [⟨name, params, p⟩] [] b (b.openFunction p names (Build.signature symbol params)) := by
  obtain ⟨-, rfl, rfl⟩ := NameTable.define_eq_ok_iff.mp h
  exact ⟨rfl, rfl, rfl, [], (List.append_nil _).symm, .nil⟩

/-- A unit was finished. -/
theorem finish (h : Hoists heads finished b b') {head : FunctionHead} {k : Nat} {unit : String}
    (hhead : (head, k) ∈ heads.zipIdx b.names.size)
    (hunit : HasFirstLine unit (head.signatureAt b.names.suffix k ++ " \x7b"))
    (hnames : b''.names = b'.names) (hprototypes : b''.prototypes = b'.prototypes)
    (hfunctions : b''.functions = b'.functions ++ [unit]) :
    Hoists heads (finished ++ [head]) b b'' := by
  obtain ⟨units, hunits, hfirst⟩ := h.functions
  refine ⟨hnames ▸ h.suffix, hnames ▸ h.definitions, hprototypes ▸ h.prototypes,
    units ++ [unit], ?_, ?_⟩
  · rw [hfunctions, hunits, List.append_assoc]
  · exact List.rel_append hfirst (.cons ⟨k, hhead, hunit⟩ .nil)

end Hoists

/-- A unit has the first line of its builder as its first line. -/
theorem Builder.unitText_hasFirstLine {b : Builder} {line : String} (h : [line] <+: b.lines)
    (returnsZero : Bool) : HasFirstLine (b.unitText returnsZero) line := by
  obtain ⟨more, hmore⟩ := h
  unfold HasFirstLine Builder.unitText
  rw [← hmore]
  exact ⟨_, rfl⟩

/-- A run that succeeds reaches and finishes the functions of its script. -/
theorem Script.Runs.hoists {s : Script} {b b' : Builder} (h : Runs s b (.ok () b')) :
    Hoists s.heads s.finished b b' := by
  generalize hr : (EStateM.Result.ok () b' : EStateM.Result CodegenError Builder Unit) = r at h
  induction h generalizing b' with
  | skip b =>
    cases hr
    exact .none rfl rfl rfl
  | seq _ _ ihs iht => exact (ihs rfl).append (iht hr)
  | closing l b =>
    cases hr
    exact .none rfl rfl rfl
  | statement _ _ =>
    cases hr
    exact .none rfl rfl rfl
  | indented _ ih =>
    cases hr
    have hbody := ih rfl
    exact ⟨hbody.suffix, hbody.definitions, hbody.prototypes, hbody.functions⟩
  | @define p name symbol head params body names b b₁ returnsZero hname hhead hbody ih =>
    cases hr
    subst hhead
    -- the function itself is the first to be reached and the last to be finished
    have hreached := (Hoists.reached hname).append (ih rfl)
    have hplace : (⟨name, params, p⟩, b.names.size) ∈
        ([⟨name, params, p⟩] ++ body.heads : List FunctionHead).zipIdx b.names.size :=
      List.mem_cons_self
    have hline := Builder.unitText_hasFirstLine hbody.lines.1 returnsZero
    obtain ⟨-, rfl, -⟩ := NameTable.define_eq_ok_iff.mp hname
    exact hreached.finish hplace hline rfl rfl rfl
  | _ => cases hr

/-! ### Programs -/

/-- With the default suffixes, the head of a function has its number in it. -/
theorem FunctionHead.signatureAt_counting (h : FunctionHead) (k : Nat) :
    h.signatureAt NameTable.counting k = h.declarator (k + 1) := by
  show "double " ++ ("f" ++ toString (k + 1) ++ "_" ++ h.name) ++ "(" ++ h.paramList ++ ")" =
    "double f" ++ toString (k + 1) ++ "_" ++ h.name ++ "(" ++ h.paramList ++ ")"
  exact String.toList_inj.mp (by simp)

/-- Functions that were reached have names of their own. -/
theorem Hoists.nodup {heads finished : List FunctionHead} {suffix : Nat → String} {b : Builder}
    (h : Hoists heads finished (.atMain (.empty suffix)) b) (hb : b.Matched) :
    (heads.map FunctionHead.name).Nodup := by
  have hnames : b.names.definitions.map Definition.name = heads.map FunctionHead.name := by
    rw [h.definitions, List.map_append, List.map_map]
    show [] ++ (heads.zipIdx 0).map (FunctionHead.name ∘ Prod.fst) = _
    rw [List.nil_append, ← List.map_map, List.zipIdx_map_fst]
  rw [← hnames]
  exact hb.regular.distinct

/-- The C text of a program is the preamble, the prototypes of its functions if it has any, their
units and the entry unit, with an empty line between each two of them. Prototypes are in the order
of the text and have the numbers `1`, `2`, `3` and so on, units are in the order in which the bodies
end, and a unit starts with the head that its prototype has. No two functions have one name. -/
theorem Program.toC_layout {p : Program} {text : String}
    (h : p.toC (.empty NameTable.counting) = .ok text) :
    p.finished.Perm p.heads ∧ (p.heads.map FunctionHead.name).Nodup ∧
    ∃ prototypes units main,
      text = "\n\n".intercalate (preamble ::
        ((if p.heads.isEmpty then [] else ["\n".intercalate prototypes]) ++ units ++ [main]))
          ++ "\n" ∧
      prototypes = p.heads.zipIdx.map (fun (h, k) => h.declarator (k + 1) ++ ";") ∧
      List.Forall₂ (fun h unit => ∃ k, (h, k) ∈ p.heads.zipIdx ∧
        HasFirstLine unit (h.declarator (k + 1) ++ " \x7b")) p.finished units ∧
      HasFirstLine main "int main(void) \x7b" := by
  have hruns := Script.runs_run (stmtsScript false p) (.atMain (.empty NameTable.counting))
  cases hrun : (stmtsScript false p).run (.atMain (.empty NameTable.counting)) with
  | error e b => rw [Program.toC_of_error hrun] at h; cases h
  | ok _ b =>
    rw [hrun] at hruns
    rw [Program.toC_of_ok hrun] at h
    have hhoists := hruns.hoists
    rw [stmtsScript_heads, stmtsScript_finished] at hhoists
    have hmatched : b.Matched := hruns.matched ⟨NameTable.isRegular_empty _, .nil⟩
    obtain ⟨units, hunits, hfirst⟩ := hhoists.functions
    have hprototypes : b.prototypes =
        p.heads.zipIdx.map fun (h, k) => h.declarator (k + 1) ++ ";" := by
      rw [hhoists.prototypes]
      show [] ++ p.heads.zipIdx.map (fun (h, k) => h.signatureAt NameTable.counting k ++ ";") = _
      simp only [FunctionHead.signatureAt_counting, List.nil_append]
    refine ⟨finishedOf_perm p, hhoists.nodup hmatched, b.prototypes, units, b.unitText true, ?_,
      hprototypes, ?_, Builder.unitText_hasFirstLine hruns.lines.1 true⟩
    · rw [← Except.ok.inj h, Builder.fileText, hunits]
      have hempty : b.prototypes.isEmpty = p.heads.isEmpty := by
        rw [hprototypes]
        cases p.heads <;> simp
      rw [hempty]
      rfl
    · refine hfirst.imp ?_
      rintro head unit ⟨k, hk, hline⟩
      exact ⟨k, hk, FunctionHead.signatureAt_counting head k ▸ hline⟩

/-- Functions in a function, in a loop and in a branch: `inner` and `deep` are finished before
`outer`, `deep` before `inner`. -/
def nestedFunctions : Program :=
  [.define ⟨1, 1⟩ "outer" ["x", "int"]
    [.define ⟨2, 3⟩ "inner" [] [.loop ⟨3, 5⟩ (.ident "y") [.define ⟨4, 7⟩ "deep" ["z"] []]],
     .expr ⟨5, 3⟩ (.call "inner" [])],
   .branch ⟨6, 1⟩ (.ident "a") [] (some [.define ⟨7, 3⟩ "last" [] []])]

theorem nestedFunctions_toC_layout :
    ∃ text, Program.toC (.empty NameTable.counting) nestedFunctions = .ok text ∧
      ∃ prototypes units main, text = "\n\n".intercalate
          (preamble :: (["\n".intercalate prototypes] ++ units ++ [main])) ++ "\n" ∧
        prototypes = ["double f1_outer(double x, double v_int);", "double f2_inner(void);",
          "double f3_deep(double z);", "double f4_last(void);"] ∧
        (Program.finished nestedFunctions).map FunctionHead.name =
          ["deep", "inner", "outer", "last"] ∧ units.length = 4 := by
  have hok : (Program.toC (.empty NameTable.counting) nestedFunctions).isOk = true := by
    decide +kernel
  cases h : Program.toC (.empty NameTable.counting) nestedFunctions with
  | error e => rw [h] at hok; cases hok
  | ok text =>
    obtain ⟨-, -, prototypes, units, main, htext, hprototypes, hunits, -⟩ :=
      Program.toC_layout h
    exact ⟨text, rfl, prototypes, units, main, htext, hprototypes.trans (by decide +kernel),
      by decide +kernel, hunits.length_eq.symm⟩

end NumScript
