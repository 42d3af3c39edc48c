import NumScript.Proofs.Codegen.Check
import NumScript.Proofs.Codegen.Fragments

/-!
# NumScript.Proofs.Codegen.Atoms

What of a program comes into its C text. The atoms of a program are its numbers, its variables and
its functions, each as a fragment; they are listed from the tree alone, in the order of the source.
All other fragments of the C text are brought along by the forms of lines and expressions, so the
atoms among the fragments are those of the program (`Program.mem_fragments`). If the program can
be written at all, every function among them is one that the program defines
(`Program.mem_heads_of_symbol`).
-/

namespace NumScript

/-- Whether a fragment comes from the source. -/
def Fragment.isAtom : Fragment → Bool
  | .gap _ => false
  | .word _ => false
  | .literal _ => true
  | .var _ => true
  | .symbol _ => true

/-! ### Atoms of trees -/

mutual

/-- The atoms of an expression. -/
def Expr.atoms : Expr → List Fragment
  | .number value => [.literal value]
  | .ident name => [.var name]
  | .call name args => .symbol name :: atomsOf args
  | .binary _ left right => left.atoms ++ right.atoms
  | .pair left right => left.atoms ++ right.atoms
  | .hole => []

/-- The atoms of expressions. -/
def atomsOf : List Expr → List Fragment
  | [] => []
  | e :: es => e.atoms ++ atomsOf es

end

/-- The atoms of a statement, without those of the statements in its bodies. -/
def Stmt.ownAtoms : Stmt → List Fragment
  | .expr _ value => value.atoms
  | .declare _ name value => .var name :: value.atoms
  | .assign _ name value => .var name :: value.atoms
  | .branch _ cond _ _ => cond.atoms
  | .count _ var bounds _ => .var var :: atomsOf bounds
  | .loop _ cond _ => cond.atoms
  | .define _ name params _ => .symbol name :: params.map .var
  | .hole _ => []

/-- The atoms of a program. -/
def Program.atoms (p : Program) : List Fragment := (listings p).flatMap Stmt.ownAtoms

/-! ### Atoms of lists of fragments -/

section Mem

variable {f : Fragment}

theorem Fragment.ne_gap (hf : f.isAtom = true) (text : String) : f ≠ .gap text := by
  rintro rfl
  cases hf

theorem Fragment.ne_word (hf : f.isAtom = true) (text : String) : f ≠ .word text := by
  rintro rfl
  cases hf

theorem mem_joined (hf : f.isAtom = true) {gap : String} {fss : List (List Fragment)} :
    f ∈ joined gap fss ↔ ∃ fs ∈ fss, f ∈ fs := by
  fun_induction joined gap fss with
  | case1 => simp
  | case2 fs => simp
  | case3 fs gs more ih =>
    rw [List.mem_append, List.mem_cons, or_iff_right (Fragment.ne_gap hf gap), ih]
    simp

theorem Operator.mem_fragments (hf : f.isAtom = true) {o : Operator} {left right : List Fragment} :
    f ∈ o.fragments left right ↔ f ∈ left ∨ f ∈ right := by
  cases o <;> simp [fragments, Fragment.ne_gap hf, Fragment.ne_word hf]

mutual

/-- The atoms of an expression are those among its fragments. -/
theorem Expr.mem_fragments (hf : f.isAtom = true) : ∀ e : Expr, f ∈ e.fragments ↔ f ∈ e.atoms
  | .number _ => by rw [Expr.fragments, Expr.atoms]
  | .ident _ => by rw [Expr.fragments, Expr.atoms]
  | .call name args => by
    simp [Expr.fragments, Expr.atoms, mem_joined hf, mem_fragmentsEach hf args,
      Fragment.ne_gap hf]
  | .binary o left right => by
    rw [Expr.fragments, Expr.atoms, Operator.mem_fragments hf, left.mem_fragments hf,
      right.mem_fragments hf, List.mem_append]
  | .pair left right => by
    simp [Expr.fragments, Expr.atoms, left.mem_fragments hf, right.mem_fragments hf,
      Fragment.ne_gap hf]
  | .hole => by rw [Expr.fragments, Expr.atoms]

theorem mem_fragmentsEach (hf : f.isAtom = true) : ∀ es : List Expr,
    (∃ fs ∈ fragmentsEach es, f ∈ fs) ↔ f ∈ atomsOf es
  | [] => by simp [fragmentsEach, atomsOf]
  | e :: es => by
    rw [fragmentsEach, atomsOf, List.mem_append, ← mem_fragmentsEach hf es, ← e.mem_fragments hf]
    simp

end

/-! ### Lines and units -/

theorem LineForm.takes_of_text {form : LineForm} {texts : List String} {text : String}
    (h : form.text texts = .ok text) : form.takes texts.length = true := by
  cases form with
  | count var =>
    match texts, h with
    | [_], _ => rfl
    | [_, _], _ => rfl
    | [_, _, _], _ => rfl
  | _ =>
    match texts, h with
    | [_], _ => rfl

theorem mem_countFragments (hf : f.isAtom = true) {var : String} {fss : List (List Fragment)}
    (hone : 1 ≤ fss.length) (hthree : fss.length ≤ 3) :
    f ∈ countFragments var fss ↔ f = .var var ∨ ∃ fs ∈ fss, f ∈ fs := by
  match fss, hone, hthree with
  | [stop], _, _ =>
    simp [countFragments, Fragment.ne_gap hf, Fragment.ne_word hf]
    tauto
  | [first, stop], _, _ =>
    simp [countFragments, countTestFragments, Fragment.ne_gap hf, Fragment.ne_word hf]
    tauto
  | [first, stop, step], _, _ =>
    simp [countFragments, countTestFragments, Fragment.ne_gap hf, Fragment.ne_word hf]
    tauto

theorem length_fragmentsEach (es : List Expr) : (fragmentsEach es).length = es.length := by
  induction es with
  | nil => rfl
  | cons e es ih => rw [fragmentsEach, List.length_cons, List.length_cons, ih]

/-- The atoms of a line are its variable, if it has one, and those of its expressions. -/
theorem LineForm.mem_fragments (hf : f.isAtom = true) {form : LineForm} {fss : List (List Fragment)}
    (h : form.takes fss.length = true) :
    f ∈ form.fragments fss ↔ f ∈ form.names.map .var ∨ ∃ fs ∈ fss, f ∈ fs := by
  cases form with
  | count var =>
    simp only [takes, Bool.and_eq_true, decide_eq_true_eq] at h
    rw [fragments, mem_countFragments hf h.1 h.2]
    simp [names]
  | _ =>
    obtain ⟨t, rfl⟩ := List.length_eq_one_iff.mp (eq_of_beq h)
    simp [fragments, names, Fragment.ne_gap hf, Fragment.ne_word hf]

/-- The atoms of a function's head are the function and its parameters. -/
theorem mem_headFragments (hf : f.isAtom = true) {name : String} {params : List String} :
    f ∈ headFragments name params ↔ f = .symbol name ∨ f ∈ params.map .var := by
  cases params with
  | nil => simp [headFragments, Fragment.ne_gap hf, Fragment.ne_word hf]
  | cons param params =>
    simp [headFragments, mem_joined hf, Fragment.ne_gap hf, Fragment.ne_word hf, eq_comm]

theorem mem_below (hf : f.isAtom = true) {lines : List UnitLine} :
    f ∈ below lines ↔ ∃ line ∈ lines, f ∈ line.2 := by
  simp [below, Fragment.ne_gap hf]

theorem mem_unitFragments (hf : f.isAtom = true) {head : List Fragment} {body : List UnitLine}
    {returnsZero : Bool} :
    f ∈ unitFragments head body returnsZero ↔ f ∈ head ∨ ∃ line ∈ body, f ∈ line.2 := by
  cases returnsZero <;>
    simp [unitFragments, mem_below hf, Fragment.ne_gap hf, Fragment.ne_word hf, or_and_right,
      exists_or]

end Mem

/-! ### Scripts -/

/-- The atoms of a piece of a statement. -/
def Piece.atoms : Piece → List Fragment
  | .exprs _ names es => names.map .var ++ atomsOf es
  | .head _ name params => .symbol name :: params.map .var
  | .hole _ => []

/-- The atoms of a script. -/
def Script.atoms (s : Script) : List Fragment := s.pieces.flatMap Piece.atoms

theorem Stmt.piece_atoms (s : Stmt) : s.piece.atoms = s.ownAtoms := by
  cases s <;> simp [piece, Piece.atoms, ownAtoms, atomsOf]

/-- The atoms of a script are those of its statements. -/
theorem stmtsScript_atoms (returns : Bool) (ss : List Stmt) :
    (stmtsScript returns ss).atoms = Program.atoms ss := by
  rw [Script.atoms, stmtsScript_pieces, List.flatMap_map, Program.atoms]
  simp only [Stmt.piece_atoms]

namespace Script

/-- Whether every line of a script has a number of expressions that its form can take. -/
def isRegular : Script → Bool
  | .skip => true
  | .seq first second => first.isRegular && second.isRegular
  | .closing _ => true
  | .statement _ es form => form.takes es.length
  | .indented body => body.isRegular
  | .define _ _ _ _ body => body.isRegular
  | .hole _ => true

/-- A script that can be run is regular. -/
theorem Runs.isRegular {s : Script} {b b' : Builder} (h : Runs s b (.ok () b')) :
    s.isRegular = true := by
  generalize hr : (EStateM.Result.ok () b' : EStateM.Result CodegenError Builder Unit) = r at h
  induction h generalizing b' with
  | skip b => rfl
  | seq _ _ ihs iht => rw [Script.isRegular, ihs rfl, iht hr]; rfl
  | closing l b => rfl
  | statement htexts htext =>
    rw [Script.isRegular, ← length_of_lowerArgs htexts]
    exact LineForm.takes_of_text htext
  | indented _ ih => exact ih rfl
  | define _ _ _ _ ih => exact ih rfl
  | _ => cases hr

/-- The atoms in the lines, the units and the heads of a script are those of the script. -/
theorem mem_atoms {f : Fragment} (hf : f.isAtom = true) {s : Script} (h : s.isRegular = true)
    (level : Nat) :
    f ∈ s.atoms ↔ (∃ line ∈ s.lines level, f ∈ line.2) ∨ (∃ fs ∈ s.units, f ∈ fs) ∨
      ∃ head ∈ s.heads, f ∈ headFragments head.name head.params := by
  induction s generalizing level with
  | skip => simp [atoms, pieces, lines, units, heads]
  | seq first second ih ih' =>
    rw [isRegular, Bool.and_eq_true] at h
    have hsplit : (seq first second).atoms = first.atoms ++ second.atoms := List.flatMap_append
    rw [hsplit, List.mem_append, ih h.1 level, ih' h.2 level]
    simp only [lines, units, heads, List.mem_append, or_and_right, exists_or]
    clear ih ih'
    grind
  | closing l =>
    cases l <;>
      simp [atoms, pieces, lines, units, heads, Closing.fragments, Fragment.ne_gap hf,
        Fragment.ne_word hf]
  | statement p es form =>
    have hpiece : (statement p es form).atoms = form.names.map .var ++ atomsOf es :=
      List.append_nil _
    have hlength := length_fragmentsEach es
    rw [isRegular, ← hlength] at h
    rw [hpiece, List.mem_append, ← mem_fragmentsEach hf es, ← LineForm.mem_fragments hf h]
    simp [lines, units, heads]
  | indented body ih => exact ih h (level + 1)
  | define p name params returnsZero body ih =>
    have hpiece : (define p name params returnsZero body).atoms =
        .symbol name :: params.map .var ++ body.atoms := rfl
    rw [hpiece, List.mem_append, ih h 1, List.mem_cons, ← mem_headFragments hf]
    simp only [lines, units, heads, List.mem_append, List.mem_cons, or_and_right, exists_or,
      exists_eq_left, mem_unitFragments hf, List.not_mem_nil, false_and, exists_false, false_or,
      or_false]
    clear ih
    grind
  | hole p => simp [atoms, pieces, Piece.atoms, lines, units, heads]

end Script

/-! ### Functions that are called -/

theorem NameTable.Extends.contains {t t' : NameTable} (h : t.Extends t') {name : String}
    (hname : t.contains name = true) : t'.contains name = true := by
  obtain ⟨d, hd⟩ := Option.isSome_iff_exists.mp hname
  exact Option.isSome_iff_exists.mpr ⟨d, h.find?_eq_some hd⟩

mutual

/-- An expression that can be lowered calls functions in the table only. -/
theorem Expr.contains_of_lower {names : NameTable} {p : Pos} {name : String} :
    ∀ {e : Expr} {text : String}, e.lower names p = .ok text → .symbol name ∈ e.atoms →
      names.contains name = true
  | .number _, _, _, hmem => by simp [Expr.atoms] at hmem
  | .ident _, _, _, hmem => by simp [Expr.atoms] at hmem
  | .call name' args, _, h, hmem => by
    rw [Expr.lower] at h
    split at h
    · cases h
    · rename_i d hd
      split at h
      · obtain ⟨texts, htexts, -⟩ := exists_of_bind_eq_ok h
        rcases List.mem_cons.mp hmem with heq | hmem
        · obtain rfl := Fragment.symbol.inj heq
          exact Option.isSome_iff_exists.mpr ⟨d, hd⟩
        · exact contains_of_lowerArgs htexts hmem
      · cases h
  | .binary _ left right, _, h, hmem => by
    obtain ⟨l, hl, h⟩ := exists_of_bind_eq_ok h
    obtain ⟨r, hr, -⟩ := exists_of_bind_eq_ok h
    rcases List.mem_append.mp hmem with hmem | hmem
    · exact Expr.contains_of_lower hl hmem
    · exact Expr.contains_of_lower hr hmem
  | .pair left right, _, h, hmem => by
    obtain ⟨l, hl, h⟩ := exists_of_bind_eq_ok h
    obtain ⟨r, hr, -⟩ := exists_of_bind_eq_ok h
    rcases List.mem_append.mp hmem with hmem | hmem
    · exact Expr.contains_of_lower hl hmem
    · exact Expr.contains_of_lower hr hmem
  | .hole, _, h, _ => by cases h

theorem contains_of_lowerArgs {names : NameTable} {p : Pos} {name : String} :
    ∀ {es : List Expr} {texts : List String}, lowerArgs names p es = .ok texts →
      .symbol name ∈ atomsOf es → names.contains name = true
  | [], _, _, hmem => absurd hmem List.not_mem_nil
  | e :: es, _, h, hmem => by
    obtain ⟨text, htext, h⟩ := exists_of_bind_eq_ok h
    obtain ⟨texts, htexts, -⟩ := exists_of_bind_eq_ok h
    rcases List.mem_append.mp hmem with hmem | hmem
    · exact Expr.contains_of_lower htext hmem
    · exact contains_of_lowerArgs htexts hmem

end

/-- After a run that succeeds, the functions of the script are in the table. -/
theorem Script.Runs.contains {s : Script} {b b' : Builder} (h : Runs s b (.ok () b'))
    {name : String} (hmem : .symbol name ∈ s.atoms) : b'.names.contains name = true := by
  generalize hr : (EStateM.Result.ok () b' : EStateM.Result CodegenError Builder Unit) = r at h
  induction h generalizing b' with
  | skip b => exact absurd hmem List.not_mem_nil
  | @seq s t b b₁ r _ ht ihs iht =>
    subst hr
    have hsplit : (Script.seq s t).atoms = s.atoms ++ t.atoms := List.flatMap_append
    rw [hsplit] at hmem
    rcases List.mem_append.mp hmem with hmem | hmem
    · exact ht.grows.names.contains (ihs hmem rfl)
    · exact iht hmem rfl
  | closing l b => exact absurd hmem List.not_mem_nil
  | @statement p es form b texts text htexts _ =>
    cases hr
    have hpiece : (Script.statement p es form).atoms = form.names.map .var ++ atomsOf es :=
      List.append_nil _
    rw [hpiece] at hmem
    rcases List.mem_append.mp hmem with hmem | hmem
    · simp at hmem
    · exact contains_of_lowerArgs htexts hmem
  | @indented s b b₁ _ ih =>
    cases hr
    exact @ih b₁ hmem rfl
  | @define p name' symbol head params body names b b₁ returnsZero hname _ hbody ih =>
    cases hr
    have hpiece : (Script.define p name' params returnsZero body).atoms =
        .symbol name' :: params.map .var ++ body.atoms := rfl
    rw [hpiece] at hmem
    rcases List.mem_append.mp hmem with hmem | hmem
    · have heq : Fragment.symbol name = .symbol name' := by simpa using hmem
      obtain rfl := Fragment.symbol.inj heq
      refine hbody.grows.names.contains ?_
      obtain ⟨-, -, rfl⟩ := NameTable.define_eq_ok_iff.mp hname
      simp [Builder.openFunction, Builder.openUnit, Builder.declare, NameTable.contains,
        NameTable.find?]
    · exact @ih b₁ hmem rfl
  | _ => cases hr

/-! ### Programs -/

section ToC

variable {p : Program} {text : String}

/-- The atoms among the fragments of a program are the atoms of the program. -/
theorem Program.mem_fragments {f : Fragment} (hf : f.isAtom = true)
    (h : p.toC (.empty NameTable.counting) = .ok text) : f ∈ p.fragments ↔ f ∈ p.atoms := by
  obtain ⟨b, hruns, -⟩ := Program.exists_runs h
  have hatoms := Script.mem_atoms hf hruns.isRegular 1
  have hheads : (stmtsScript false p).heads = p.heads := stmtsScript_heads false p
  rw [stmtsScript_atoms, hheads] at hatoms
  have hmain : f ∉ mainHead := by simp [mainHead, Fragment.ne_gap hf, Fragment.ne_word hf]
  have hprototypes : (∃ fs ∈ (if p.heads.isEmpty then [] else [prototypeFragments p.heads]),
      f ∈ fs) ↔ ∃ head ∈ p.heads, f ∈ headFragments head.name head.params := by
    cases p.heads with
    | nil => simp
    | cons head heads => simp [prototypeFragments, mem_joined hf, Fragment.ne_gap hf]
  rw [hatoms]
  simp only [Program.fragments, Program.sections, List.mem_append, List.mem_flatMap, List.mem_cons,
    or_and_right, exists_or, Fragment.ne_gap hf, false_or, List.not_mem_nil, or_false,
    exists_eq_left, mem_unitFragments hf, hmain]
  rw [hprototypes, or_assoc, or_rotate, or_left_comm]

/-- The functions of a program that has a C text are those that it defines. -/
theorem Program.mem_heads_of_symbol {name : String}
    (h : p.toC (.empty NameTable.counting) = .ok text) (hmem : .symbol name ∈ p.atoms) :
    name ∈ p.heads.map FunctionHead.name := by
  obtain ⟨b, hruns, -⟩ := Program.exists_runs h
  rw [← stmtsScript_atoms false] at hmem
  obtain ⟨d, hd⟩ := Option.isSome_iff_exists.mp (hruns.contains hmem)
  obtain ⟨hdef, rfl⟩ := NameTable.mem_of_find? hd
  rw [hruns.hoists.definitions, stmtsScript_heads] at hdef
  have hadded := (List.mem_append.mp hdef).resolve_left List.not_mem_nil
  obtain ⟨⟨head, k⟩, hk, rfl⟩ := List.mem_map.mp hadded
  exact List.mem_map.mpr ⟨head, List.fst_mem_of_mem_zipIdx hk, rfl⟩

end ToC

end NumScript
