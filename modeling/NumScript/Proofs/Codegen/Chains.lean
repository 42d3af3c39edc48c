import NumScript.Proofs.Codegen.Units

/-!
# NumScript.Proofs.Codegen.Chains

Chains of choices. A second body that is a choice and nothing else continues the first choice on its
level. The plain way to write it, which is defined here as a builder of its own (`Build.plainStmt`),
is to write every second body as a block of its own.

Both ways succeed together, and fail together with the same error. They leave the same table and the
same prototypes, and what the plain one writes becomes what the other one writes by putting chains
on one level (`Stmt.flatten`), in the lines of the statement as in those of the functions that it
defines (`Build.stmt_inStep`).

The two are compared step by step (`Build.Parallel`). Within a chain the plain lines are further in,
by one level for each link, so the comparison carries the difference of the levels along.
-/

namespace NumScript

/-! ### Writing every second body as a block -/

namespace Build

mutual

/-- Writes a statement, and second bodies as blocks. `returns` marks the last one of a function. -/
def plainStmt (returns : Bool) : Stmt → Build Unit
  | .expr p value => do
    enter p
    let v ← expr value
    line (if returns then "return " ++ v ++ ";" else "print_number(" ++ v ++ ");")
  | .declare p name value => do
    enter p
    let v ← expr value
    line ("double " ++ safeName name ++ " = " ++ v ++ ";")
  | .assign p name value => do
    enter p
    let v ← expr value
    line (safeName name ++ " = " ++ v ++ ";")
  | .branch p cond body rest => do
    enter p
    let c ← expr cond
    line ("if (" ++ c ++ ") \x7b")
    indented (plainStmts false body)
    plainOtherwise rest
  | .loop p cond body => do
    enter p
    let c ← expr cond
    line ("while (" ++ c ++ ") \x7b")
    indented (plainStmts false body)
    line "\x7d"
  | .count p var bounds body => do
    enter p
    let bs ← exprs bounds
    line (← ofExcept (countHeader (safeName var) bs))
    indented (plainStmts false body)
    line "\x7d"
  | .define p name params body => do
    enter p
    let text ← function (some p) name params (!endsInExpr body) (plainStmts true body)
    modify fun b => { b with functions := b.functions ++ [text] }
  | .hole p => do
    enter p
    throw .stmtHole

/-- Writes statements in order. `returns` says whether they are the body of a function. -/
def plainStmts (returns : Bool) : List Stmt → Build Unit
  | [] => pure ()
  | s :: ss => do
    plainStmt (returns && ss.isEmpty) s
    plainStmts returns ss

/-- Writes what follows the first body of a choice, with the brace that ends it. -/
def plainOtherwise : Option (List Stmt) → Build Unit
  | none => line "\x7d"
  | some body => do
    line "\x7d else \x7b"
    indented (plainStmts false body)
    line "\x7d"

end

end Build

/-! ### Putting chains on one level -/

mutual

/-- The number of lines of a statement with second bodies as blocks. -/
def Stmt.height : Stmt → Nat
  | .expr _ _ => 1
  | .declare _ _ _ => 1
  | .assign _ _ _ => 1
  | .branch _ _ body rest => 1 + (heights body + elseHeight rest)
  | .count _ _ _ body => 1 + (heights body + 1)
  | .loop _ _ body => 1 + (heights body + 1)
  | .define _ _ _ _ => 0
  | .hole _ => 0

/-- The number of lines of statements. -/
def heights : List Stmt → Nat
  | [] => 0
  | s :: ss => s.height + heights ss

/-- The number of lines of what follows the first body of a choice. -/
def elseHeight : Option (List Stmt) → Nat
  | none => 1
  | some body => 1 + (heights body + 1)

end

/-- Does one thing with the first `n` lines and another one with the rest. -/
def inParts (n : Nat) (f g : List String → List String) (lines : List String) : List String :=
  f (lines.take n) ++ g (lines.drop n)

/-- A line without its first `n` characters. -/
def cutBy (n : Nat) (line : String) : String := String.ofList (line.toList.drop n)

/-- A line one level of indentation further out. -/
def outward (line : String) : String := cutBy 4 line

/-- The lines of a choice at the given level, joined to the brace in front and an `else`. -/
def joinElse (level : Nat) : List String → List String
  | [] => []
  | first :: lines => (indentation level ++ ("\x7d else " ++ cutBy (4 * level) first)) :: lines

mutual

/-- The lines of a statement at the given level with its chains on one level. -/
def Stmt.flatten (level : Nat) : Stmt → List String → List String
  | .branch _ _ body rest =>
    inParts 1 id (inParts (heights body) (flattenAll (level + 1) body) (flattenElse level rest))
  | .count _ _ _ body => inParts 1 id (inParts (heights body) (flattenAll (level + 1) body) id)
  | .loop _ _ body => inParts 1 id (inParts (heights body) (flattenAll (level + 1) body) id)
  | _ => id

/-- The lines of statements with their chains on one level. -/
def flattenAll (level : Nat) : List Stmt → List String → List String
  | [] => id
  | s :: ss => inParts s.height (s.flatten level) (flattenAll level ss)

/-- The lines of what follows the first body of a choice, with chains on one level. A choice that is
the whole second body is freed from the two lines around it, moved out and joined to the first. -/
def flattenElse (level : Nat) : Option (List Stmt) → List String → List String
  | none => id
  | some [.branch p cond body rest] => fun lines =>
    joinElse level
      (((Stmt.branch p cond body rest).flatten (level + 1) lines.tail.dropLast).map outward)
  | some body => inParts 1 id (inParts (heights body) (flattenAll (level + 1) body) id)

end

section Lines

variable {f g : List String → List String}

theorem inParts_append {n : Nat} {lines more : List String} (h : lines.length = n) :
    inParts n f g (lines ++ more) = f lines ++ g more := by
  rw [inParts, List.take_left' h, List.drop_left' h]

theorem inParts_one (line : String) (lines : List String) :
    inParts 1 id g (line :: lines) = line :: g lines := rfl

theorem cutBy_zero (line : String) : cutBy 0 line = line := by
  rw [cutBy, List.drop_zero, String.ofList_toList]

theorem map_cutBy_zero (lines : List String) : lines.map (cutBy (4 * 0)) = lines :=
  (List.map_congr_left fun line _ => cutBy_zero line).trans (List.map_id lines)

theorem cutBy_cutBy (m n : Nat) (line : String) : cutBy m (cutBy n line) = cutBy (n + m) line := by
  rw [cutBy, cutBy, cutBy, String.toList_ofList, List.drop_drop]

/-- Levels in front of a line are taken away. -/
theorem cutBy_indentation (k level : Nat) (text : String) :
    cutBy (4 * k) (indentation (level + k) ++ text) = indentation level ++ text := by
  have hblanks : (indentation (level + k) ++ text).toList =
      List.replicate (4 * k) ' ' ++ (indentation level ++ text).toList := by
    rw [indentation, indentation, String.toList_append, String.toList_append, String.toList_ofList,
      String.toList_ofList, ← List.append_assoc, List.replicate_append_replicate,
      Nat.mul_add, Nat.add_comm]
  rw [cutBy, hblanks, List.drop_left' List.length_replicate, String.ofList_toList]

/-- What becomes of the lines around a link of a chain and of those behind it. -/
theorem joinElse_link {m k level : Nat} (h : m + k = level) (v orElse close : String)
    (lines : List String) :
    (joinElse level ((inParts 1 id g (List.dropLast (List.tail (orElse ::
      ((indentation (level + 1) ++ ("if (" ++ v ++ ") \x7b")) :: lines ++ [close]))))).map
        outward)).map (cutBy (4 * k)) =
      (indentation m ++ ("\x7d else if (" ++ v ++ ") \x7b")) ::
        (g lines).map (cutBy (4 * (k + 1))) := by
  have hfirst : cutBy (4 * level) (outward (indentation (level + 1) ++ ("if (" ++ v ++ ") \x7b"))) =
      "if (" ++ v ++ ") \x7b" := by
    have hout : outward (indentation (level + 1) ++ ("if (" ++ v ++ ") \x7b")) =
        indentation (0 + level) ++ ("if (" ++ v ++ ") \x7b") := by
      rw [Nat.zero_add]
      exact cutBy_indentation 1 level _
    rw [hout, cutBy_indentation]
    simp [indentation]
  have hjoined : "\x7d else " ++ ("if (" ++ v ++ ") \x7b") = "\x7d else if (" ++ v ++ ") \x7b" := by
    have hword : "\x7d else if (" = "\x7d else " ++ "if (" := by decide
    simp only [hword, String.append_assoc]
  have hrest : ((g lines).map outward).map (cutBy (4 * k)) =
      (g lines).map (cutBy (4 * (k + 1))) := by
    rw [List.map_map]
    refine List.map_congr_left ?_
    intro line _
    rw [Function.comp, outward, cutBy_cutBy, Nat.mul_add, Nat.add_comm, Nat.mul_one]
  rw [List.tail_cons, List.dropLast_concat, inParts_one, List.map_cons, joinElse, hfirst, hjoined,
    List.map_cons, hrest, ← h, cutBy_indentation]

end Lines

/-! ### Comparing step by step -/

/-- The two builders have the same table, the same prototypes and the same position. -/
structure Beside (b c : Builder) : Prop where
  names : b.names = c.names
  prototypes : b.prototypes = c.prototypes
  pos : b.pos = c.pos

/-- A function together with the first line of its unit and the lines of its body in which second
bodies are blocks. -/
structure PlainUnit extends FunctionUnit where
  header : String
  plainLines : List String
  length_plainLines : plainLines.length = heights body

/-- The text of the unit with second bodies as blocks. -/
def PlainUnit.plainText (u : PlainUnit) : String :=
  "\n".intercalate (unitLines u.header u.plainLines (!endsInExpr u.body))

/-- The text of the unit with chains on one level. -/
def PlainUnit.flatText (u : PlainUnit) : String :=
  "\n".intercalate (unitLines u.header (flattenAll 1 u.body u.plainLines) (!endsInExpr u.body))

/-- From `b` to `b'` the units of these functions were added with chains on one level, and from `c`
to `c'` with second bodies as blocks. -/
def SameFunctions (functions : List FunctionUnit) (b b' c c' : Builder) : Prop :=
  ∃ units : List PlainUnit, units.map PlainUnit.toFunctionUnit = functions ∧
    b'.functions = b.functions ++ units.map PlainUnit.flatText ∧
    c'.functions = c.functions ++ units.map PlainUnit.plainText

/-- Two results of writing, from the builders `b` and `c`. Either both succeed, the second with
`height` lines, the first with what `flat` makes of them, and both with the units of `functions`; or
both fail with the same error, some of the functions being finished. -/
inductive InStep (height : Nat) (flat : List String → List String) (functions : List FunctionUnit)
    (b c : Builder) : EStateM.Result CodegenError Builder Unit →
    EStateM.Result CodegenError Builder Unit → Prop
  | ok {b' c' : Builder} (lines : List String) (beside : Beside b' c')
      (indent : b'.indent = b.indent ∧ c'.indent = c.indent) (length : lines.length = height)
      (plain : c'.lines = c.lines ++ lines) (flattened : b'.lines = b.lines ++ flat lines)
      (added : SameFunctions functions b b' c c') :
      InStep height flat functions b c (.ok () b') (.ok () c')
  | error {e : CodegenError} {b' c' : Builder} (beside : Beside b' c')
      (added : ∃ finished, finished <+: functions ∧ SameFunctions finished b b' c c') :
      InStep height flat functions b c (.error e b') (.error e c')

namespace SameFunctions

variable {us us' : List FunctionUnit} {b b' b'' c c' c'' : Builder}

/-- Nothing was added. -/
theorem none (hb : b'.functions = b.functions) (hc : c'.functions = c.functions) :
    SameFunctions [] b b' c c' := by
  refine ⟨[], rfl, ?_, ?_⟩
  · rw [hb, List.map_nil, List.append_nil]
  · rw [hc, List.map_nil, List.append_nil]

theorem append (h : SameFunctions us b b' c c') (h' : SameFunctions us' b' b'' c' c'') :
    SameFunctions (us ++ us') b b'' c c'' := by
  obtain ⟨units, hunits, hb, hc⟩ := h
  obtain ⟨units', hunits', hb', hc'⟩ := h'
  refine ⟨units ++ units', ?_, ?_, ?_⟩
  · rw [List.map_append, hunits, hunits']
  · rw [hb', hb, List.map_append, List.append_assoc]
  · rw [hc', hc, List.map_append, List.append_assoc]

end SameFunctions

section Results

variable {height : Nat} {flat : List String → List String} {us : List FunctionUnit}
  {b b' c c' : Builder}

/-- Both fail before a function is finished. -/
theorem InStep.fails {e : CodegenError} (beside : Beside b' c') (hb : b'.functions = b.functions)
    (hc : c'.functions = c.functions) :
    InStep height flat us b c (.error e b') (.error e c') :=
  .error beside ⟨[], List.nil_prefix, .none hb hc⟩

/-- The position of the statement to come does not matter. -/
theorem InStep.of_moveTo {p : Pos} {r r' : EStateM.Result CodegenError Builder Unit}
    (h : InStep height flat us (b.moveTo p) (c.moveTo p) r r') :
    InStep height flat us b c r r' := by
  cases h with
  | ok lines beside indent length plain flattened added =>
    exact .ok lines beside indent length plain flattened added
  | error beside added => exact .error beside added

/-- The text of a unit whose blocks are all closed. -/
theorem Builder.unitText_eq_unitLines {header : String} {lines : List String}
    (h : b.lines = [header] ++ lines) (hindent : b.indent = 1) (returnsZero : Bool) :
    b.unitText returnsZero = "\n".intercalate (unitLines header lines returnsZero) := by
  have hclose : indentation (1 - 1) ++ "\x7d" = "\x7d" := by decide
  rw [unitText, h, hindent, hclose]
  rfl

theorem Beside.moveTo (h : Beside b c) (p : Pos) : Beside (b.moveTo p) (c.moveTo p) :=
  ⟨h.names, h.prototypes, rfl⟩

end Results

namespace Build

/-- The first action writes on its level what the second one writes `k` levels further in, at
`level`, with `flat` putting chains on one level. -/
def Parallel (level k height : Nat) (flat : List String → List String)
    (functions : List FunctionUnit) (x y : Build Unit) : Prop :=
  ∀ b c : Builder, Beside b c → b.indent + k = level → c.indent = level →
    InStep height (fun lines => (flat lines).map (cutBy (4 * k))) functions b c (x b) (y c)

section Statements

variable {p : Pos} {e : Expr} {form : LineForm} {b : Builder}

/-- The line of a statement with one expression, and what comes then. -/
theorem statement_then (form : LineForm) {g : String → String}
    (h : ∀ v, form.text [v] = .ok (g v)) (next : Build Unit) :
    (do enter p; let v ← expr e; line (g v); next) =
      (do (Script.statement p [e] form).run; next) := by
  rw [run_statement_singleton]
  simp only [bind_assoc, h]
  rfl

/-- The first line of a counting loop, and what comes then. -/
theorem count_then (var : String) (bounds : List Expr) (next : Build Unit) :
    (do enter p; let bs ← exprs bounds; line (← ofExcept (countHeader (safeName var) bs)); next) =
      (do (Script.statement p bounds (.count var)).run; next) := by
  simp only [Script.run, bind_assoc]
  rfl

theorem run_statement_ok {v text : String} (hlower : e.lower b.names p = .ok v)
    (htext : form.text [v] = .ok text) :
    (Script.statement p [e] form).run b = .ok () ((b.moveTo p).addLine text) := by
  have htexts : lowerArgs b.names p [e] = .ok [v] := by
    rw [lowerArgs, hlower]
    rfl
  exact (Script.Runs.statement htexts htext).run_eq

theorem run_statement_error {error : CodegenError} (form : LineForm)
    (hlower : e.lower b.names p = .error error) :
    (Script.statement p [e] form).run b = .error error (b.moveTo p) := by
  have htexts : lowerArgs b.names p [e] = .error error := by
    rw [lowerArgs, hlower]
    rfl
  exact (Script.Runs.exprsFail form htexts).run_eq

end Statements

namespace Parallel

variable {level k n n' : Nat} {flat flat' : List String → List String}
  {us us' : List FunctionUnit} {x x' y y' : Build Unit}

theorem skip : Parallel level k 0 id [] (pure ()) (pure ()) := by
  intro b c hbeside _ _
  exact .ok [] hbeside ⟨rfl, rfl⟩ rfl (List.append_nil _).symm (List.append_nil _).symm
    (.none rfl rfl)

/-- One action after another. -/
theorem seq (h : Parallel level k n flat us x y) (h' : Parallel level k n' flat' us' x' y') :
    Parallel level k (n + n') (inParts n flat flat') (us ++ us') (do x; x') (do y; y') := by
  intro b c hbeside hb hc
  have hfirst := h b c hbeside hb hc
  generalize hx : x b = r at hfirst
  generalize hy : y c = r' at hfirst
  cases hfirst with
  | error hbeside₁ hadded =>
    obtain ⟨finished, hprefix, hsame⟩ := hadded
    rw [bind_error hx, bind_error hy]
    exact .error hbeside₁ ⟨finished, hprefix.trans (List.prefix_append _ _), hsame⟩
  | @ok b₁ c₁ lines hbeside₁ hindent hlength hplain hflat hadded =>
    have hsecond := h' b₁ c₁ hbeside₁ (hindent.1 ▸ hb) (hindent.2 ▸ hc)
    rw [bind_ok hx, bind_ok hy]
    generalize x' b₁ = r at hsecond ⊢
    generalize y' c₁ = r' at hsecond ⊢
    cases hsecond with
    | error hbeside₂ hadded₂ =>
      obtain ⟨finished, hprefix, hsame⟩ := hadded₂
      exact .error hbeside₂
        ⟨us ++ finished, (List.prefix_append_right_inj us).mpr hprefix, hadded.append hsame⟩
    | ok more hbeside₂ hindent₂ hlength₂ hplain₂ hflat₂ hadded₂ =>
      refine .ok (lines ++ more) hbeside₂
        ⟨hindent₂.1.trans hindent.1, hindent₂.2.trans hindent.2⟩ ?_ ?_ ?_ (hadded.append hadded₂)
      · rw [List.length_append, hlength, hlength₂]
      · rw [hplain₂, hplain, List.append_assoc]
      · rw [hflat₂, hflat, inParts_append hlength, List.map_append, List.append_assoc]

theorem line (text : String) : Parallel level k 1 id [] (Build.line text) (Build.line text) := by
  intro b c hbeside hb hc
  rw [line_apply, line_apply]
  refine .ok [indentation c.indent ++ text] ⟨hbeside.names, hbeside.prototypes, hbeside.pos⟩
    ⟨rfl, rfl⟩ rfl rfl ?_ (.none rfl rfl)
  rw [hc, ← hb, id, List.map_singleton, cutBy_indentation]
  rfl

/-- The line of a statement, in which the same is written or missing. -/
theorem statement (p : Pos) (es : List Expr) (form : LineForm) :
    Parallel level k 1 id [] (Script.statement p es form).run
      (Script.statement p es form).run := by
  intro b c hbeside hb hc
  rw [Script.run_statement, Script.run_statement, ← hbeside.names]
  cases lowerArgs b.names p es with
  | error e => exact .fails (hbeside.moveTo p) rfl rfl
  | ok texts =>
    show InStep _ _ _ b c ((ofExcept (form.text texts) >>= Build.line) (b.moveTo p))
      ((ofExcept (form.text texts) >>= Build.line) (c.moveTo p))
    cases form.text texts with
    | error e => exact .fails (hbeside.moveTo p) rfl rfl
    | ok text => exact (line text (b.moveTo p) (c.moveTo p) (hbeside.moveTo p) hb hc).of_moveTo

theorem indented (h : Parallel (level + 1) k n flat us x y) :
    Parallel level k n flat us (Build.indented x) (Build.indented y) := by
  intro b c hbeside hb hc
  have hinner := h b.deeper c.deeper ⟨hbeside.names, hbeside.prototypes, hbeside.pos⟩
    (by rw [← hb, Nat.add_right_comm]; rfl) (by rw [← hc]; rfl)
  generalize hx : x b.deeper = r at hinner
  generalize hy : y c.deeper = r' at hinner
  cases hinner with
  | error hbeside' hadded =>
    rw [indented_error hx, indented_error hy]
    exact .error hbeside' hadded
  | ok lines hbeside' hindent hlength hplain hflat hadded =>
    rw [indented_ok hx, indented_ok hy]
    refine .ok lines ⟨hbeside'.names, hbeside'.prototypes, hbeside'.pos⟩ ⟨?_, ?_⟩ hlength hplain
      hflat hadded
    · show _ - 1 = _
      rw [hindent.1]
      rfl
    · show _ - 1 = _
      rw [hindent.2]
      rfl

/-- A body between the line that begins it and what ends it. -/
theorem block {x'' y'' : Build Unit} (h : Parallel level k 1 id [] x y)
    (hbody : Parallel (level + 1) k n flat us x' y')
    (hend : Parallel level k n' flat' us' x'' y'') :
    Parallel level k (1 + (n + n')) (inParts 1 id (inParts n flat flat')) (us ++ us')
      (do x; Build.indented x'; x'') (do y; Build.indented y'; y'') := by
  have hall := h.seq (hbody.indented.seq hend)
  rwa [List.nil_append] at hall

/-- A body that a brace ends. -/
theorem braced (h : Parallel level k 1 id [] x y) (hbody : Parallel (level + 1) k n flat us x' y') :
    Parallel level k (1 + (n + 1)) (inParts 1 id (inParts n flat id)) us
      (do x; Build.indented x'; Build.line "\x7d")
      (do y; Build.indented y'; Build.line "\x7d") := by
  have hall := h.block hbody (.line "\x7d")
  rwa [List.append_nil] at hall

/-- A link of a chain: what the first action writes as an `else if` is a block of its own for the
second, which is one level further in from then on. -/
theorem link (p : Pos) (cond : Expr) (h : Parallel (level + 1) (k + 1) n flat us x y) :
    Parallel level k (1 + (1 + n + 1))
      (fun lines => joinElse level ((inParts 1 id flat lines.tail.dropLast).map outward)) us
      (do (Script.statement p [cond] .orChoice).run; x)
      (do
        Build.line "\x7d else \x7b"
        Build.indented (do (Script.statement p [cond] .choice).run; y)
        Build.line "\x7d") := by
  intro b c hbeside hb hc
  rw [bind_ok (line_apply "\x7d else \x7b" c)]
  -- the second builder within the block that it has opened
  let c₁ := (c.addLine "\x7d else \x7b").deeper
  cases hlower : cond.lower b.names p with
  | error e =>
    have hlower' : cond.lower c₁.names p = .error e := hbeside.names ▸ hlower
    have hinner : (do (Script.statement p [cond] .choice).run; y) c₁ = .error e (c₁.moveTo p) :=
      bind_error (run_statement_error .choice hlower')
    rw [bind_error (run_statement_error .orChoice hlower), bind_error (indented_error hinner)]
    exact .fails ⟨hbeside.names, hbeside.prototypes, rfl⟩ rfl rfl
  | ok v =>
    have hlower' : cond.lower c₁.names p = .ok v := hbeside.names ▸ hlower
    let b₂ := (b.moveTo p).addLine ("\x7d else if (" ++ v ++ ") \x7b")
    let c₂ := (c₁.moveTo p).addLine ("if (" ++ v ++ ") \x7b")
    have hinner : (do (Script.statement p [cond] .choice).run; y) c₁ = y c₂ :=
      bind_ok (run_statement_ok hlower' rfl)
    rw [bind_ok (run_statement_ok hlower rfl)]
    have htail := h b₂ c₂ ⟨hbeside.names, hbeside.prototypes, rfl⟩
      (by rw [← hb, Nat.add_assoc]; rfl) (by rw [← hc]; rfl)
    show InStep _ _ _ b c (x b₂) _
    generalize x b₂ = r at htail ⊢
    generalize hy : y c₂ = r' at htail
    cases htail with
    | error hbeside' hadded =>
      rw [bind_error (indented_error (hinner.trans hy))]
      exact .error hbeside' hadded
    | @ok b' c' lines hbeside' hindent hlength hplain hflat hadded =>
      rw [bind_ok (indented_ok (hinner.trans hy)), line_apply]
      have hback : c'.back.indent = c.indent := by
        show c'.indent - 1 = _
        rw [hindent.2]
        rfl
      refine .ok ((indentation level ++ "\x7d else \x7b") ::
        ((indentation (level + 1) ++ ("if (" ++ v ++ ") \x7b")) :: lines ++
          [indentation level ++ "\x7d"])) ⟨hbeside'.names, hbeside'.prototypes, hbeside'.pos⟩
        ⟨hindent.1, hback⟩ ?_ ?_ ?_ hadded
      · simp only [List.length_cons, List.length_append, List.length_nil, hlength]
        omega
      · show c'.lines ++ [indentation c'.back.indent ++ "\x7d"] = _
        rw [hplain, hback, hc]
        show (c.lines ++ [indentation c.indent ++ _]) ++ [indentation (c.indent + 1) ++ _] ++
          lines ++ _ = _
        rw [hc]
        simp only [List.append_assoc, List.cons_append, List.nil_append]
      · rw [hflat]
        show (b.lines ++ [indentation b.indent ++ ("\x7d else if (" ++ v ++ ") \x7b")]) ++ _ = _
        rw [joinElse_link hb, List.append_assoc, List.singleton_append]

/-- A function, whose body starts on the same level in both units. -/
theorem define (p : Pos) (name : String) (params : List String) {body : List Stmt}
    (h : Parallel 1 0 (heights body) (flattenAll 1 body) (functionsOf body) x y) :
    Parallel level k 0 id (functionsOf body ++ [⟨⟨name, params, p⟩, body⟩])
      (do
        enter p
        let text ← function (some p) name params (!endsInExpr body) x
        modify fun b => { b with functions := b.functions ++ [text] })
      (do
        enter p
        let text ← function (some p) name params (!endsInExpr body) y
        modify fun b => { b with functions := b.functions ++ [text] }) := by
  intro b c hbeside hb hc
  show InStep _ _ _ b c
    ((function (some p) name params (!endsInExpr body) x >>= fun text =>
      modify (·.addFunction text)) (b.moveTo p))
    ((function (some p) name params (!endsInExpr body) y >>= fun text =>
      modify (·.addFunction text)) (c.moveTo p))
  cases hname : b.names.define name params.length p with
  | error e =>
    have hname' : c.names.define name params.length p = .error e := hbeside.names ▸ hname
    rw [bind_error (function_error hname _ x), bind_error (function_error hname' _ y)]
    exact .fails (hbeside.moveTo p) rfl rfl
  | ok defined =>
    obtain ⟨symbol, names⟩ := defined
    have hname' : c.names.define name params.length p = .ok (symbol, names) :=
      hbeside.names ▸ hname
    generalize hhead : signature symbol params = head
    have hx : function (some p) name params (!endsInExpr body) x (b.moveTo p) = _ :=
      function_eq_unit hname _ x
    have hy : function (some p) name params (!endsInExpr body) y (c.moveTo p) = _ :=
      function_eq_unit hname' _ y
    have hprototypes : b.prototypes ++ [head ++ ";"] = c.prototypes ++ [head ++ ";"] := by
      rw [hbeside.prototypes]
    have hbody := h (b.openFunction p names head) (c.openFunction p names head)
      ⟨rfl, hprototypes, rfl⟩ rfl rfl
    rw [hhead] at hx hy
    generalize hxb : x (b.openFunction p names head) = r at hbody
    generalize hyc : y (c.openFunction p names head) = r' at hbody
    cases hbody with
    | error hbeside' hadded =>
      obtain ⟨finished, hprefix, hsame⟩ := hadded
      rw [bind_error (hx.trans (unit_error hxb)), bind_error (hy.trans (unit_error hyc))]
      exact .error hbeside' ⟨finished, hprefix.trans (List.prefix_append _ _), hsame⟩
    | @ok b' c' lines hbeside' hindent hlength hplain hflat hadded =>
      rw [bind_ok (hx.trans (unit_ok hxb)), bind_ok (hy.trans (unit_ok hyc))]
      rw [map_cutBy_zero] at hflat
      rw [Builder.unitText_eq_unitLines hflat hindent.1,
        Builder.unitText_eq_unitLines hplain hindent.2]
      let u : PlainUnit := ⟨⟨⟨name, params, p⟩, body⟩, head ++ " \x7b", lines, hlength⟩
      exact .ok [] ⟨hbeside'.names, hbeside'.prototypes, hbeside'.pos⟩ ⟨rfl, rfl⟩ rfl
        (List.append_nil _).symm (List.append_nil _).symm (hadded.append ⟨[u], rfl, rfl, rfl⟩)

theorem hole (p : Pos) : Parallel level k 0 id [] (do enter p; throw .stmtHole)
    (do enter p; throw .stmtHole) := by
  intro b c hbeside _ _
  exact .fails (hbeside.moveTo p) rfl rfl

end Parallel

/-! ### Statements -/

theorem plainStmts_singleton (s : Stmt) : plainStmts false [s] = plainStmt false s := by
  rw [plainStmts, plainStmts, Bool.false_and]
  exact bind_pure_unit

mutual

theorem stmt_parallel (returns : Bool) : ∀ (s : Stmt) (level k : Nat),
    Parallel level k s.height (s.flatten level) s.functions (stmt returns s) (plainStmt returns s)
  | .expr p value, level, k => by
    rw [stmt, plainStmt]
    cases returns with
    | true => exact run_statement_singleton p value .result ▸ .statement p [value] .result
    | false => exact run_statement_singleton p value .print ▸ .statement p [value] .print
  | .declare p name value, level, k => by
    rw [stmt, plainStmt]
    exact run_statement_singleton p value (.declare name) ▸ .statement p [value] (.declare name)
  | .assign p name value, level, k => by
    rw [stmt, plainStmt]
    exact run_statement_singleton p value (.assign name) ▸ .statement p [value] (.assign name)
  | .branch p cond body rest, level, k => by
    rw [stmt, plainStmt, statement_then .choice (fun _ => rfl),
      statement_then .choice (fun _ => rfl)]
    exact .block (.statement p [cond] .choice) (stmts_parallel false body (level + 1) k)
      (otherwise_parallel rest level k)
  | .loop p cond body, level, k => by
    rw [stmt, plainStmt, statement_then .loop (fun _ => rfl), statement_then .loop (fun _ => rfl)]
    exact .braced (.statement p [cond] .loop) (stmts_parallel false body (level + 1) k)
  | .count p var bounds body, level, k => by
    rw [stmt, plainStmt, count_then, count_then]
    exact .braced (.statement p bounds (.count var)) (stmts_parallel false body (level + 1) k)
  | .define p name params body, level, k => by
    rw [stmt, plainStmt]
    exact .define p name params (stmts_parallel true body 1 0)
  | .hole p, level, k => by
    rw [stmt, plainStmt]
    exact .hole p
termination_by s => sizeOf s

/-- Statements are written in step. -/
theorem stmts_parallel (returns : Bool) : ∀ (ss : List Stmt) (level k : Nat),
    Parallel level k (heights ss) (flattenAll level ss) (functionsOf ss) (stmts returns ss)
      (plainStmts returns ss)
  | [], level, k => by
    rw [stmts, plainStmts]
    exact .skip
  | s :: ss, level, k => by
    rw [stmts, plainStmts]
    exact .seq (stmt_parallel _ s level k) (stmts_parallel returns ss level k)
termination_by ss => sizeOf ss

theorem otherwise_parallel : ∀ (o : Option (List Stmt)) (level k : Nat),
    Parallel level k (elseHeight o) (flattenElse level o) (functionsElse o) (otherwise o)
      (plainOtherwise o)
  | o, level, k => by
    rw [otherwise.eq_def]
    split
    · exact .line "\x7d"
    · -- the chain goes on
      rename_i p cond body rest
      rw [plainOtherwise, plainStmts_singleton, plainStmt, statement_then .orChoice (fun _ => rfl),
        statement_then .choice (fun _ => rfl), functionsElse, functionsOf, functionsOf,
        List.append_nil]
      exact .link p cond (.seq (.indented (stmts_parallel false body (level + 1 + 1) (k + 1)))
        (otherwise_parallel rest (level + 1) (k + 1)))
    · rename_i body hbody
      rw [plainOtherwise, flattenElse.eq_3 level body hbody]
      exact .braced (.line "\x7d else \x7b") (stmts_parallel false body (level + 1) k)
termination_by o => sizeOf o

end

/-- A statement is written in step with the same one whose second bodies are all blocks, from every
builder. Both succeed, the lines and functions of one being those of the other with chains on one
level, or both fail with the same error, and table, prototypes and position are the same after. -/
theorem stmt_inStep (returns : Bool) (s : Stmt) (b : Builder) :
    InStep s.height (s.flatten b.indent) s.functions b b (stmt returns s b)
      (plainStmt returns s b) := by
  have h := stmt_parallel returns s b.indent 0 b b ⟨rfl, rfl, rfl⟩ rfl rfl
  have hflat : (fun lines => (s.flatten b.indent lines).map (cutBy (4 * 0))) =
      s.flatten b.indent :=
    funext fun lines => map_cutBy_zero _
  rwa [hflat] at h

example :
    Stmt.flatten 0 (.branch ⟨1, 1⟩ (.ident "x") []
        (some [.branch ⟨2, 1⟩ (.ident "y") [] (some [.expr ⟨3, 1⟩ (.ident "z")])]))
      ["if (x) \x7b", "\x7d else \x7b", "    if (y) \x7b", "    \x7d else \x7b",
        "        print_number(z);", "    \x7d", "\x7d"] =
      ["if (x) \x7b", "\x7d else if (y) \x7b", "\x7d else \x7b", "    print_number(z);",
        "\x7d"] := by
  decide +kernel

end Build

end NumScript
