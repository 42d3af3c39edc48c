import NumScript.Proofs.Json.Written
import NumScript.Stmt.Json

/-!
# NumScript.Proofs.Json.RoundTrip

From the JSON text of a program back to the program. A decoder looks at the kind that an object
names and takes the parts of the node from the fields with their names, wherever these stand. It
undoes `Program.toJson` for every program, parsed or built by hand (`Program.ofJson?_toJson`). A
program that was parsed has a JSON text, because its names are identifiers and none of its numbers
is a NaN (`Program.toJson_isWritable`). So a reader and the decoder recover it from that text.
-/

namespace NumScript

/-! ### Fields -/

namespace Json

/-- The text of a string. -/
@[simp]
def asText? : Json → Option String
  | .str text => some text
  | _ => none

/-- The value of a whole number. -/
@[simp]
def asInt? : Json → Option Int
  | .int value => some value
  | _ => none

/-- The value of a binary64 number. -/
@[simp]
def asNumber? : Json → Option Double
  | .number value => some value
  | _ => none

/-- The texts of an array of strings. -/
def asTexts? : Json → Option (List String)
  | .arr items => items.mapM asText?
  | _ => none

/-- What the field with the given name stands for. -/
@[simp]
def field? {α : Type} (decode : Json → Option α) (name : String) :
    List (String × Json) → Option α
  | [] => none
  | (key, value) :: fields => if name = key then decode value else field? decode name fields

end Json

open Json (field? asText? asInt? asNumber? asTexts?)

/-! ### Decoding -/

/-- The position that an object stands for. -/
def Pos.ofJson? : Json → Option Pos
  | .obj fields => return ⟨← field? asInt? "line" fields, ← field? asInt? "col" fields⟩
  | _ => none

/-- The node with two operands that has the given kind and operator. -/
def Expr.ofKind? (kind op : String) : Option (Expr → Expr → Expr) :=
  if kind = "BinaryOp" then
    if op = "" then some .pair else none
  else do
    let o ← Operator.ofKind? kind
    if op = o.text then some (.binary o) else none

mutual

/-- The expression that an object stands for. -/
def Expr.ofJson? : Json → Option Expr
  | .obj fields => do
    match ← field? asText? "_type" fields with
    | "Number" => return .number (← field? asNumber? "value" fields)
    | "Ident" => return .ident (← field? asText? "name" fields)
    | "Call" => return .call (← field? asText? "name" fields) (← argsField? "args" fields)
    | "<unknown expr>" => return .hole
    | kind =>
      let node ← Expr.ofKind? kind (← field? asText? "op" fields)
      return node (← operandField? "left" fields) (← operandField? "right" fields)
  | _ => none

/-- The expressions that the items of an array stand for. -/
def exprsOfItems? : List Json → Option (List Expr)
  | [] => some []
  | item :: items => return (← Expr.ofJson? item) :: (← exprsOfItems? items)

/-- The expressions that an array stands for. -/
@[simp]
def argsOf? : Json → Option (List Expr)
  | .arr items => exprsOfItems? items
  | _ => none

/-- The expression in the field with the given name. -/
@[simp]
def operandField? (name : String) : List (String × Json) → Option Expr
  | [] => none
  | (key, value) :: fields => if name = key then Expr.ofJson? value else operandField? name fields

/-- The expressions in the field with the given name. -/
@[simp]
def argsField? (name : String) : List (String × Json) → Option (List Expr)
  | [] => none
  | (key, value) :: fields => if name = key then argsOf? value else argsField? name fields

end

mutual

/-- The statement that an object stands for. -/
def Stmt.ofJson? : Json → Option Stmt
  | .obj fields => do
    let p ← field? Pos.ofJson? "pos" fields
    match ← field? asText? "_type" fields with
    | "ExprStmt" => return .expr p (← operandField? "expr" fields)
    | "Declaration" =>
      return .declare p (← field? asText? "name" fields) (← operandField? "value" fields)
    | "Assignment" =>
      return .assign p (← field? asText? "name" fields) (← operandField? "value" fields)
    | "IfStmt" =>
      return .branch p (← operandField? "cond" fields) (← (blockField? "body" fields).join)
        (← blockField? "else_body" fields)
    | "ForStmt" =>
      return .count p (← field? asText? "var" fields) (← argsField? "bounds" fields)
        (← (blockField? "body" fields).join)
    | "WhileStmt" =>
      return .loop p (← operandField? "cond" fields) (← (blockField? "body" fields).join)
    | "FunctionDef" =>
      return .define p (← field? asText? "name" fields) (← field? asTexts? "params" fields)
        (← (blockField? "body" fields).join)
    | "Stmt" => return .hole p
    | _ => none
  | _ => none

/-- The statements that the items of an array stand for. -/
def stmtsOfItems? : List Json → Option (List Stmt)
  | [] => some []
  | item :: items => return (← Stmt.ofJson? item) :: (← stmtsOfItems? items)

/-- The body that an array stands for, where `null` stands for a body that is missing. -/
@[simp]
def blockOf? : Json → Option (Option (List Stmt))
  | .null => some none
  | .arr items => (stmtsOfItems? items).map some
  | _ => none

/-- The body in the field with the given name. -/
@[simp]
def blockField? (name : String) : List (String × Json) → Option (Option (List Stmt))
  | [] => none
  | (key, value) :: fields => if name = key then blockOf? value else blockField? name fields

end

/-- The program that an array stands for. -/
def Program.ofJson? : Json → Option Program
  | .arr items => stmtsOfItems? items
  | _ => none

/-! ### Decoding undoes encoding -/

@[simp]
theorem Pos.ofJson?_toJson (p : Pos) : Pos.ofJson? p.toJson = some p := rfl

theorem Operator.kind_ne (o : Operator) :
    o.kind ≠ "Number" ∧ o.kind ≠ "Ident" ∧ o.kind ≠ "Call" ∧ o.kind ≠ "<unknown expr>" := by
  cases o <;> decide

theorem Expr.ofKind?_kind (o : Operator) : Expr.ofKind? o.kind o.text = some (.binary o) := by
  cases o <;> rfl

mutual

@[simp]
theorem Expr.ofJson?_toJson : ∀ e : Expr, Expr.ofJson? e.toJson = some e
  | .number _ => rfl
  | .ident _ => rfl
  | .call name args => by
    have hargs := exprsOfItems?_exprItems args
    simp [Expr.toJson, jsonNode, Expr.ofJson?, hargs]
  | .binary o left right => by
    have hleft := left.ofJson?_toJson
    have hright := right.ofJson?_toJson
    -- the kind of an operator is none of those that are looked for first
    simp [Expr.toJson, jsonNode, Expr.ofJson?, o.kind_ne, Expr.ofKind?_kind, hleft, hright]
  | .pair left right => by
    have hleft := left.ofJson?_toJson
    have hright := right.ofJson?_toJson
    simp [Expr.toJson, jsonNode, Expr.ofJson?, Expr.ofKind?, hleft, hright]
  | .hole => rfl

theorem exprsOfItems?_exprItems : ∀ es : List Expr, exprsOfItems? (exprItems es) = some es
  | [] => rfl
  | e :: es => by
    have he := e.ofJson?_toJson
    have hes := exprsOfItems?_exprItems es
    simp [exprItems, exprsOfItems?, he, hes]

end

@[simp]
theorem Json.asTexts?_map (texts : List String) :
    asTexts? (.arr (texts.map .str)) = some texts := by
  rw [asTexts?]
  induction texts with
  | nil => rfl
  | cons text texts ih =>
    rw [List.map_cons, List.mapM_cons, ih]
    rfl

mutual

theorem Stmt.ofJson?_toJson : ∀ s : Stmt, Stmt.ofJson? s.toJson = some s
  | .expr p value => by simp [Stmt.toJson, jsonNode, Stmt.ofJson?]
  | .declare p name value => by simp [Stmt.toJson, jsonNode, Stmt.ofJson?]
  | .assign p name value => by simp [Stmt.toJson, jsonNode, Stmt.ofJson?]
  | .branch p cond body otherwise => by
    have hbody := stmtsOfItems?_stmtItems body
    have hotherwise := blockOf?_otherwiseJson otherwise
    simp [Stmt.toJson, jsonNode, Stmt.ofJson?, hbody, hotherwise]
  | .count p var bounds body => by
    have hbody := stmtsOfItems?_stmtItems body
    have hbounds := exprsOfItems?_exprItems bounds
    rw [exprItems_eq_map] at hbounds
    simp [Stmt.toJson, jsonNode, Stmt.ofJson?, hbounds, hbody]
  | .loop p cond body => by
    have hbody := stmtsOfItems?_stmtItems body
    simp [Stmt.toJson, jsonNode, Stmt.ofJson?, hbody]
  | .define p name params body => by
    have hbody := stmtsOfItems?_stmtItems body
    simp [Stmt.toJson, jsonNode, Stmt.ofJson?, hbody]
  | .hole p => rfl

theorem stmtsOfItems?_stmtItems : ∀ ss : List Stmt, stmtsOfItems? (stmtItems ss) = some ss
  | [] => rfl
  | s :: ss => by
    have hs := s.ofJson?_toJson
    have hss := stmtsOfItems?_stmtItems ss
    simp [stmtItems, stmtsOfItems?, hs, hss]

theorem blockOf?_otherwiseJson : ∀ otherwise : Option (List Stmt),
    blockOf? (otherwiseJson otherwise) = some otherwise
  | none => rfl
  | some body => by
    have hbody := stmtsOfItems?_stmtItems body
    simp [otherwiseJson, hbody]

end

/-- Decoding undoes encoding, for every program. -/
theorem Program.ofJson?_toJson (program : Program) :
    Program.ofJson? program.toJson = some program := by
  rw [Program.toJson, Program.ofJson?, ← stmtItems_eq_map]
  exact stmtsOfItems?_stmtItems program

/-! ### Programs that were parsed -/

namespace Json

theorem isWritableChar_of_isWordChar {c : Char} (h : isWordChar c = true) :
    isWritableChar c = true := by
  have hcontrol : ∀ n : Fin 32, isWordChar (Char.ofNat n) = false := by decide
  by_cases hc : c.toNat < 32
  · have hword := hcontrol ⟨c.toNat, hc⟩
    rw [Char.ofNat_toNat, h] at hword
    cases hword
  · have hle : ' ' ≤ c := UInt32.le_iff_toNat_le.mpr (Nat.le_of_not_lt hc)
    simp [isWritableChar, hle]

theorem str_isWritable {name : String} (h : isIdentifier name = true) :
    (str name).isWritable = true := by
  unfold isIdentifier at h
  split at h
  · cases h
  · rename_i c cs hcs
    simp only [Bool.and_eq_true] at h
    have hall : (c :: cs).all isWordChar = true := by
      rw [List.all_cons, Bool.and_eq_true]
      exact ⟨by simp [isWordChar, h.1.1], h.1.2⟩
    rw [isWritable, isWritableText, hcs]
    exact List.all_eq_true.mpr fun d hd =>
      isWritableChar_of_isWordChar (List.all_eq_true.mp hall d hd)

theorem areWritable_map {α : Type} {encode : α → Json} {as : List α}
    (h : ∀ a ∈ as, (encode a).isWritable = true) : areWritable (as.map encode) = true := by
  induction as with
  | nil => rfl
  | cons a as ih =>
    rw [List.forall_mem_cons] at h
    rw [List.map_cons, areWritable, h.1, ih h.2]
    rfl

theorem areWritableFields_of_forall {fields : List (String × Json)}
    (hkeys : (fields.map Prod.fst).all isWritableText = true)
    (hvalues : ∀ field ∈ fields, field.2.isWritable = true) :
    areWritableFields fields = true := by
  induction fields with
  | nil => rfl
  | cons field fields ih =>
    rw [List.map_cons, List.all_cons, Bool.and_eq_true] at hkeys
    rw [List.forall_mem_cons] at hvalues
    rw [areWritableFields, hkeys.1, hvalues.1, ih hkeys.2 hvalues.2]
    rfl

/-- A node has a text if its kind, the names of its fields and their values have. -/
theorem jsonNode_isWritable {kind : String} {fields : List (String × Json)}
    (hkind : isWritableText kind = true)
    (hkeys : (fields.map Prod.fst).all isWritableText = true)
    (hvalues : ∀ field ∈ fields, field.2.isWritable = true) :
    (jsonNode kind fields).isWritable = true := by
  rw [jsonNode, isWritable, areWritableFields, isWritable, hkind,
    areWritableFields_of_forall hkeys hvalues]
  rfl

end Json

open Json (isWritableText isWritableChar str_isWritable areWritable_map jsonNode_isWritable)

theorem Pos.toJson_isWritable (p : Pos) : p.toJson.isWritable = true := rfl

theorem Operator.text_isWritable (o : Operator) : (Json.str o.text).isWritable = true := by
  cases o <;> rfl

mutual

theorem Expr.toJson_isWritable : ∀ {e : Expr}, (∀ f ∈ e.atoms, f.isLexical = true) →
    e.toJson.isWritable = true
  | .number value, h => by
    have hvalue : (Json.number value).isWritable = true :=
      h (.literal value) (by simp [Expr.atoms])
    exact jsonNode_isWritable rfl (by simp [isWritableText, isWritableChar])
      (by simp [hvalue])
  | .ident name, h => by
    have hname := str_isWritable (h (.var name) (by simp [Expr.atoms]))
    exact jsonNode_isWritable rfl (by simp [isWritableText, isWritableChar])
      (by simp [hname])
  | .call name args, h => by
    rw [Expr.atoms, List.forall_mem_cons] at h
    have hname := str_isWritable h.1
    have hargs : (Json.arr (exprItems args)).isWritable = true := exprItems_areWritable h.2
    exact jsonNode_isWritable rfl (by simp [isWritableText, isWritableChar])
      (by simp [hname, hargs])
  | .binary o left right, h => by
    rw [Expr.atoms, List.forall_mem_append] at h
    have hleft := Expr.toJson_isWritable h.1
    have hright := Expr.toJson_isWritable h.2
    have hkind : isWritableText o.kind = true := by cases o <;> rfl
    exact jsonNode_isWritable hkind (by simp [isWritableText, isWritableChar])
      (by simp [o.text_isWritable, hleft, hright])
  | .pair left right, h => by
    rw [Expr.atoms, List.forall_mem_append] at h
    have hleft := Expr.toJson_isWritable h.1
    have hright := Expr.toJson_isWritable h.2
    have hop : (Json.str "").isWritable = true := rfl
    exact jsonNode_isWritable rfl (by simp [isWritableText, isWritableChar])
      (by simp [hop, hleft, hright])
  | .hole, _ => rfl

theorem exprItems_areWritable : ∀ {es : List Expr}, (∀ f ∈ atomsOf es, f.isLexical = true) →
    Json.areWritable (exprItems es) = true
  | [], _ => rfl
  | e :: es, h => by
    rw [atomsOf, List.forall_mem_append] at h
    rw [exprItems, Json.areWritable, Expr.toJson_isWritable h.1, exprItems_areWritable h.2]
    rfl

end

mutual

theorem Stmt.toJson_isWritable {s : Stmt} (h : ∀ f ∈ s.atoms, f.isLexical = true) :
    s.toJson.isWritable = true := by
  rw [s.atoms_eq, List.forall_mem_append] at h
  obtain ⟨hown, hinner⟩ := h
  have hpos := Pos.toJson_isWritable
  cases s with
  | expr p value =>
    have hvalue := Expr.toJson_isWritable hown
    exact jsonNode_isWritable rfl (by simp [isWritableText, isWritableChar])
      (by simp [hpos, hvalue])
  | declare p name value =>
    rw [Stmt.ownAtoms, List.forall_mem_cons] at hown
    have hvalue := Expr.toJson_isWritable hown.2
    exact jsonNode_isWritable rfl (by simp [isWritableText, isWritableChar])
      (by simp [hpos, str_isWritable hown.1, hvalue])
  | assign p name value =>
    rw [Stmt.ownAtoms, List.forall_mem_cons] at hown
    have hvalue := Expr.toJson_isWritable hown.2
    exact jsonNode_isWritable rfl (by simp [isWritableText, isWritableChar])
      (by simp [hpos, str_isWritable hown.1, hvalue])
  | branch p cond body otherwise =>
    rw [Stmt.inner, Program.atoms_append, List.forall_mem_append] at hinner
    have hcond := Expr.toJson_isWritable hown
    have hbody := stmtItems_isWritable hinner.1
    have hotherwise := otherwiseJson_isWritable hinner.2
    exact jsonNode_isWritable rfl (by simp [isWritableText, isWritableChar])
      (by simp [hpos, hcond, hbody, hotherwise])
  | count p var bounds body =>
    rw [Stmt.ownAtoms, List.forall_mem_cons] at hown
    have hbounds : (Json.arr (bounds.map Expr.toJson)).isWritable = true := by
      rw [← exprItems_eq_map]
      exact exprItems_areWritable hown.2
    have hbody : (Json.arr (stmtItems body)).isWritable = true := stmtItems_isWritable hinner
    exact jsonNode_isWritable rfl (by simp [isWritableText, isWritableChar])
      (by simp [hpos, str_isWritable hown.1, hbounds, hbody])
  | loop p cond body =>
    have hcond := Expr.toJson_isWritable hown
    have hbody : (Json.arr (stmtItems body)).isWritable = true := stmtItems_isWritable hinner
    exact jsonNode_isWritable rfl (by simp [isWritableText, isWritableChar])
      (by simp [hpos, hcond, hbody])
  | define p name params body =>
    rw [Stmt.ownAtoms, List.forall_mem_cons, List.forall_mem_map] at hown
    have hparams : (Json.arr (params.map .str)).isWritable = true :=
      areWritable_map fun x hx => str_isWritable (hown.2 x hx)
    have hbody : (Json.arr (stmtItems body)).isWritable = true := stmtItems_isWritable hinner
    exact jsonNode_isWritable rfl (by simp [isWritableText, isWritableChar])
      (by simp [hpos, str_isWritable hown.1, hparams, hbody])
  | hole p =>
    exact jsonNode_isWritable rfl (by simp [isWritableText, isWritableChar])
      (by simp [hpos])

theorem stmtItems_isWritable {ss : List Stmt}
    (h : ∀ f ∈ Program.atoms ss, f.isLexical = true) :
    (Json.arr (stmtItems ss)).isWritable = true := by
  cases ss with
  | nil => rfl
  | cons s ss =>
    rw [Program.atoms_cons, List.forall_mem_append] at h
    have hss := stmtItems_isWritable h.2
    rw [Json.isWritable] at hss ⊢
    rw [stmtItems, Json.areWritable, Stmt.toJson_isWritable h.1, hss]
    rfl

theorem otherwiseJson_isWritable {o : Option (List Stmt)}
    (h : ∀ f ∈ Program.atoms (o.getD []), f.isLexical = true) :
    (otherwiseJson o).isWritable = true := by
  cases o with
  | none => rfl
  | some body => exact stmtItems_isWritable h

end

/-- A program that was parsed has a JSON text. -/
theorem Program.toJson_isWritable {source : String} {program : Program}
    (h : parse source = .ok program) : program.toJson.isWritable = true := by
  rw [Program.toJson, ← stmtItems_eq_map]
  exact stmtItems_isWritable (parse_atoms_isLexical h)

/-- The JSON text of a program that was parsed follows the grammar of JSON, and whatever value the
grammar gives it, this is decoded as the program; so the reader and the decoder recover it. -/
theorem parse_toJson_readBack {source : String} {program : Program}
    (h : parse source = .ok program) :
    (∃ j, Json.DocumentText j program.toJson.text.toList) ∧
      (∀ j, Json.DocumentText j program.toJson.text.toList →
        Program.ofJson? j = some program) ∧
      (Json.read? program.toJson.text).bind Program.ofJson? = some program := by
  have hdocument := Json.text_documentText (Program.toJson_isWritable h)
  have hdecode := Program.ofJson?_toJson program
  refine ⟨⟨_, hdocument⟩, ?_, ?_⟩
  · intro j hj
    rw [hj.unique hdocument]
    exact hdecode
  · rw [hdocument.read?_eq_some]
    exact hdecode

/-- Two choices, of which the second branch of one is empty and that of the other is missing. -/
theorem choices_parse_toJson_readBack :
    ∃ program : Program, parse "if x then else end\nif -0 then f(x) end" = .ok program ∧
      program = [.branch ⟨1, 1⟩ (.ident "x") [] (some []),
        .branch ⟨2, 1⟩ (.number (.finite true .zero)) [.expr ⟨2, 12⟩ (.call "f" [.ident "x"])]
          none] ∧
      (∃ j, Json.DocumentText j program.toJson.text.toList) ∧
      (∀ j, Json.DocumentText j program.toJson.text.toList →
        Program.ofJson? j = some program) ∧
      (Json.read? program.toJson.text).bind Program.ofJson? = some program := by
  have hparse : parse "if x then else end\nif -0 then f(x) end" =
      .ok [.branch ⟨1, 1⟩ (.ident "x") [] (some []),
        .branch ⟨2, 1⟩ (.number (.finite true .zero)) [.expr ⟨2, 12⟩ (.call "f" [.ident "x"])]
          none] := by
    decide +kernel
  exact ⟨_, hparse, rfl, parse_toJson_readBack hparse⟩

end NumScript
