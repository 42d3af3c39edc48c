import NumScript.Proofs.Codegen.Atoms
import NumScript.Proofs.Grammar
import NumScript.Proofs.Number.Rounding
import NumScript.Proofs.Token.Shape

/-!
# NumScript.Proofs.Codegen.Lexical

The atoms of a program that was parsed. A tree that was built by hand may have any text for a name
and any value for a number. A program that was read from a text has identifiers for names, and its
numbers are values that a numeral can denote, which are all but the one that is not a number
(`parse_atoms_isLexical`).
-/

namespace NumScript

/-! ### Numbers that can be read -/

/-- Whether the value is not a number. -/
def Double.isNan : Double → Bool
  | .finite _ _ => false
  | .infinite _ => false
  | .nan => true

theorem Double.isNan_neg (v : Double) : v.neg.isNan = v.isNan := by
  cases v <;> rfl

/-- A decimal denotes a number. -/
theorem Decimal.isNan_toDouble (negative : Bool) (d : Decimal) :
    (d.toDouble negative).isNan = false := by
  obtain ⟨size, hsize⟩ := d.exists_toDouble_eq_ofSize
  rw [hsize]
  cases size <;> rfl

/-- Whether an atom can be read from a text. -/
def Fragment.isLexical : Fragment → Bool
  | .gap _ => true
  | .word _ => true
  | .literal value => !value.isNan
  | .var name => isIdentifier name
  | .symbol name => isIdentifier name

/-! ### Flat expressions -/

mutual

/-- Whether the names and numbers of an operand can be read from a text. -/
def Operand.isLexical : Operand → Bool
  | .number value => !value.isNan
  | .ident name => isIdentifier name
  | .call name args => isIdentifier name && lexicalArgs args

/-- Whether those of arguments can. -/
def lexicalArgs : List (List (Item Operand)) → Bool
  | [] => true
  | arg :: args => lexicalItems arg && lexicalArgs args

/-- Whether those of a flat expression can. -/
def lexicalItems : List (Item Operand) → Bool
  | [] => true
  | item :: items => lexicalItem item && lexicalItems items

/-- Whether those of an item can. -/
def lexicalItem : Item Operand → Bool
  | .operand a => a.isLexical
  | .op _ => true
  | .opening => true
  | .closing => true
  | .blank => true

end

theorem lexicalItems_append (items more : List (Item Operand)) :
    lexicalItems (items ++ more) = (lexicalItems items && lexicalItems more) := by
  induction items with
  | nil => simp [lexicalItems]
  | cons item items ih => simp [lexicalItems, ih, Bool.and_assoc]

mutual

/-- What is read from words can be read from a text if the words can. -/
theorem FlatWords.lexicalItems : ∀ {f : Flat} {ws : List Lexeme}, FlatWords f ws →
    (∀ w ∈ ws, w.isValid = true) → NumScript.lexicalItems f = true
  | _, _, .term h, hws => h.lexicalItems hws
  | _, _, .more hf o hg, hws => by
    rw [List.forall_mem_append, List.forall_mem_cons] at hws
    rw [lexicalItems_append, hf.lexicalItems hws.1, NumScript.lexicalItems,
      hg.lexicalItems hws.2.2]
    rfl

theorem TermWords.lexicalItems : ∀ {f : Flat} {ws : List Lexeme}, TermWords f ws →
    (∀ w ∈ ws, w.isValid = true) → NumScript.lexicalItems f = true
  | _, _, .number n, _ => by
    have hvalue : n.value.isNan = false := n.decimal.isNan_toDouble false
    simp [NumScript.lexicalItems, lexicalItem, Operand.isLexical, hvalue]
  | _, _, .negative n, _ => by
    have hvalue : n.value.isNan = false := n.decimal.isNan_toDouble false
    simp [NumScript.lexicalItems, lexicalItem, Operand.isLexical, Double.isNan_neg, hvalue]
  | _, _, .ident name, hws => by
    have hname : isIdentifier name = true := hws (.ident name) (by simp)
    simp [NumScript.lexicalItems, lexicalItem, Operand.isLexical, hname]
  | _, _, .group h, hws => by
    have hinner := h.lexicalItems fun w hw => hws w (by simp [hw])
    rw [List.cons_append, NumScript.lexicalItems, lexicalItems_append, hinner]
    rfl
  | _, _, .noArgs name, hws => by
    have hname : isIdentifier name = true := hws (.ident name) (by simp)
    simp [NumScript.lexicalItems, lexicalItem, Operand.isLexical, lexicalArgs, hname]
  | _, _, .call name h, hws => by
    have hname : isIdentifier name = true := hws (.ident name) (by simp)
    have hargs := h.lexicalArgs fun w hw => hws w (by simp [hw])
    simp [NumScript.lexicalItems, lexicalItem, Operand.isLexical, hname, hargs]

theorem ArgsWords.lexicalArgs : ∀ {args : List Flat} {ws : List Lexeme}, ArgsWords args ws →
    (∀ w ∈ ws, w.isValid = true) → NumScript.lexicalArgs args = true
  | _, _, .one h, hws => by
    rw [NumScript.lexicalArgs, h.lexicalItems hws]
    rfl
  | _, _, .more hf hargs, hws => by
    rw [List.forall_mem_append, List.forall_mem_cons] at hws
    rw [NumScript.lexicalArgs, hf.lexicalItems hws.1, hargs.lexicalArgs hws.2.2]
    rfl

end

/-! ### Trees -/

mutual

/-- A tree has the names and numbers of its reading. -/
theorem Layout.atoms_isLexical : ∀ t : Layout, lexicalItems t.reading = true →
    ∀ f ∈ t.tree.atoms, f.isLexical = true
  | .number v, h => by
    simpa [Layout.reading, Layout.tree, Expr.atoms, lexicalItems, lexicalItem, Operand.isLexical,
      Fragment.isLexical] using h
  | .ident x, h => by
    simpa [Layout.reading, Layout.tree, Expr.atoms, lexicalItems, lexicalItem, Operand.isLexical,
      Fragment.isLexical] using h
  | .call name args, h => by
    simp only [Layout.reading, lexicalItems, lexicalItem, Operand.isLexical, Bool.and_true,
      Bool.and_eq_true] at h
    rw [Layout.tree, Expr.atoms, List.forall_mem_cons]
    exact ⟨h.1, atomsOf_isLexical args h.2⟩
  | .group t, h => by
    rw [Layout.reading, List.cons_append, lexicalItems, lexicalItems_append, Bool.and_eq_true,
      Bool.and_eq_true] at h
    exact t.atoms_isLexical h.2.1
  | .binary o l r, h => by
    rw [Layout.reading, lexicalItems_append, lexicalItems, Bool.and_eq_true, Bool.and_eq_true] at h
    rw [Layout.tree, Expr.atoms, List.forall_mem_append]
    exact ⟨l.atoms_isLexical h.1, r.atoms_isLexical h.2.2⟩

theorem atomsOf_isLexical : ∀ ts : List Layout, lexicalArgs (readings ts) = true →
    ∀ f ∈ atomsOf (trees ts), f.isLexical = true
  | [], _ => fun f hf => absurd hf List.not_mem_nil
  | t :: ts, h => by
    rw [readings, lexicalArgs, Bool.and_eq_true] at h
    rw [trees, atomsOf, List.forall_mem_append]
    exact ⟨t.atoms_isLexical h.1, atomsOf_isLexical ts h.2⟩

end

/-! ### Statements -/

/-- Every token has a lexeme that can be read. -/
def ValidTokens (ts : List Token) : Prop := ∀ t ∈ ts, t.lexeme.isValid = true

theorem ValidTokens.append {ts us : List Token} :
    ValidTokens (ts ++ us) ↔ ValidTokens ts ∧ ValidTokens us := List.forall_mem_append

theorem ValidTokens.cons {t : Token} {ts : List Token} :
    ValidTokens (t :: ts) ↔ t.lexeme.isValid = true ∧ ValidTokens ts := List.forall_mem_cons

theorem ExprTokens.atoms_isLexical {e : Expr} {ts : List Token} (h : ExprTokens e ts)
    (hts : ValidTokens ts) : ∀ f ∈ e.atoms, f.isLexical = true := by
  obtain ⟨f, hf, he⟩ := h
  have hitems := hf.lexicalItems (List.forall_mem_map.mpr hts)
  obtain ⟨t, rfl, ht⟩ := hf.wellFormed.exists_layout
  obtain rfl := Except.ok.inj (ht.resolve_reading.symm.trans he)
  exact t.atoms_isLexical hitems

theorem BoundsTokens.atoms_isLexical {es : List Expr} {ts : List Token} (h : BoundsTokens es ts)
    (hts : ValidTokens ts) : ∀ f ∈ atomsOf es, f.isLexical = true := by
  induction h with
  | nil => exact fun f hf => absurd hf List.not_mem_nil
  | cons p he _ ih =>
    rw [ValidTokens.cons, ValidTokens.append] at hts
    rw [atomsOf, List.forall_mem_append]
    exact ⟨he.atoms_isLexical hts.2.1, ih hts.2.2⟩

theorem isIdentifier_of_paramWords {xs : List String} {ts : List Token}
    (h : words ts = paramWords xs) (hts : ValidTokens ts) :
    ∀ x ∈ xs, isIdentifier x = true := by
  have hmore : ∀ xs : List String, (∀ w ∈ moreParamWords xs, w.isValid = true) →
      ∀ x ∈ xs, isIdentifier x = true := by
    intro xs hxs
    induction xs with
    | nil => exact fun x hx => absurd hx List.not_mem_nil
    | cons x xs ih =>
      rw [moreParamWords, List.forall_mem_cons, List.forall_mem_cons] at hxs
      exact List.forall_mem_cons.mpr ⟨hxs.2.1, ih hxs.2.2⟩
  have hws : ∀ w ∈ paramWords xs, w.isValid = true := h ▸ List.forall_mem_map.mpr hts
  cases xs with
  | nil => exact fun x hx => absurd hx List.not_mem_nil
  | cons x xs =>
    rw [paramWords, List.forall_mem_cons] at hws
    exact List.forall_mem_cons.mpr ⟨hws.1, hmore xs hws.2⟩

/-- The atoms of a statement and of the statements in it. -/
def Stmt.atoms (s : Stmt) : List Fragment := s.listing.flatMap Stmt.ownAtoms

theorem Program.atoms_cons (s : Stmt) (ss : List Stmt) :
    Program.atoms (s :: ss) = s.atoms ++ Program.atoms ss := by
  rw [Program.atoms, listings, List.flatMap_append]
  rfl

/-- The statements in the bodies of a statement. -/
def Stmt.inner : Stmt → List Stmt
  | .branch _ _ body rest => body ++ rest.getD []
  | .count _ _ _ body => body
  | .loop _ _ body => body
  | .define _ _ _ body => body
  | _ => []

theorem Program.atoms_append (ss ss' : List Stmt) :
    Program.atoms (ss ++ ss') = Program.atoms ss ++ Program.atoms ss' := by
  induction ss with
  | nil => rfl
  | cons s ss ih =>
    rw [List.cons_append, Program.atoms_cons, Program.atoms_cons, ih, List.append_assoc]

/-- The atoms of a statement are its own and those of the statements in its bodies. -/
theorem Stmt.atoms_eq (s : Stmt) : s.atoms = s.ownAtoms ++ Program.atoms s.inner := by
  cases s with
  | branch p cond body rest =>
    rw [inner, Program.atoms_append]
    cases rest <;> simp [atoms, listing, elseListing, Program.atoms, listings]
  | _ => simp [atoms, listing, inner, Program.atoms, listings]

theorem Stmt.isLexical_of_mem_atoms {s : Stmt} (hown : ∀ f ∈ s.ownAtoms, f.isLexical = true)
    (hinner : ∀ f ∈ Program.atoms s.inner, f.isLexical = true) :
    ∀ f ∈ s.atoms, f.isLexical = true := by
  rw [s.atoms_eq]
  exact List.forall_mem_append.mpr ⟨hown, hinner⟩

mutual

theorem StmtTokens.atoms_isLexical : ∀ {s : Stmt} {ts next : List Token}, StmtTokens s ts next →
    ValidTokens ts → ∀ f ∈ s.atoms, f.isLexical = true
  | _, _, _, .expr h _, hts =>
    Stmt.isLexical_of_mem_atoms (h.atoms_isLexical hts) (List.forall_mem_nil _)
  | _, _, _, .declare name p q next, hts => by
    rw [ValidTokens.cons, ValidTokens.cons] at hts
    have hzero : ∀ f ∈ Expr.atoms (.number .zero), f.isLexical = true := by decide
    exact Stmt.isLexical_of_mem_atoms (List.forall_mem_cons.mpr ⟨hts.2.1, hzero⟩)
      (List.forall_mem_nil _)
  | _, _, _, .declareAs name p q r h _, hts => by
    rw [ValidTokens.cons, ValidTokens.cons, ValidTokens.cons] at hts
    have he := h.atoms_isLexical hts.2.2.2
    exact Stmt.isLexical_of_mem_atoms (List.forall_mem_cons.mpr ⟨hts.2.1, he⟩)
      (List.forall_mem_nil _)
  | _, _, _, .assign _ _ _ h _, hts => by
    rw [ValidTokens.cons, ValidTokens.cons] at hts
    have he := h.atoms_isLexical hts.2.2
    exact Stmt.isLexical_of_mem_atoms (List.forall_mem_cons.mpr ⟨hts.1, he⟩)
      (List.forall_mem_nil _)
  | _, _, _, .branch h, hts => h.atoms_isLexical (ValidTokens.cons.mp hts).2
  | _, _, _, .loop _ _ _ hc hb, hts => by
    rw [ValidTokens.cons, ValidTokens.append, ValidTokens.cons, ValidTokens.append] at hts
    exact Stmt.isLexical_of_mem_atoms (hc.atoms_isLexical hts.2.1)
      (hb.atoms_isLexical hts.2.2.2.1)
  | _, _, _, .count _ _ _ _ _ hes hone hthree hb, hts => by
    rw [ValidTokens.cons, ValidTokens.cons, ValidTokens.append, ValidTokens.cons,
      ValidTokens.append] at hts
    have hbounds := hes.atoms_isLexical hts.2.2.1
    exact Stmt.isLexical_of_mem_atoms (List.forall_mem_cons.mpr ⟨hts.2.1, hbounds⟩)
      (hb.atoms_isLexical hts.2.2.2.2.1)
  | _, _, _, .define _ _ _ _ _ _ hxs hb, hts => by
    rw [ValidTokens.cons, ValidTokens.cons, ValidTokens.cons, ValidTokens.append, ValidTokens.cons,
      ValidTokens.append] at hts
    have hparams := isIdentifier_of_paramWords hxs hts.2.2.2.1
    exact Stmt.isLexical_of_mem_atoms
      (List.forall_mem_cons.mpr ⟨hts.2.1, List.forall_mem_map.mpr hparams⟩)
      (hb.atoms_isLexical hts.2.2.2.2.2.1)

/-- The atoms of statements that were read can be read from a text. -/
theorem BlockTokens.atoms_isLexical : ∀ {ss : List Stmt} {ts next : List Token},
    BlockTokens ss ts next → ValidTokens ts → ∀ f ∈ Program.atoms ss, f.isLexical = true
  | _, _, _, .nil _, _ => List.forall_mem_nil _
  | _, _, _, .cons hs hss, hts => by
    rw [ValidTokens.append] at hts
    rw [Program.atoms_cons, List.forall_mem_append]
    exact ⟨hs.atoms_isLexical hts.1, hss.atoms_isLexical hts.2⟩

theorem BranchTokens.atoms_isLexical : ∀ {p : Pos} {s : Stmt} {ts next : List Token},
    BranchTokens p s ts next → ValidTokens ts → ∀ f ∈ s.atoms, f.isLexical = true
  | _, _, _, _, .mk _ _ hc hb ho, hts => by
    rw [ValidTokens.append, ValidTokens.cons, ValidTokens.append] at hts
    refine Stmt.isLexical_of_mem_atoms (hc.atoms_isLexical hts.1) ?_
    rw [Stmt.inner, Program.atoms_append, List.forall_mem_append]
    exact ⟨hb.atoms_isLexical hts.2.2.1, ho.atoms_isLexical hts.2.2.2⟩

theorem ElseTokens.atoms_isLexical : ∀ {o : Option (List Stmt)} {ts next : List Token},
    ElseTokens o ts next → ValidTokens ts →
      ∀ f ∈ Program.atoms (o.getD []), f.isLexical = true
  | _, _, _, .none _ _, _ => List.forall_mem_nil _
  | _, _, _, .body _ _ hb, hts => by
    rw [ValidTokens.cons, ValidTokens.append] at hts
    exact hb.atoms_isLexical hts.2.1
  | _, _, _, .chain h, hts => by
    rw [ValidTokens.cons] at hts
    rw [Option.getD_some, Program.atoms_cons, List.forall_mem_append]
    exact ⟨h.atoms_isLexical hts.2, List.forall_mem_nil _⟩

end

/-- The atoms of a program that was parsed can be read from a text. -/
theorem parse_atoms_isLexical {source : String} {p : Program} (h : parse source = .ok p) :
    ∀ f ∈ p.atoms, f.isLexical = true := by
  cases hlex : lex source with
  | error e => rw [parse, hlex] at h; cases h
  | ok stream =>
    exact ((parse_eq_ok_iff hlex).mp h).atoms_isLexical (lexFrom_isValid hlex)

end NumScript
