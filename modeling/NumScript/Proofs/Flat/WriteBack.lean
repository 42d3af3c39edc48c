import NumScript.Proofs.Flat.Words
import NumScript.Proofs.Number.Rounding

/-!
# NumScript.Proofs.Flat.WriteBack

A flat expression is a faithful image of the tokens that it was read from. It is written back item
by item: markers become parentheses, a call its name and its arguments in parentheses with commas
between them, and a number that has a minus sign becomes a minus and the number without it. What is
written are the words that were read, where a numeral counts by its value, which is all that an
expression keeps of it (`Gist`).

Which expression is read can be told from this alone: `flatExpr` yields `f` exactly if `f` is
well-formed, is written back as the tokens from the old to the new place, and is not continued by
those that follow (`flatExpr_at_iff_writtenBack`).
-/

namespace NumScript

/-! ### Signs of numbers -/

/-- Whether the value has a minus sign. A zero can have one, too. -/
def Double.hasMinus : Double → Bool
  | .finite negative _ => negative
  | .infinite negative => negative
  | .nan => false

/-- A numeral has no minus sign, and with a minus before it it has one. -/
theorem Numeral.hasMinus_value (n : Numeral) :
    n.value.hasMinus = false ∧ n.value.neg.hasMinus = true := by
  obtain ⟨size, hsize⟩ := n.decimal.exists_toDouble_eq_ofSize
  rw [value, hsize false]
  cases size <;> exact ⟨rfl, rfl⟩

/-! ### Writing back -/

/-- What an expression keeps of a word: the value of a numeral, the name of an identifier and the
spelling of anything else. -/
inductive Gist where
  | number (value : Double)
  | ident (name : String)
  | mark (text : String)
deriving DecidableEq, Repr

/-- The gist of a word. -/
def Lexeme.gist : Lexeme → Gist
  | .number n => .number n.value
  | .ident name => .ident name
  | .keyword k => .mark k.text
  | .symbol s => .mark s.text

/-- The gists of words. -/
def gists (ws : List Lexeme) : List Gist := ws.map Lexeme.gist

mutual

/-- An operand, written back. -/
def Operand.writtenBack : Operand → List Gist
  | .number value => if value.hasMinus then [.mark "-", .number value.neg] else [.number value]
  | .ident name => [.ident name]
  | .call name args => .ident name :: .mark "(" :: argsWrittenBack args ++ [.mark ")"]

/-- The arguments of a call, written back with commas between them. -/
def argsWrittenBack : List (List (Item Operand)) → List Gist
  | [] => []
  | [arg] => Flat.writtenBack arg
  | arg :: next :: args => Flat.writtenBack arg ++ .mark "," :: argsWrittenBack (next :: args)

/-- The items of a flat expression, written back one after the other. -/
def Flat.writtenBack : List (Item Operand) → List Gist
  | [] => []
  | item :: items => itemWrittenBack item ++ Flat.writtenBack items

/-- An item, written back. One of no kind leaves no trace. -/
def itemWrittenBack : Item Operand → List Gist
  | .operand a => a.writtenBack
  | .op text => [.mark text]
  | .opening => [.mark "("]
  | .closing => [.mark ")"]
  | .blank => []

end

theorem Flat.writtenBack_append (f g : Flat) :
    Flat.writtenBack (f ++ g) = Flat.writtenBack f ++ Flat.writtenBack g := by
  induction f with
  | nil => simp [Flat.writtenBack]
  | cons item f ih => simp [Flat.writtenBack, ih]

theorem Flat.writtenBack_operand (a : Operand) :
    Flat.writtenBack [.operand a] = a.writtenBack := by
  simp [Flat.writtenBack, itemWrittenBack]

theorem Flat.writtenBack_group (f : Flat) :
    Flat.writtenBack (.opening :: f ++ [.closing]) =
      .mark "(" :: Flat.writtenBack f ++ [.mark ")"] := by
  simp [Flat.writtenBack, Flat.writtenBack_append, itemWrittenBack]

theorem Flat.writtenBack_more (f : Flat) (o : Operator) (g : Flat) :
    Flat.writtenBack (f ++ .op o.text :: g) =
      Flat.writtenBack f ++ .mark o.text :: Flat.writtenBack g := by
  simp [Flat.writtenBack, Flat.writtenBack_append, itemWrittenBack]

theorem argsWrittenBack_cons (arg : Flat) {args : List Flat} (h : args ≠ []) :
    argsWrittenBack (arg :: args) =
      Flat.writtenBack arg ++ .mark "," :: argsWrittenBack args := by
  cases args with
  | nil => exact absurd rfl h
  | cons next args => rw [argsWrittenBack]

/-! ### Words are written back -/

@[simp]
theorem gists_nil : gists [] = [] := rfl

@[simp]
theorem gists_cons (w : Lexeme) (ws : List Lexeme) : gists (w :: ws) = w.gist :: gists ws := rfl

@[simp]
theorem gists_append (ws us : List Lexeme) : gists (ws ++ us) = gists ws ++ gists us := by
  simp [gists]

theorem ArgsWords.ne_nil {args : List Flat} {ws : List Lexeme} (h : ArgsWords args ws) :
    args ≠ [] := by
  cases h <;> exact List.cons_ne_nil _ _

mutual

/-- The words of a flat expression are what is written back. -/
theorem FlatWords.gists_eq : ∀ {f : Flat} {ws : List Lexeme}, FlatWords f ws →
    gists ws = Flat.writtenBack f
  | _, _, .term h => h.gists_eq
  | _, _, .more hf o hg => by
    rw [gists_append, gists_cons, hf.gists_eq, hg.gists_eq, Flat.writtenBack_more]
    rfl

theorem TermWords.gists_eq : ∀ {f : Flat} {ws : List Lexeme}, TermWords f ws →
    gists ws = Flat.writtenBack f
  | _, _, .number n => by
    rw [Flat.writtenBack_operand, Operand.writtenBack, n.hasMinus_value.1]
    rfl
  | _, _, .negative n => by
    rw [Flat.writtenBack_operand, Operand.writtenBack, n.hasMinus_value.2, Double.neg_neg]
    rfl
  | _, _, .ident name => by
    rw [Flat.writtenBack_operand, Operand.writtenBack]
    rfl
  | _, _, .group h => by
    rw [Flat.writtenBack_group, ← h.gists_eq]
    simp [Lexeme.gist, Symbol.text]
  | _, _, .noArgs name => by
    rw [Flat.writtenBack_operand, Operand.writtenBack, argsWrittenBack]
    rfl
  | _, _, .call name h => by
    rw [Flat.writtenBack_operand, Operand.writtenBack, ← h.gists_eq]
    simp [Lexeme.gist, Symbol.text]

theorem ArgsWords.gists_eq : ∀ {args : List Flat} {ws : List Lexeme}, ArgsWords args ws →
    gists ws = argsWrittenBack args
  | _, _, .one h => by rw [argsWrittenBack, h.gists_eq]
  | _, _, .more hf hargs => by
    rw [argsWrittenBack_cons _ hargs.ne_nil, gists_append, gists_cons, hf.gists_eq, hargs.gists_eq]
    rfl

end

/-! ### What is written back are words -/

theorem gists_eq_nil_iff {ws : List Lexeme} : gists ws = [] ↔ ws = [] := List.map_eq_nil_iff

theorem gists_eq_cons_iff {ws : List Lexeme} {g : Gist} {gs : List Gist} :
    gists ws = g :: gs ↔ ∃ w us, ws = w :: us ∧ w.gist = g ∧ gists us = gs := List.map_eq_cons_iff

theorem gists_eq_append_iff {ws : List Lexeme} {gs hs : List Gist} :
    gists ws = gs ++ hs ↔ ∃ us vs, ws = us ++ vs ∧ gists us = gs ∧ gists vs = hs :=
  List.map_eq_append_iff

/-- A symbol is known by its spelling. -/
theorem Lexeme.gist_eq_mark_iff {w : Lexeme} {s : Symbol} :
    w.gist = .mark s.text ↔ w = .symbol s := by
  constructor
  · intro h
    have hmark : w.mark? = some s.text := by
      cases w with
      | number n => cases h
      | ident name => cases h
      | keyword k => exact congrArg some (Gist.mark.inj h)
      | symbol s' => exact congrArg some (Gist.mark.inj h)
    exact Lexeme.eq_of_mark? hmark rfl
  · rintro rfl
    rfl

theorem Lexeme.gist_eq_number_iff {w : Lexeme} {value : Double} :
    w.gist = .number value ↔ ∃ n : Numeral, w = .number n ∧ n.value = value := by
  cases w <;> simp [gist]

theorem Lexeme.gist_eq_ident_iff {w : Lexeme} {name : String} :
    w.gist = .ident name ↔ w = .ident name := by
  cases w <;> simp [gist]

/-- Words that are written back for arguments are words of these arguments. -/
theorem argsWords_of_gists {args : List Flat} (hne : args ≠ [])
    (h : ∀ arg ∈ args, ∀ {ws : List Lexeme}, gists ws = Flat.writtenBack arg → FlatWords arg ws)
    {ws : List Lexeme} (hws : gists ws = argsWrittenBack args) : ArgsWords args ws := by
  induction args generalizing ws with
  | nil => exact absurd rfl hne
  | cons arg args ih =>
    obtain ⟨harg, hargs⟩ := List.forall_mem_cons.mp h
    by_cases hmore : args = []
    · subst hmore
      rw [argsWrittenBack] at hws
      exact .one (harg hws)
    · rw [argsWrittenBack_cons arg hmore, gists_eq_append_iff] at hws
      obtain ⟨us, _, rfl, hus, hrest⟩ := hws
      obtain ⟨_, vs, rfl, hcomma, hvs⟩ := gists_eq_cons_iff.mp hrest
      obtain rfl := (Lexeme.gist_eq_mark_iff (s := .comma)).mp hcomma
      exact .more (harg hus) (ih hmore hargs hvs)

mutual

/-- Words that are written back for a well-formed expression are words of this expression. -/
theorem Flat.WellFormed.flatWords : ∀ {f : Flat}, Flat.WellFormed f →
    ∀ {ws : List Lexeme}, gists ws = Flat.writtenBack f → FlatWords f ws
  | _, .term h, _, hws => .term (h.termWords hws)
  | _, .more ht o hs, _, hws => by
    rw [Flat.writtenBack_more, gists_eq_append_iff] at hws
    obtain ⟨us, _, rfl, hus, hrest⟩ := hws
    obtain ⟨_, vs, rfl, hop, hvs⟩ := gists_eq_cons_iff.mp hrest
    obtain rfl := (Lexeme.gist_eq_mark_iff (s := .op o)).mp hop
    exact .more (ht.termWords hus) o (hs.flatWords hvs)

theorem Flat.IsTerm.termWords : ∀ {f : Flat}, Flat.IsTerm f →
    ∀ {ws : List Lexeme}, gists ws = Flat.writtenBack f → TermWords f ws
  | _, .number value, _, hws => by
    rw [Flat.writtenBack_operand, Operand.writtenBack] at hws
    split at hws
    · -- a minus and the number without it
      simp only [gists_eq_cons_iff, gists_eq_nil_iff, Lexeme.gist_eq_number_iff] at hws
      obtain ⟨_, _, rfl, hminus, _, _, rfl, ⟨n, rfl, hn⟩, rfl⟩ := hws
      obtain rfl := (Lexeme.gist_eq_mark_iff (s := .op .sub)).mp hminus
      rw [← value.neg_neg, ← hn]
      exact .negative n
    · simp only [gists_eq_cons_iff, gists_eq_nil_iff, Lexeme.gist_eq_number_iff] at hws
      obtain ⟨_, _, rfl, ⟨n, rfl, rfl⟩, rfl⟩ := hws
      exact .number n
  | _, .ident name, _, hws => by
    rw [Flat.writtenBack_operand, Operand.writtenBack] at hws
    simp only [gists_eq_cons_iff, gists_eq_nil_iff, Lexeme.gist_eq_ident_iff] at hws
    obtain ⟨_, _, rfl, rfl, rfl⟩ := hws
    exact .ident name
  | _, @Flat.IsTerm.call name args h, _, hws => by
    have hargs : ∀ arg ∈ args, ∀ {ws : List Lexeme}, gists ws = Flat.writtenBack arg →
        FlatWords arg ws := fun arg harg => (h arg harg).flatWords
    rw [Flat.writtenBack_operand, Operand.writtenBack, List.cons_append, List.cons_append] at hws
    simp only [gists_eq_cons_iff, gists_eq_append_iff, gists_eq_nil_iff,
      Lexeme.gist_eq_ident_iff] at hws
    obtain ⟨_, _, rfl, rfl, _, _, rfl, hopen, ws, _, rfl, hws, _, _, rfl, hclose, rfl⟩ := hws
    obtain rfl := (Lexeme.gist_eq_mark_iff (s := .lparen)).mp hopen
    obtain rfl := (Lexeme.gist_eq_mark_iff (s := .rparen)).mp hclose
    cases args with
    | nil =>
      rw [argsWrittenBack, gists_eq_nil_iff] at hws
      subst hws
      exact .noArgs name
    | cons arg args => exact .call name (argsWords_of_gists (List.cons_ne_nil _ _) hargs hws)
  | _, .group h, _, hws => by
    rw [Flat.writtenBack_group, List.cons_append] at hws
    simp only [gists_eq_cons_iff, gists_eq_append_iff, gists_eq_nil_iff] at hws
    obtain ⟨_, _, rfl, hopen, ws, _, rfl, hws, _, _, rfl, hclose, rfl⟩ := hws
    obtain rfl := (Lexeme.gist_eq_mark_iff (s := .lparen)).mp hopen
    obtain rfl := (Lexeme.gist_eq_mark_iff (s := .rparen)).mp hclose
    exact .group (h.flatWords hws)

end

/-- The words of a flat expression are those that are written back, if it is well-formed. -/
theorem flatWords_iff_gists {f : Flat} {ws : List Lexeme} :
    FlatWords f ws ↔ Flat.WellFormed f ∧ gists ws = Flat.writtenBack f := by
  constructor
  · intro h
    exact ⟨h.wellFormed, h.gists_eq⟩
  · rintro ⟨hf, hws⟩
    exact hf.flatWords hws

/-! ### Places in a text -/

/-- The tokens from the place `i` on, up to the place `j`. -/
def tokensBetween (ts : List Token) (i j : Nat) : List Token := (ts.take j).drop i

theorem tokensBetween_append_drop (ts : List Token) {i j : Nat} (hij : i ≤ j) :
    tokensBetween ts i j ++ ts.drop j = ts.drop i := by
  have hdrop : (ts.drop i).drop (j - i) = ts.drop j := by
    rw [List.drop_drop, Nat.add_sub_cancel' hij]
  rw [tokensBetween, List.drop_take, ← hdrop, List.take_append_drop]

/-- At any place of a token list, a flat expression is read up to a later place exactly if it is
well-formed, the tokens in between are what it is written back as, and it goes no further: behind
them there is no operator, and no opening parenthesis if the last of them is an identifier. -/
theorem flatExpr_at_iff_writtenBack (ts : List Token) (i : Nat) (f : Flat) (rest : List Token) :
    flatExpr (ts.drop i) = .ok f rest ↔
      ∃ j, i < j ∧ j ≤ ts.length ∧ rest = ts.drop j ∧ Flat.WellFormed f ∧
        gists (words (tokensBetween ts i j)) = Flat.writtenBack f ∧
        Ends (words (tokensBetween ts i j)) (ts.drop j) := by
  rw [flatExpr_eq_ok_iff]
  constructor
  · rintro ⟨used, hused, hwords, hends⟩
    obtain ⟨w, us, hne, -⟩ := hwords.exists_cons
    have hpos : 0 < used.length := by
      cases used with
      | nil => cases hne
      | cons t used => exact Nat.succ_pos _
    have hlength := congrArg List.length hused
    rw [List.length_drop, List.length_append] at hlength
    have hrest : ts.drop (i + used.length) = rest := by
      rw [← List.drop_drop, hused, List.drop_left]
    have hbetween : tokensBetween ts i (i + used.length) = used := by
      rw [tokensBetween, List.drop_take, Nat.add_sub_cancel_left, hused, List.take_left]
    obtain ⟨hf, hgists⟩ := flatWords_iff_gists.mp hwords
    refine ⟨i + used.length, by omega, by omega, hrest.symm, hf, ?_⟩
    rw [hbetween, hrest]
    exact ⟨hgists, hends⟩
  · rintro ⟨j, hij, -, rfl, hf, hgists, hends⟩
    exact ⟨_, (tokensBetween_append_drop ts (Nat.le_of_lt hij)).symm,
      flatWords_iff_gists.mpr ⟨hf, hgists⟩, hends⟩

end NumScript
