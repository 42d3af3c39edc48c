import Mathlib.Data.List.Forall2
import NumScript.Proofs.Grammar
import NumScript.Proofs.Stmt.Listing
import NumScript.Proofs.Token.Decomposition

/-!
# NumScript.Proofs.Stmt.Order

Where the statements of a program are. Each statement, at any depth, has the position of the token
at which its production was started: its first token, and for a choice that stands for an `elseif`
that keyword (`Stmt.Heads.exists_pos`). Listed in the order of the text, the statements start at
tokens that are further and further on (`BlockTokens.opens`), and the positions of tokens grow
(`lex_pairwise_pos`). So the positions of statements do, too (`parse_positions_ordered`).
-/

namespace NumScript

/-! ### The order of positions -/

/-- The position is in an earlier line, or further to the left in the same one. -/
def Pos.Before (p q : Pos) : Prop := p.line < q.line ∨ p.line = q.line ∧ p.col < q.col

instance (p q : Pos) : Decidable (p.Before q) := inferInstanceAs (Decidable (_ ∨ _))

theorem Pos.Before.ne {p q : Pos} (h : p.Before q) : p ≠ q := by
  rintro rfl
  obtain hline | ⟨-, hcol⟩ := h
  · exact Int.lt_irrefl _ hline
  · exact Int.lt_irrefl _ hcol

/-- More text moves the position behind it on. -/
theorem positionAfter_before (before : List Char) {w : List Char} (hw : w ≠ []) :
    (positionAfter before).Before (positionAfter (before ++ w)) := by
  by_cases hline : '\n' ∈ w
  · left
    have hcount : 0 < w.count '\n' := List.count_pos_iff.mpr hline
    simp only [positionAfter, List.count_append]
    omega
  · right
    have hlength : 0 < w.length := List.length_pos_iff.mpr hw
    rw [positionAfter_append before hline]
    refine ⟨rfl, ?_⟩
    show (positionAfter before).col < (positionAfter before).col + w.length
    omega

theorem positionAfter_take_before (text : List Char) {i j : Nat} (hij : i < j)
    (hj : j ≤ text.length) :
    (positionAfter (text.take i)).Before (positionAfter (text.take j)) := by
  have hsplit : text.take j = text.take i ++ (text.drop i).take (j - i) := by
    rw [← List.take_add, Nat.add_sub_cancel' (Nat.le_of_lt hij)]
  rw [hsplit]
  refine positionAfter_before _ (List.ne_nil_of_length_pos ?_)
  simp only [List.length_take, List.length_drop]
  omega

/-! ### Tokens -/

/-- The tokens of a text are those of a reading of it. -/
theorem exists_reads_of_lex {source : String} {stream : TokenStream}
    (h : lex source = .ok stream) :
    ∃ spans before rest, Reads true [] source.toList spans before rest ∧
      stream.tokens = spans.map Prod.snd := by
  obtain ⟨spans, before, rest, hreads, hend | hstuck⟩ := exists_reads [] source.toList
  · obtain rfl := Except.ok.inj (h.symm.trans (hreads.lexFrom_of_atEnd hend))
    exact ⟨spans, before, rest, hreads, rfl⟩
  · obtain ⟨e, herror, -⟩ := hreads.exists_lexFrom_of_isStuck hstuck
    cases h.symm.trans herror

/-- Every token is somewhere in the text. -/
theorem exists_standsAt_of_lex {source : String} {stream : TokenStream}
    (h : lex source = .ok stream) {t : Token} (ht : t ∈ stream.tokens) :
    ∃ offset, StandsAt source.toList offset t := by
  obtain ⟨spans, before, rest, hreads, htokens⟩ := exists_reads_of_lex h
  rw [htokens] at ht
  obtain ⟨x, hx, rfl⟩ := List.mem_map.mp ht
  exact ⟨x.1, (hreads.standsAt x hx).2.2⟩

/-- A token is before all that follow it. -/
theorem lex_pairwise_pos {source : String} {stream : TokenStream} (h : lex source = .ok stream) :
    stream.tokens.Pairwise fun t u => t.pos.Before u.pos := by
  obtain ⟨spans, before, rest, hreads, htokens⟩ := exists_reads_of_lex h
  rw [htokens, List.pairwise_map]
  refine hreads.pairwise.imp_of_mem fun {x y} hx hy hxy => ?_
  have hread : before ++ rest = source.toList := hreads.append_eq
  obtain ⟨-, hend, hplace⟩ := hreads.standsAt y hy
  rw [(hreads.standsAt x hx).2.2.pos, hplace.pos]
  refine positionAfter_take_before _ hxy.1 ?_
  rw [List.nil_append, ← hread, List.length_append]
  omega

/-! ### Statements and their first tokens -/

/-- The statement is what the tokens start with: the production for statements reads it there, or,
if they start with an `elseif`, that for choices behind the keyword. -/
inductive Stmt.Heads (s : Stmt) : List Token → Prop
  | stmt {ts rest : List Token} (h : NumScript.stmt ts = .ok s rest) : Heads s ts
  | chain {p : Pos} {ts rest : List Token} (h : NumScript.branch p ts = .ok s rest) :
      Heads s (⟨.keyword .kwElseif, p⟩ :: ts)

theorem BranchTokens.pos_eq {p : Pos} {s : Stmt} {ts next : List Token}
    (h : BranchTokens p s ts next) : s.pos = p := by
  cases h
  rfl

theorem StmtTokens.exists_pos {s : Stmt} {ts next : List Token} (h : StmtTokens s ts next) :
    ∃ t us, ts = t :: us ∧ s.pos = t.pos := by
  cases h with
  | branch h => exact ⟨_, _, rfl, h.pos_eq⟩
  | _ => exact ⟨_, _, rfl, rfl⟩

/-- A statement has the position of its first token. -/
theorem Stmt.Heads.exists_pos {s : Stmt} {ts : List Token} (h : s.Heads ts) :
    ∃ t us, ts = t :: us ∧ s.pos = t.pos := by
  cases h with
  | stmt h =>
    obtain ⟨used, rfl, hused⟩ := (stmtReads ts).stmt h
    obtain ⟨t, us, rfl, hpos⟩ := hused.exists_pos
    exact ⟨t, _, rfl, hpos⟩
  | @chain p ts rest h =>
    obtain ⟨used, -, hused⟩ := (stmtReads ts).branch h
    exact ⟨_, _, rfl, hused.pos_eq⟩

/-! ### Statements in the order of the text -/

/-- Each of the statements is what some of the tokens `ts`, with `next` behind them, start with, and
each starts further on than those before it. -/
inductive Opens : List Stmt → List Token → List Token → Prop
  | nil (next : List Token) : Opens [] [] next
  | skip {ss : List Stmt} {ts next : List Token} (t : Token) (h : Opens ss ts next) :
      Opens ss (t :: ts) next
  | here {s : Stmt} {ss : List Stmt} {t : Token} {ts next : List Token}
      (hs : s.Heads (t :: (ts ++ next))) (h : Opens ss ts next) : Opens (s :: ss) (t :: ts) next

namespace Opens

theorem none (ts next : List Token) : Opens [] ts next := by
  induction ts with
  | nil => exact .nil next
  | cons t _ ih => exact .skip t ih

theorem behind {ss : List Stmt} {ts next : List Token} (us : List Token) (h : Opens ss ts next) :
    Opens ss (us ++ ts) next := by
  induction us with
  | nil => exact h
  | cons t _ ih => exact .skip t ih

theorem append {ss ss' : List Stmt} {ts us next : List Token} (h : Opens ss ts (us ++ next))
    (h' : Opens ss' us next) : Opens (ss ++ ss') (ts ++ us) next := by
  generalize hmore : us ++ next = more at h
  induction h with
  | nil => exact h'
  | skip t _ ih => exact .skip t (ih hmore)
  | here hs _ ih =>
    subst hmore
    rw [← List.append_assoc] at hs
    exact .here hs (ih rfl)

/-- Tokens at the end at which no statement starts. -/
theorem before {ss : List Stmt} {ts next : List Token} (us : List Token)
    (h : Opens ss ts (us ++ next)) : Opens ss (ts ++ us) next := by
  have hall := h.append (none us next)
  rwa [List.append_nil] at hall

/-- The statements in terms of the indices at which they start. -/
theorem exists_starts {ss : List Stmt} {ts next : List Token} (h : Opens ss ts next) :
    ∃ starts, List.Forall₂ (fun s i => i < ts.length ∧ s.Heads (ts.drop i ++ next)) ss starts ∧
      starts.Pairwise (· < ·) := by
  induction h with
  | nil next => exact ⟨[], .nil, .nil⟩
  | skip t _ ih =>
    obtain ⟨starts, hstarts, hgrow⟩ := ih
    refine ⟨starts.map (· + 1), ?_, ?_⟩
    · rw [List.forall₂_map_right_iff]
      exact hstarts.imp fun s i hs => ⟨Nat.succ_lt_succ hs.1, hs.2⟩
    · rw [List.pairwise_map]
      exact hgrow.imp fun hij => Nat.succ_lt_succ hij
  | @here s ss t ts next hs _ ih =>
    obtain ⟨starts, hstarts, hgrow⟩ := ih
    refine ⟨0 :: starts.map (· + 1), .cons ⟨Nat.succ_pos _, hs⟩ ?_, ?_⟩
    · rw [List.forall₂_map_right_iff]
      exact hstarts.imp fun s i hs => ⟨Nat.succ_lt_succ hs.1, hs.2⟩
    · refine .cons ?_ ?_
      · rintro _ hi
        obtain ⟨i, -, rfl⟩ := List.mem_map.mp hi
        exact Nat.succ_pos i
      · rw [List.pairwise_map]
        exact hgrow.imp fun hij => Nat.succ_lt_succ hij

end Opens

/-- A statement starts where its tokens do, and the statements in it further on. -/
theorem StmtTokens.opens_cons {s : Stmt} {t : Token} {ts next : List Token} {ss : List Stmt}
    (h : StmtTokens s (t :: ts) next) (hnext : atMark "=" next = false) (hss : Opens ss ts next) :
    Opens (s :: ss) (t :: ts) next :=
  .here (.stmt (h.stmt_eq_ok hnext)) hss

/-- Behind a block there is no equality sign, since a keyword comes there. -/
theorem atMark_assign_keyword (k : Keyword) (p : Pos) (ts : List Token) :
    atMark "=" (⟨.keyword k, p⟩ :: ts) = false := by
  rw [atMark, Lexeme.mark?]
  cases k <;> decide

theorem ElseTokens.atMark_assign {o : Option (List Stmt)} {ts next : List Token}
    (h : ElseTokens o ts next) : atMark "=" (ts ++ next) = false := by
  cases h <;> exact atMark_assign_keyword _ _ _

mutual

theorem StmtTokens.opens {s : Stmt} {ts next : List Token} (h : StmtTokens s ts next)
    (hnext : atMark "=" next = false) : Opens s.listing ts next := by
  cases h with
  | expr he hends => exact (StmtTokens.expr he hends).opens_cons hnext (.none _ _)
  | declare name p q => exact (StmtTokens.declare name p q next).opens_cons hnext (.none _ _)
  | declareAs name p q r he hends =>
    exact (StmtTokens.declareAs name p q r he hends).opens_cons hnext (.none _ _)
  | assign name p q he hends =>
    exact (StmtTokens.assign name p q he hends).opens_cons hnext (.none _ _)
  | branch hb =>
    obtain ⟨ss, hlisting, hopens⟩ := hb.exists_opens
    rw [hlisting]
    exact (StmtTokens.branch hb).opens_cons hnext hopens
  | loop p q r hc hb =>
    refine (StmtTokens.loop p q r hc hb).opens_cons hnext (.behind _ (.skip _ ?_))
    exact (hb.opens (atMark_assign_keyword _ _ _)).before [_]
  | count var p q r t hes hone hthree hb =>
    refine (StmtTokens.count var p q r t hes hone hthree hb).opens_cons hnext
      (.skip _ (.behind _ (.skip _ ?_)))
    exact (hb.opens (atMark_assign_keyword _ _ _)).before [_]
  | define name p q r t v hxs hb =>
    refine (StmtTokens.define name p q r t v hxs hb).opens_cons hnext
      (.skip _ (.skip _ (.behind _ (.skip _ ?_))))
    exact (hb.opens (atMark_assign_keyword _ _ _)).before [_]

theorem BlockTokens.opens {ss : List Stmt} {ts next : List Token} (h : BlockTokens ss ts next)
    (hnext : atMark "=" next = false) : Opens (listings ss) ts next := by
  cases h with
  | nil => exact .nil next
  | cons hs hss => exact (hs.opens (hss.atMark_assign hnext)).append (hss.opens hnext)

/-- The statements in a choice start behind its first keyword. -/
theorem BranchTokens.exists_opens {p : Pos} {s : Stmt} {ts next : List Token}
    (h : BranchTokens p s ts next) : ∃ ss, s.listing = s :: ss ∧ Opens ss ts next := by
  cases h with
  | mk _ q hc hb ho =>
    exact ⟨_, rfl, .behind _ (.skip _ ((hb.opens ho.atMark_assign).append ho.opens))⟩

theorem ElseTokens.opens {o : Option (List Stmt)} {ts next : List Token}
    (h : ElseTokens o ts next) : Opens (elseListing o) ts next := by
  cases h with
  | none p => exact .none _ _
  | body p q hb => exact .skip _ ((hb.opens (atMark_assign_keyword _ _ _)).before [_])
  | chain hb =>
    obtain ⟨ss, hlisting, hopens⟩ := hb.exists_opens
    rw [elseListing, listings, listings, List.append_nil, hlisting]
    exact .here (.chain hb.branch_eq_ok) hopens

end

/-! ### Programs -/

/-- The statement starts at the token with the index `i`: that is a token of the text, the statement
is what is read from it on, and has its position. -/
structure Stmt.StartsAt (source : String) (stream : TokenStream) (s : Stmt) (i : Nat) : Prop where
  heads : s.Heads (stream.tokens.drop i)
  stands : ∃ t offset, stream.tokens[i]? = some t ∧ StandsAt source.toList offset t ∧
    s.pos = t.pos

theorem Stmt.Heads.startsAt {source : String} {stream : TokenStream} {s : Stmt} {i : Nat}
    (hlex : lex source = .ok stream) (h : s.Heads (stream.tokens.drop i)) :
    s.StartsAt source stream i := by
  obtain ⟨t, us, hdrop, hpos⟩ := h.exists_pos
  have ht : stream.tokens[i]? = some t := by
    rw [← List.head?_drop, hdrop, List.head?_cons]
  obtain ⟨offset, hoffset⟩ := exists_standsAt_of_lex hlex (List.mem_of_getElem? ht)
  exact ⟨h, t, offset, ht, hoffset, hpos⟩

/-- Statements that start further and further on have growing positions. -/
theorem Stmt.StartsAt.before {source : String} {stream : TokenStream} {s s' : Stmt} {i j : Nat}
    (hlex : lex source = .ok stream) (h : s.StartsAt source stream i)
    (h' : s'.StartsAt source stream j) (hij : i < j) : s.pos.Before s'.pos := by
  obtain ⟨t, -, ht, -, hpos⟩ := h.stands
  obtain ⟨u, -, hu, -, hpos'⟩ := h'.stands
  obtain ⟨hi, rfl⟩ := List.getElem?_eq_some_iff.mp ht
  obtain ⟨hj, rfl⟩ := List.getElem?_eq_some_iff.mp hu
  rw [hpos, hpos']
  exact List.pairwise_iff_getElem.mp (lex_pairwise_pos hlex) i j hi hj hij

/-- Every statement of a program starts at a token of the text and has the position of that token.
In the order of the text, each starts at a later token than those before it and has a later
position, so no two have the same one. -/
theorem parse_positions_ordered {source : String} {program : Program}
    (h : parse source = .ok program) :
    ∃ stream starts, lex source = .ok stream ∧
      List.Forall₂ (Stmt.StartsAt source stream) (listings program) starts ∧
      starts.Pairwise (· < ·) ∧
      (listings program).Pairwise (fun s s' => s.pos.Before s'.pos) ∧
      ((listings program).map Stmt.pos).Nodup := by
  cases hlex : lex source with
  | error e =>
    rw [parse, hlex] at h
    cases h
  | ok stream =>
    obtain ⟨starts, hstarts, hgrow⟩ :=
      (((parse_eq_ok_iff hlex).mp h).opens rfl).exists_starts
    have hplaces : List.Forall₂ (Stmt.StartsAt source stream) (listings program) starts := by
      refine hstarts.imp fun s i hs => ?_
      rw [List.append_nil] at hs
      exact hs.2.startsAt hlex
    have hordered : (listings program).Pairwise fun s s' => s.pos.Before s'.pos := by
      rw [List.pairwise_iff_getElem]
      intro i j hi hj hij
      have hlength := hplaces.length_eq
      exact (hplaces.get hi (hlength ▸ hi)).before hlex (hplaces.get hj (hlength ▸ hj))
        (List.pairwise_iff_getElem.mp hgrow i j _ _ hij)
    refine ⟨stream, starts, rfl, hplaces, hgrow, hordered, ?_⟩
    rw [List.Nodup, List.pairwise_map]
    exact hordered.imp Pos.Before.ne

/-- The program of a chain of choices, of which the second one stands at the keyword `elseif`. -/
def chained : Program :=
  [.branch ⟨1, 1⟩ (.ident "x") [.expr ⟨1, 11⟩ (.ident "y")]
      (some [.branch ⟨2, 1⟩ (.ident "z") [.expr ⟨2, 15⟩ (.ident "w")]
        (some [.expr ⟨2, 22⟩ (.call "f" [])])]),
    .expr ⟨2, 30⟩ (.number (Numeral.value ⟨['1'], none⟩))]

theorem chained_parse_positions_ordered :
    parse "if x then y\nelseif z then w else f() end 1" = .ok chained ∧
    ∃ stream starts, lex "if x then y\nelseif z then w else f() end 1" = .ok stream ∧
      List.Forall₂ (Stmt.StartsAt "if x then y\nelseif z then w else f() end 1" stream)
        (listings chained) starts ∧
      starts.Pairwise (· < ·) := by
  have hparse : parse "if x then y\nelseif z then w else f() end 1" = .ok chained := by
    decide +kernel
  obtain ⟨stream, starts, hlex, hplaces, hgrow, -⟩ := parse_positions_ordered hparse
  exact ⟨hparse, stream, starts, hlex, hplaces, hgrow⟩

end NumScript
