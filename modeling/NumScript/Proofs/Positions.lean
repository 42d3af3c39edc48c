import NumScript.Proofs.Codegen.Unplaced
import NumScript.Proofs.Compile
import NumScript.Proofs.Token.Longest

/-!
# NumScript.Proofs.Positions

Where the tokens of a text stand is of no consequence. Two texts with the same lexemes in the same
order, whatever blanks, line ends and comments are between them, have the same program up to the
positions in it, or the same error at the same token, and they have the same C text or the same
error up to the positions in it (`sameLexemes_parse_compile`).
-/

namespace NumScript

/-! ### Tokens -/

/-- The class and the characters of each token of a stream, the end included. -/
def TokenStream.spellings (s : TokenStream) : List (String × String) :=
  s.views.map fun v => (v.kind, v.text)

/-- Tokens with the same texts are the same up to positions. -/
theorem map_unplaced_of_texts {ts us : List Token} (hts : ∀ t ∈ ts, t.lexeme.isValid = true)
    (hus : ∀ u ∈ us, u.lexeme.isValid = true)
    (h : ts.map (·.lexeme.text) = us.map (·.lexeme.text)) :
    ts.map Token.unplaced = us.map Token.unplaced := by
  induction ts generalizing us with
  | nil =>
    obtain rfl := List.map_eq_nil_iff.mp h.symm
    rfl
  | cons t ts ih =>
    cases us with
    | nil => cases h
    | cons u us =>
      rw [List.forall_mem_cons] at hts hus
      obtain ⟨htext, htail⟩ := List.cons.inj h
      have hlexeme := Lexeme.eq_of_text_eq hts.1 hus.1 htext
      rw [List.map_cons, List.map_cons, ih hts.2 hus.2 htail, Token.unplaced, Token.unplaced,
        hlexeme]

theorem lex_unplaced_of_spellings {a b : String} {s t : TokenStream} (ha : lex a = .ok s)
    (hb : lex b = .ok t) (h : s.spellings = t.spellings) :
    s.tokens.map Token.unplaced = t.tokens.map Token.unplaced := by
  have htexts := congrArg (List.map Prod.snd) h
  simp only [TokenStream.spellings, TokenStream.views, List.map_append, List.map_map,
    List.map_cons, List.map_nil] at htexts
  exact map_unplaced_of_texts (lexFrom_isValid ha) (lexFrom_isValid hb)
    (List.append_inj_left' htexts rfl)

/-- The position that is left after `i` tokens is that of the token at `i`. -/
theorem TokenStream.pos_drop (s : TokenStream) (i : Nat) :
    TokenStream.pos ⟨s.tokens.drop i, s.finish⟩ = (s.peek i).pos := by
  rw [pos, peek]
  cases h : s.tokens[i]? with
  | none => rw [List.drop_eq_nil_of_le (List.getElem?_eq_none_iff.mp h)]; rfl
  | some t =>
    obtain ⟨hlt, rfl⟩ := List.getElem?_eq_some_iff.mp h
    rw [List.drop_eq_getElem_cons hlt]
    rfl

/-! ### Errors -/

/-- The error without its position. -/
def CompileError.unplaced : CompileError → CompileError
  | .source (.lexical e) => .source (.lexical { e with pos := .nowhere })
  | .source (.grammatical e) => .source (.grammatical { e with pos := .nowhere })
  | .codegen e => .codegen e.unplaced

/-! ### Programs -/

/-- Productions that come to the same without positions both succeed, or are both stuck at the same
token for the same cause. -/
theorem Outcome.of_unplaced_eq {α : Type} {f : α → α} {o o' : Outcome α}
    (h : o.unplaced f = o'.unplaced f) :
    (∃ a a' rest rest', o = .ok a rest ∧ o' = .ok a' rest' ∧ f a = f a') ∨
      ∃ cause rest rest', o = .error cause rest ∧ o' = .error cause rest' ∧
        rest.map Token.unplaced = rest'.map Token.unplaced := by
  cases o with
  | ok a rest =>
    cases o' with
    | ok a' rest' => exact .inl ⟨a, a', rest, rest', rfl, rfl, (Outcome.ok.inj h).1⟩
    | error cause' rest' => cases h
  | error cause rest =>
    cases o' with
    | ok a' rest' => cases h
    | error cause' rest' =>
      obtain ⟨rfl, hrest⟩ := Outcome.error.inj h
      exact .inr ⟨cause, rest, rest', rfl, rfl, hrest⟩

section Texts

variable {a b : String} {s t : TokenStream}

theorem parse_of_ok {program : Program} {rest : List Token} (hlex : lex a = .ok s)
    (h : statements s.tokens = .ok program rest) : parse a = .ok program := by
  rw [parse, hlex]
  simp only [h, Outcome.settle]

theorem parse_of_error {cause : ParseCause} {rest : List Token} (hlex : lex a = .ok s)
    (h : statements s.tokens = .error cause rest) :
    parse a = .error (.grammatical
      ⟨cause, rest.head?.map Token.lexeme, TokenStream.pos ⟨rest, s.finish⟩⟩) := by
  rw [parse, hlex]
  simp only [h, Outcome.settle]

/-- What is left where the productions are stuck is what follows the token at some index. -/
theorem eq_drop_of_statements {ts rest : List Token} {cause : ParseCause}
    (h : statements ts = .error cause rest) : rest = ts.drop (ts.length - rest.length) := by
  have hleaves := statements_leaves ts
  rw [h] at hleaves
  exact List.suffix_iff_eq_drop.mp hleaves

/-- Texts with the same lexemes have the same program, or the same error at the same token. -/
theorem parse_of_spellings (ha : lex a = .ok s) (hb : lex b = .ok t)
    (h : s.spellings = t.spellings) :
    (∃ p q, parse a = .ok p ∧ parse b = .ok q ∧ unplacedBlock p = unplacedBlock q) ∨
      ∃ e e' i, parse a = .error (.grammatical e) ∧ parse b = .error (.grammatical e') ∧
        e'.cause = e.cause ∧ e'.found = e.found ∧ i ≤ s.tokens.length ∧
        e.pos = (s.peek i).pos ∧ e'.pos = (t.peek i).pos := by
  have htokens := lex_unplaced_of_spellings ha hb h
  have houtcome : (statements s.tokens).unplaced unplacedBlock =
      (statements t.tokens).unplaced unplacedBlock := by
    rw [← statements_unplaced, ← statements_unplaced, htokens]
  rcases Outcome.of_unplaced_eq houtcome with
    ⟨p, q, _, _, hp, hq, heq⟩ | ⟨cause, rest, rest', hstuck, hstuck', hrest⟩
  · exact .inl ⟨p, q, parse_of_ok ha hp, parse_of_ok hb hq, heq⟩
  · have hlength : t.tokens.length - rest'.length = s.tokens.length - rest.length := by
      have htotal := congrArg List.length htokens
      have hleft := congrArg List.length hrest
      simp only [List.length_map] at htotal hleft
      rw [htotal, hleft]
    have hfound : rest'.head?.map Token.lexeme = rest.head?.map Token.lexeme := by
      have hhead := congrArg (fun ts => (List.head? ts).map Token.lexeme) hrest
      simpa [Function.comp_def, Token.unplaced] using hhead.symm
    refine .inr ⟨_, _, s.tokens.length - rest.length, parse_of_error ha hstuck,
      parse_of_error hb hstuck', rfl, hfound, Nat.sub_le _ _, ?_, ?_⟩
    · rw [← s.pos_drop, ← eq_drop_of_statements hstuck]
    · rw [← t.pos_drop, ← hlength, ← eq_drop_of_statements hstuck']

/-- Programs that are the same up to positions have the same C text or the same error. -/
theorem toC_of_unplaced_eq {p q : Program} (suffix : Nat → String)
    (h : unplacedBlock p = unplacedBlock q) :
    (∃ text, p.toC (.empty suffix) = .ok text ∧ q.toC (.empty suffix) = .ok text) ∨
      ∃ e e', p.toC (.empty suffix) = .error e ∧ q.toC (.empty suffix) = .error e' ∧
        e.unplaced = e'.unplaced := by
  have hsame : (p.toC (.empty suffix)).mapError .unplaced =
      (q.toC (.empty suffix)).mapError CodegenError.unplaced := by
    rw [← Program.toC_unplaced, ← Program.toC_unplaced, h]
  cases hp : p.toC (.empty suffix) with
  | ok text =>
    cases hq : q.toC (.empty suffix) with
    | ok text' =>
      rw [hp, hq] at hsame
      obtain rfl := Except.ok.inj hsame
      exact .inl ⟨text, rfl, rfl⟩
    | error e' => rw [hp, hq] at hsame; cases hsame
  | error e =>
    cases hq : q.toC (.empty suffix) with
    | ok text' => rw [hp, hq] at hsame; cases hsame
    | error e' =>
      rw [hp, hq] at hsame
      exact .inr ⟨e, e', rfl, rfl, Except.error.inj hsame⟩

/-- Two texts with the same lexemes have the same program up to positions, or are both stuck at the
token with the same index, with the same message. They have the same C text, or the same error up to
positions. -/
theorem sameLexemes_parse_compile (ha : lex a = .ok s) (hb : lex b = .ok t)
    (h : s.spellings = t.spellings) :
    ((∃ p q, parse a = .ok p ∧ parse b = .ok q ∧ unplacedBlock p = unplacedBlock q) ∨
      ∃ e e' i, parse a = .error (.grammatical e) ∧ parse b = .error (.grammatical e') ∧
        e.cause.blamesToken = true ∧ e'.cause.blamesToken = true ∧ e.message = e'.message ∧
        i ≤ s.tokens.length ∧ e.pos = (s.peek i).pos ∧ e'.pos = (t.peek i).pos) ∧
    ((∃ text, compile a = .ok text ∧ compile b = .ok text) ∨
      ∃ e e', compile a = .error e ∧ compile b = .error e' ∧ e.unplaced = e'.unplaced) := by
  rcases parse_of_spellings ha hb h with
    ⟨p, q, hp, hq, heq⟩ | ⟨e, e', i, he, he', hcause, hfound, hi, hpos, hpos'⟩
  · refine ⟨.inl ⟨p, q, hp, hq, heq⟩, ?_⟩
    rw [compile, compile, hp, hq]
    rcases toC_of_unplaced_eq NameTable.counting heq with
      ⟨text, htext, htext'⟩ | ⟨e, e', he, he', hsame⟩
    · exact .inl ⟨text, by simp [htext], by simp [htext']⟩
    · exact .inr ⟨.codegen e, .codegen e', by simp [he], by simp [he'],
        congrArg CompileError.codegen hsame⟩
  · have hmessage : e.message = e'.message := by
      rw [ParseError.message, ParseError.message, hcause, hfound]
    refine ⟨.inr ⟨e, e', i, he, he', parse_blamesText he, parse_blamesText he', hmessage, hi, hpos,
      hpos'⟩, .inr ⟨_, _, by rw [compile, he], by rw [compile, he'], ?_⟩⟩
    rw [CompileError.unplaced, CompileError.unplaced, hcause, hfound]

end Texts

/-- A call of nothing, and the same call behind a comment, with blanks in it. -/
theorem spaced_sameLexemes_parse_compile :
    ∃ s t, lex "f()" = .ok s ∧ lex "--c\n f ( )" = .ok t ∧ s.tokens ≠ t.tokens ∧
      s.spellings = t.spellings ∧
      ∃ e e', compile "f()" = .error e ∧ compile "--c\n f ( )" = .error e' ∧
        e.unplaced = e'.unplaced := by
  have hlex : lex "f()" = .ok ⟨[⟨.ident "f", ⟨1, 1⟩⟩, ⟨.symbol .lparen, ⟨1, 2⟩⟩,
      ⟨.symbol .rparen, ⟨1, 3⟩⟩], ⟨1, 4⟩⟩ := by with_unfolding_all rfl
  have hlex' : lex "--c\n f ( )" = .ok ⟨[⟨.ident "f", ⟨2, 2⟩⟩, ⟨.symbol .lparen, ⟨2, 4⟩⟩,
      ⟨.symbol .rparen, ⟨2, 6⟩⟩], ⟨2, 7⟩⟩ := by with_unfolding_all rfl
  refine ⟨_, _, hlex, hlex', by decide, rfl, ?_⟩
  rcases (sameLexemes_parse_compile hlex hlex' rfl).2 with ⟨text, htext, -⟩ | herrors
  · have hnone : (compile "f()").toOption = none := by decide +kernel
    rw [htext] at hnone
    cases hnone
  · exact herrors

end NumScript
