import NumScript.Proofs.Positions
import NumScript.Proofs.Stmt.Completion
import NumScript.Proofs.Stmt.Lookahead

/-!
# NumScript.Proofs.ErrorPosition

An error of the grammar is reported at the first token with which the text can no longer be a
program (`parse_stuck_at_token`). What stands before it is the start of a program, and no program
starts with the tokens up to it. Only a minus needs a closer look: `x = -` is the start of a program
if a numeral follows, so there the token behind it belongs to the error.
-/

namespace NumScript

/-! ### No program starts like this -/

/-- The words are the same from the first one to the one at `k`, and if that is a minus, also behind
it. The end of the words counts as a word. -/
def AgreeTo (k : Nat) (ws us : List Lexeme) : Prop :=
  (∀ i ≤ k, us[i]? = ws[i]?) ∧ (ws[k]? = some (.symbol (.op .sub)) → us[k + 1]? = ws[k + 1]?)

theorem map_unplaced_getElem? (ts : List Token) (i : Nat) :
    (ts.map Token.unplaced)[i]? = (words ts)[i]?.map (⟨·, .nowhere⟩) := by
  rw [words, List.getElem?_map, List.getElem?_map, Option.map_map]
  rfl

/-- Without their positions, tokens whose words agree start with the same ones, and what is left has
the same front. -/
theorem AgreeTo.sameFront {k : Nat} {ts us : List Token} (h : AgreeTo k (words ts) (words us)) :
    (us.map Token.unplaced).take k = (ts.map Token.unplaced).take k ∧
      SameFront ((ts.map Token.unplaced).drop k) ((us.map Token.unplaced).drop k) := by
  obtain ⟨hsame, hminus⟩ := h
  have hget : ∀ i : Nat, (words us)[i]? = (words ts)[i]? →
      (ts.map Token.unplaced)[i]? = (us.map Token.unplaced)[i]? := by
    intro i hi
    rw [map_unplaced_getElem?, map_unplaced_getElem?, hi]
  refine ⟨List.ext_getElem? fun i => ?_, ?_, ?_⟩
  · by_cases hi : i < k
    · rw [List.getElem?_take_of_lt hi, List.getElem?_take_of_lt hi]
      exact (hget i (hsame i (Nat.le_of_lt hi))).symm
    · rw [List.getElem?_take_eq_none (Nat.le_of_not_lt hi),
        List.getElem?_take_eq_none (Nat.le_of_not_lt hi)]
  · rw [List.head?_drop, List.head?_drop]
    exact hget k (hsame k (Nat.le_refl k))
  · intro hfront
    obtain ⟨p, hp⟩ := hfront
    rw [List.head?_drop, map_unplaced_getElem?] at hp
    obtain ⟨w, hw, heq⟩ := Option.map_eq_some_iff.mp hp
    rw [List.getElem?_drop, List.getElem?_drop]
    exact hget (k + 1) (hminus (hw.trans (congrArg some (congrArg Token.lexeme heq))))

theorem take_append_of_statements {ts rest : List Token} {cause : ParseCause}
    (h : statements ts = .error cause rest) : ts = ts.take (ts.length - rest.length) ++ rest := by
  have hparts := List.take_append_drop (ts.length - rest.length) ts
  rw [← eq_drop_of_statements h] at hparts
  exact hparts.symm

/-- Where tokens are stuck, all tokens that agree with them are stuck. -/
theorem statements_ne_ok_of_agreeTo {ts rest us : List Token} {cause : ParseCause}
    (h : statements ts = .error cause rest)
    (hagree : AgreeTo (ts.length - rest.length) (words ts) (words us)) (program : Program)
    (rest' : List Token) : statements us ≠ .ok program rest' := by
  intro hok
  have hstuck : statements (ts.map Token.unplaced) = .error cause (rest.map Token.unplaced) := by
    rw [statements_unplaced, h]
    rfl
  have hparts : ts.map Token.unplaced =
      (ts.map Token.unplaced).take (ts.length - rest.length) ++ rest.map Token.unplaced := by
    rw [← List.map_take, ← List.map_append, ← take_append_of_statements h]
  obtain ⟨htake, hfront⟩ := hagree.sameFront
  rw [← List.map_drop, ← eq_drop_of_statements h] at hfront
  have hstuck' := (statements_looksAhead _).error hparts hstuck hfront
  rw [← htake, List.take_append_drop, statements_unplaced, hok] at hstuck'
  cases hstuck'

/-! ### A program starts like this -/

/-- Derivable words that a text can hold are those of a text, and it is a program. -/
theorem IsBlock.exists_parse {ws : List Lexeme} (h : IsBlock ws)
    (hvalid : ∀ w ∈ ws, w.isValid = true) :
    ∃ text stream program, lex text = .ok stream ∧ words stream.tokens = ws ∧
      parse text = .ok program := by
  obtain ⟨stream, hlex, hwords⟩ := (spaced_joined (fun _ => isGap_space) ws).exists_lexFrom
    (List.all_eq_true.mpr hvalid) .start
  have hlex' : lex (joinedWith (fun _ => " ") ws) = .ok stream := hlex
  rw [← hwords] at h
  obtain ⟨program, hprogram⟩ := (parse_isOk_iff_isBlock hlex').mpr h
  exact ⟨_, stream, program, hlex', hwords, hprogram⟩

/-- What stands before an error is the start of a program. -/
theorem exists_parse_of_stuck {source : String} {stream : TokenStream} {cause : ParseCause}
    {used rest : List Token} (hlex : lex source = .ok stream) (hused : stream.tokens = used ++ rest)
    (h : statements stream.tokens = .error cause rest) :
    ∃ text stream' program, lex text = .ok stream' ∧ words used <+: words stream'.tokens ∧
      parse text = .ok program := by
  obtain ⟨used', hused', more, hmore, hblock⟩ := statements_stuckIn stream.tokens cause rest h
  obtain rfl := List.append_cancel_right (hused.symm.trans hused')
  have hvalid : ∀ w ∈ words used, w.isValid = true := by
    intro w hw
    obtain ⟨t, ht, rfl⟩ := List.mem_map.mp hw
    exact lexFrom_isValid hlex t (hused ▸ List.mem_append_left rest ht)
  obtain ⟨text, stream', program, hlex', hwords, hparse⟩ :=
    hblock.exists_parse (List.forall_mem_append.mpr ⟨hvalid, hmore⟩)
  exact ⟨text, stream', program, hlex', hwords ▸ List.prefix_append _ _, hparse⟩

/-! ### Where the error is -/

/-- An error of the grammar names a token of the text, or its end. What stands before can be
completed to a program, and no tokens that agree with those of the text up to there are one. -/
theorem parse_stuck_at_token {source : String} {e : ParseError}
    (h : parse source = .error (.grammatical e)) :
    ∃ stream k, lex source = .ok stream ∧ k ≤ stream.tokens.length ∧
      e.pos = (stream.peek k).pos ∧ e.found = stream.tokens[k]?.map Token.lexeme ∧
      (∃ text stream' program, lex text = .ok stream' ∧
        words (stream.tokens.take k) <+: words stream'.tokens ∧ parse text = .ok program) ∧
      ∀ us : List Token, AgreeTo k (words stream.tokens) (words us) →
        ∀ program rest, statements us ≠ .ok program rest := by
  cases hlex : lex source with
  | error error =>
    rw [parse, hlex] at h
    cases h
  | ok stream =>
    cases hstuck : statements stream.tokens with
    | ok program rest =>
      rw [parse_of_ok hlex hstuck] at h
      cases h
    | error cause rest =>
      rw [parse_of_error hlex hstuck] at h
      obtain rfl := SourceError.grammatical.inj (Except.error.inj h)
      have hrest := eq_drop_of_statements hstuck
      refine ⟨stream, stream.tokens.length - rest.length, rfl, Nat.sub_le _ _, ?_, ?_, ?_, ?_⟩
      · rw [← stream.pos_drop, ← hrest]
      · rw [← List.head?_drop, ← hrest]
      · exact exists_parse_of_stuck hlex (take_append_of_statements hstuck) hstuck
      · intro us hagree
        exact statements_ne_ok_of_agreeTo hstuck hagree

/-- The minus in `while x do -y` is in the way, because the token behind it is no numeral. -/
theorem danglingSign_parse_stuck :
    ∃ e, parse "while x do -y" = .error (.grammatical e) ∧ e.pos = ⟨1, 12⟩ ∧
      ∃ stream k, lex "while x do -y" = .ok stream ∧ (stream.peek k).pos = ⟨1, 12⟩ ∧
        (∃ text stream' program, lex text = .ok stream' ∧
          words (stream.tokens.take k) <+: words stream'.tokens ∧ parse text = .ok program) ∧
        ∀ us : List Token, AgreeTo k (words stream.tokens) (words us) →
          ∀ program rest, statements us ≠ .ok program rest := by
  have hparse : parse "while x do -y" =
      .error (.grammatical ⟨.expression, some (.symbol (.op .sub)), ⟨1, 12⟩⟩) := by
    decide +kernel
  obtain ⟨stream, k, hlex, -, hpos, -, hbefore, hagree⟩ := parse_stuck_at_token hparse
  exact ⟨_, hparse, rfl, stream, k, hlex, hpos.symm, hbefore, hagree⟩

end NumScript
