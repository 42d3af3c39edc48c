import NumScript.Proofs.Token.Decomposition

/-!
# NumScript.Proofs.Token.Lines

A text is lexed line by line. No lexeme and no comment goes over a line end, so what is before a
line end and what is behind it are lexed by themselves. The tokens of the second part only stand
further down (`lex_line`). So a text can be lexed exactly if both parts can, and what is wrong with
it is what is wrong with its first part, or else with the second one (`lex_newline`).
-/

namespace NumScript

/-! ### Further down -/

/-- The position `n` lines further down. -/
def Pos.down (n : Nat) (p : Pos) : Pos := ⟨p.line + n, p.col⟩

/-- The token at another place. -/
def Token.moved (f : Pos → Pos) (t : Token) : Token := ⟨t.lexeme, f t.pos⟩

@[simp]
theorem Token.moved_mk (f : Pos → Pos) (l : Lexeme) (p : Pos) :
    Token.moved f ⟨l, p⟩ = ⟨l, f p⟩ := rfl

/-- The stream `n` lines further down. -/
def TokenStream.down (n : Nat) (s : TokenStream) : TokenStream :=
  ⟨s.tokens.map (Token.moved (Pos.down n)), s.finish.down n⟩

/-- The error `n` lines further down. -/
def LexError.down (n : Nat) (e : LexError) : LexError := ⟨e.cause, e.pos.down n⟩

/-- The tokens of one stream and then those of another one, which ends the text. -/
def TokenStream.append (s t : TokenStream) : TokenStream := ⟨s.tokens ++ t.tokens, t.finish⟩

theorem Pos.down_advance (n k : Nat) (p : Pos) :
    (p.down n).advance k = (p.advance k).down n := rfl

theorem Pos.down_nextLine (n : Nat) (p : Pos) : (p.down n).nextLine = p.nextLine.down n := by
  simp only [Pos.down, Pos.nextLine, Pos.mk.injEq, and_true]
  omega

/-- What `lexFrom` does at a character that neither ends a line nor starts a comment nor is
blank. -/
theorem lexFrom_cons {c : Char} {rest : List Char} (hnewline : c = '\n' → False)
    (hcomment : ∀ rest', c = '-' → rest = '-' :: rest' → False) (hblank : ¬ isBlank c = true)
    (p : Pos) :
    lexFrom p (c :: rest) =
      match readLexeme c rest with
      | .error cause => .error ⟨cause, p⟩
      | .ok (l, rest') => (lexFrom (p.advance l.text.length) rest').map (·.cons ⟨l, p⟩) := by
  refine lexFrom_readLexeme ?_ ?_ p
  · rw [isSeparator, Bool.or_eq_false_iff, beq_eq_false_iff_ne]
    exact ⟨Bool.eq_false_iff.mpr hblank, hnewline⟩
  · refine Bool.eq_false_iff.mpr fun hstart => ?_
    obtain ⟨more, hmore⟩ := exists_of_startsComment hstart
    obtain ⟨hc, hrest⟩ := List.cons.inj hmore
    exact hcomment more hc hrest

/-- What is lexed from a lower line on is what is lexed from the line itself, only further down. -/
theorem lexFrom_down (n : Nat) (p : Pos) (cs : List Char) :
    lexFrom (p.down n) cs = ((lexFrom p cs).map (·.down n)).mapError (·.down n) := by
  fun_induction lexFrom p cs with
  | case1 p =>
    rw [lexFrom]
    rfl
  | case2 p rest ih => rw [lexFrom, Pos.down_nextLine, ih]
  | case3 p rest ih => rw [lexFrom, ih]
  | case4 p c rest hnewline hcomment hblank ih =>
    rw [lexFrom.eq_4 _ _ _ hnewline hcomment, if_pos hblank, Pos.down_advance, ih]
  | case5 p c rest hnewline hcomment hblank cause hread =>
    rw [lexFrom_cons hnewline hcomment hblank, hread]
    rfl
  | case6 p c rest hnewline hcomment hblank l rest' hread ih =>
    rw [lexFrom_cons hnewline hcomment hblank, hread]
    simp only [Pos.down_advance, ih]
    cases lexFrom (p.advance l.text.length) rest' <;> rfl

/-! ### At a line end -/

theorem isPrefix_line {w cs more : List Char} (hw : '\n' ∉ w) :
    w <+: cs ++ '\n' :: more ↔ w <+: cs := by
  constructor
  · intro h
    obtain ⟨rest, hrest⟩ := h
    rcases List.append_eq_append_iff.mp hrest with ⟨cs', hcs, -⟩ | ⟨w', hw', hnewline⟩
    · exact ⟨cs', hcs.symm⟩
    · cases w' with
      | nil => exact ⟨[], by rw [hw', List.append_nil, List.append_nil]⟩
      | cons c w' =>
        obtain ⟨rfl, -⟩ := List.cons.inj hnewline
        exact absurd (hw' ▸ List.mem_append_right cs List.mem_cons_self) hw
  · intro h
    exact h.trans (List.prefix_append _ _)

/-- The longest lexeme of a line is the longest lexeme still with more lines behind it. -/
theorem Lexeme.IsLongestAt.line {l : Lexeme} {cs : List Char} (h : l.IsLongestAt cs)
    (more : List Char) : l.IsLongestAt (cs ++ '\n' :: more) := by
  refine ⟨h.isValid, h.starts.trans (List.prefix_append _ _), fun l' hl' hstarts => ?_⟩
  exact h.longest l' hl' ((isPrefix_line (Lexeme.newline_not_mem_text hl')).mp hstarts)

theorem head?_line {cs more : List Char} {c : Char} (hc : c ≠ '\n')
    (h : (cs ++ '\n' :: more).head? = some c) : cs.head? = some c := by
  cases cs with
  | nil => exact absurd (Option.some.inj h).symm hc
  | cons d cs => exact h

/-- What is read of a line does not depend on the lines behind it. -/
theorem readLexeme_line (c : Char) (cs more : List Char) :
    readLexeme c (cs ++ '\n' :: more) =
      (readLexeme c cs).map fun x => (x.1, x.2 ++ '\n' :: more) := by
  -- a lexeme at the front of the lines is one at the front of the first line
  have hstarts : ∀ {l : Lexeme}, l.isValid = true →
      l.text.toList <+: c :: (cs ++ '\n' :: more) → l.text.toList <+: c :: cs := by
    intro l hl hprefix
    rw [← List.cons_append] at hprefix
    exact (isPrefix_line (Lexeme.newline_not_mem_text hl)).mp hprefix
  cases hread : readLexeme c cs with
  | ok read =>
    obtain ⟨l, rest⟩ := read
    have htext : c :: (cs ++ '\n' :: more) = l.text.toList ++ (rest ++ '\n' :: more) := by
      rw [← List.append_assoc, ← (readLexeme_eq_ok hread).2, List.cons_append]
    have hlongest : l.IsLongestAt (c :: (cs ++ '\n' :: more)) :=
      (readLexeme_isLongestAt hread).line more
    rcases hlongest.readLexeme_or htext with ⟨hok, -⟩ | ⟨-, hdangles, -⟩
    · exact hok
    · have hpoint : rest.head? = some '.' := head?_line (by decide) hdangles.2
      exact absurd hpoint (head?_ne_point_of_readLexeme hread hdangles.1)
  | error cause =>
    cases cause with
    | danglingPoint =>
      obtain ⟨digits, rest, htext, hdigits, -, hlongest⟩ := exists_of_danglingPoint hread
      have hchars : (Lexeme.number ⟨digits, none⟩).text.toList = digits := by
        rw [Lexeme.text, Numeral.chars, String.toList_ofList]
      have htext' : c :: (cs ++ '\n' :: more) =
          (Lexeme.number ⟨digits, none⟩).text.toList ++ '.' :: (rest ++ '\n' :: more) := by
        rw [hchars, ← List.cons_append, htext, List.append_assoc, List.cons_append]
      have hlongest' : (Lexeme.number ⟨digits, none⟩).IsLongestAt (c :: (cs ++ '\n' :: more)) :=
        hlongest.line more
      rcases hlongest'.readLexeme_or htext' with ⟨-, hfree⟩ | ⟨herror, -⟩
      · exact absurd ⟨by rw [hchars]; exact hdigits, rfl⟩ hfree
      · exact herror
    | unexpected d =>
      obtain ⟨rfl, hnone⟩ := not_isPrefix_of_unexpected hread
      cases hread' : readLexeme d (cs ++ '\n' :: more) with
      | ok read =>
        have hlongest := readLexeme_isLongestAt hread'
        exact absurd (hstarts hlongest.isValid hlongest.starts) (hnone _ hlongest.isValid)
      | error cause =>
        cases cause with
        | danglingPoint =>
          obtain ⟨digits, _, -, -, -, hlongest⟩ := exists_of_danglingPoint hread'
          exact absurd (hstarts hlongest.isValid hlongest.starts) (hnone _ hlongest.isValid)
        | unexpected e => rw [(not_isPrefix_of_unexpected hread').1]; rfl

theorem dropWhile_line (cs more : List Char) :
    (cs ++ '\n' :: more).dropWhile (· != '\n') = cs.dropWhile (· != '\n') ++ '\n' :: more := by
  induction cs with
  | nil => rfl
  | cons c cs ih =>
    rw [List.cons_append, List.dropWhile_cons, List.dropWhile_cons, ih]
    split <;> rfl

theorem count_dropWhile_line (cs : List Char) :
    (cs.dropWhile (· != '\n')).count '\n' = cs.count '\n' := by
  induction cs with
  | nil => rfl
  | cons c cs ih =>
    rw [List.dropWhile_cons]
    split
    · rename_i hc
      rw [ih, List.count_cons_of_ne (bne_iff_ne.mp hc)]
    · rfl

/-- Where the line behind the text `cs` starts, which itself starts at `p`. -/
def Pos.lineBehind (p : Pos) (cs : List Char) : Pos := ⟨p.line + (1 + cs.count '\n' : Nat), 1⟩

theorem Pos.lineBehind_newline (p : Pos) (cs : List Char) :
    p.lineBehind ('\n' :: cs) = p.nextLine.lineBehind cs := by
  simp only [lineBehind, nextLine, List.count_cons_self, Pos.mk.injEq, and_true]
  omega

/-- Characters that end no line do not count. -/
theorem Pos.lineBehind_append {p q : Pos} {w : List Char} (hw : '\n' ∉ w) (hq : q.line = p.line)
    (cs : List Char) : p.lineBehind (w ++ cs) = q.lineBehind cs := by
  simp only [lineBehind, List.count_append, List.count_eq_zero.mpr hw, hq, Nat.zero_add]

/-- No comment starts because of the lines behind. -/
theorem not_comment_line {c : Char} {rest : List Char}
    (hcomment : ∀ rest', c = '-' → rest = '-' :: rest' → False) (more : List Char) :
    ∀ rest', c = '-' → rest ++ '\n' :: more = '-' :: rest' → False := by
  intro rest' hc heq
  have hhead : rest.head? = some '-' := head?_line (by decide) (congrArg List.head? heq)
  obtain ⟨rest'', hrest⟩ := List.head?_eq_some_iff.mp hhead
  exact hcomment rest'' hc hrest

/-- What is before a line end and what is behind it are lexed by themselves. -/
theorem lexFrom_line (p : Pos) (cs more : List Char) :
    lexFrom p (cs ++ '\n' :: more) =
      (lexFrom p cs).bind fun s => (lexFrom (p.lineBehind cs) more).map s.append := by
  fun_induction lexFrom p cs with
  | case1 p =>
    have hline : p.lineBehind [] = p.nextLine := rfl
    rw [List.nil_append, lexFrom, hline]
    cases lexFrom p.nextLine more <;> simp [Except.bind, Except.map, TokenStream.append]
  | case2 p rest ih => rw [List.cons_append, lexFrom, ih, Pos.lineBehind_newline]
  | case3 p rest ih =>
    have hline : p.lineBehind ('-' :: '-' :: rest) =
        p.lineBehind (rest.dropWhile (· != '\n')) := by
      simp [Pos.lineBehind, count_dropWhile_line]
    rw [List.cons_append, List.cons_append, lexFrom, dropWhile_line, ih, hline]
  | case4 p c rest hnewline hcomment hblank ih =>
    have hc : '\n' ∉ [c] := fun hmem => hnewline (List.mem_singleton.mp hmem).symm
    have hline : p.lineBehind (c :: rest) = (p.advance 1).lineBehind rest :=
      Pos.lineBehind_append hc rfl rest
    rw [List.cons_append, lexFrom.eq_4 _ _ _ hnewline (not_comment_line hcomment more),
      if_pos hblank, ih, hline]
  | case5 p c rest hnewline hcomment hblank cause hread =>
    rw [List.cons_append, lexFrom_cons hnewline (not_comment_line hcomment more) hblank,
      readLexeme_line, hread]
    rfl
  | case6 p c rest hnewline hcomment hblank l rest' hread ih =>
    obtain ⟨hvalid, htext⟩ := readLexeme_eq_ok hread
    have hline : p.lineBehind (c :: rest) = (p.advance l.text.length).lineBehind rest' := by
      rw [htext]
      exact Pos.lineBehind_append (Lexeme.newline_not_mem_text hvalid) rfl rest'
    rw [List.cons_append, lexFrom_cons hnewline (not_comment_line hcomment more) hblank,
      readLexeme_line, hread, hline]
    simp only [Except.map, ih]
    cases lexFrom (p.advance l.text.length) rest' with
    | error e => rfl
    | ok s => cases lexFrom ((p.advance l.text.length).lineBehind rest') more <;> rfl

/-- The number of line ends in a text. -/
def newlines (text : String) : Nat := text.toList.count '\n'

/-- A text is lexed line by line: the tokens behind a line end are those of the text behind it, only
further down, and what is wrong in a line is what is wrong with the line itself. -/
theorem lex_line (a b : String) :
    lex (a ++ "\n" ++ b) =
      (lex a).bind fun s =>
        ((lex b).map fun t => s.append (t.down (1 + newlines a))).mapError
          (·.down (1 + newlines a)) := by
  have hstart : Pos.start.lineBehind a.toList = Pos.start.down (1 + newlines a) := rfl
  have htext : (a ++ "\n" ++ b).toList = a.toList ++ '\n' :: b.toList := by simp
  rw [lex, htext, lexFrom_line, hstart, lexFrom_down]
  cases hb : lexFrom .start b.toList <;> simp [lex, hb, Except.map, Except.mapError]

/-! ### Both parts -/

/-- The view of the same token `n` lines further down. -/
def TokenView.down (n : Nat) (v : TokenView) : TokenView := { v with pos := v.pos.down n }

/-- The first stream is shown without its end, the second one further down. -/
theorem TokenStream.views_append_down (s t : TokenStream) (n : Nat) :
    (s.append (t.down n)).views = s.views.dropLast ++ t.views.map (TokenView.down n) := by
  have htokens : (t.tokens.map (Token.moved (Pos.down n))).map TokenView.ofToken =
      (t.tokens.map TokenView.ofToken).map (TokenView.down n) := by
    rw [List.map_map, List.map_map]
    rfl
  simp only [views, append, down, List.dropLast_concat, List.map_append, htokens,
    List.append_assoc]
  rfl

section

variable {a b : String} {s t : TokenStream} {e : LexError}

theorem lex_line_of_error (ha : lex a = .error e) (b : String) :
    lex (a ++ "\n" ++ b) = .error e := by
  rw [lex_line, ha]
  rfl

theorem lex_line_of_ok (ha : lex a = .ok s) (hb : lex b = .ok t) :
    lex (a ++ "\n" ++ b) = .ok (s.append (t.down (1 + newlines a))) := by
  rw [lex_line, ha, hb]
  rfl

theorem lex_line_of_ok_error (ha : lex a = .ok s) (hb : lex b = .error e) :
    lex (a ++ "\n" ++ b) = .error (e.down (1 + newlines a)) := by
  rw [lex_line, ha, hb]
  rfl

end

/-- A text with a line end in it can be lexed if and only if what is before the line end and what is
behind it can. Then it has the tokens of the first part and, as many lines further down as the first
part has, those of the second part with its end. If the first part cannot be lexed the text fails
with the same error, and if only the second part cannot, with its error that much further down. -/
theorem lex_newline (a b : String) :
    ((∃ u, lex (a ++ "\n" ++ b) = .ok u) ↔ (∃ s, lex a = .ok s) ∧ ∃ t, lex b = .ok t) ∧
    (∀ s t, lex a = .ok s → lex b = .ok t → ∃ u, lex (a ++ "\n" ++ b) = .ok u ∧
      u.views = s.views.dropLast ++ t.views.map (TokenView.down (1 + newlines a))) ∧
    (∀ e, lex a = .error e → lex (a ++ "\n" ++ b) = .error e) ∧
    ∀ s e, lex a = .ok s → lex b = .error e →
      lex (a ++ "\n" ++ b) = .error (e.down (1 + newlines a)) := by
  refine ⟨⟨?_, ?_⟩, ?_, fun e ha => lex_line_of_error ha b, fun s e => lex_line_of_ok_error⟩
  · rintro ⟨u, hu⟩
    cases ha : lex a with
    | error e => cases hu.symm.trans (lex_line_of_error ha b)
    | ok s =>
      cases hb : lex b with
      | error e => cases hu.symm.trans (lex_line_of_ok_error ha hb)
      | ok t => exact ⟨⟨s, rfl⟩, t, rfl⟩
  · rintro ⟨⟨s, ha⟩, t, hb⟩
    exact ⟨_, lex_line_of_ok ha hb⟩
  · intro s t ha hb
    exact ⟨_, lex_line_of_ok ha hb, s.views_append_down t _⟩

/-- Two minus signs with a line end between them start no comment, a point at the end of a line is
not continued in the next one, and an error in the second line is found there. -/
theorem brokenOff_lex_newline :
    (∃ u, lex ("x -" ++ "\n" ++ "-2") = .ok u ∧ u.views =
      [⟨"IDENT", "x", ⟨1, 1⟩⟩, ⟨"OP", "-", ⟨1, 3⟩⟩, ⟨"OP", "-", ⟨2, 1⟩⟩, ⟨"NUMBER", "2", ⟨2, 2⟩⟩,
        ⟨"EOF", "", ⟨2, 3⟩⟩]) ∧
    lex ("1." ++ "\n" ++ "5") = .error ⟨.danglingPoint, ⟨1, 1⟩⟩ ∧
    lex ("\n--" ++ "\n" ++ " !") = .error ⟨.unexpected '!', ⟨3, 2⟩⟩ := by
  refine ⟨(lex_newline "x -" "-2").2.1
      ⟨[⟨.ident "x", ⟨1, 1⟩⟩, ⟨.symbol (.op .sub), ⟨1, 3⟩⟩], ⟨1, 4⟩⟩
      ⟨[⟨.symbol (.op .sub), ⟨1, 1⟩⟩, ⟨.number ⟨['2'], none⟩, ⟨1, 2⟩⟩], ⟨1, 3⟩⟩
      (by decide +kernel) (by decide +kernel), ?_, ?_⟩
  · exact (lex_newline "1." "5").2.2.1 _ (by decide +kernel)
  · exact (lex_newline "\n--" " !").2.2.2 ⟨[], ⟨2, 1⟩⟩ ⟨.unexpected '!', ⟨1, 2⟩⟩
      (by decide +kernel) (by decide +kernel)

end NumScript
