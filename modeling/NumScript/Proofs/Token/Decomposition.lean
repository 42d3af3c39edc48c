import NumScript.Proofs.Token.Reading

/-!
# NumScript.Proofs.Token.Decomposition

The lexer follows the strict readings of a text: it has the tokens of one that comes to the end of
the text (`Reads.lexFrom_of_atEnd`), and fails where one gets stuck
(`Reads.exists_lexFrom_of_isStuck`). As every text has a reading of either kind, this says all about
the lexer (`lex_iff_reads`).
-/

namespace NumScript

/-! ### The lexer step by step -/

theorem lexFrom_separator_eq {c : Char} (hc : isSeparator c = true) (before cs : List Char) :
    lexFrom (positionAfter before) (c :: cs) = lexFrom (positionAfter (before ++ [c])) cs := by
  by_cases hnewline : c = '\n'
  · subst hnewline
    rw [lexFrom, positionAfter_newline]
  · have hplace : positionAfter (before ++ [c]) = (positionAfter before).advance 1 :=
      positionAfter_append before (by simpa using fun h => hnewline h.symm)
    rw [hplace]
    rcases isSeparator_cases hc with rfl | rfl | rfl | rfl
    · rw [lexFrom] <;> simp [isBlank]
    · rw [lexFrom] <;> simp [isBlank]
    · rw [lexFrom] <;> simp [isBlank]
    · exact absurd rfl hnewline

theorem Filler.lexFrom_eq {gap : List Char} (h : Filler gap) (before cs : List Char) :
    lexFrom (positionAfter before) (gap ++ cs) = lexFrom (positionAfter (before ++ gap)) cs := by
  induction h generalizing before with
  | nil => rw [List.append_nil, List.nil_append]
  | @separator c gap hc _ ih =>
    rw [List.cons_append, lexFrom_separator_eq hc, ih, List.append_assoc]
    rfl
  | @comment note gap hnote _ ih =>
    have hall : note.all (· != '\n') = true := by
      simp only [List.all_eq_true, bne_iff_ne]
      rintro c hc rfl
      exact hnote hc
    have hdrop : (note ++ '\n' :: (gap ++ cs)).dropWhile (· != '\n') = '\n' :: (gap ++ cs) :=
      dropWhile_append_stop hall (by simp)
    have hline : positionAfter (before ++ ('-' :: '-' :: note ++ ['\n'])) =
        (positionAfter before).nextLine := positionAfter_line before (by simpa using hnote)
    have hnext := ih (before ++ ('-' :: '-' :: note ++ ['\n']))
    rw [hline] at hnext
    simp only [List.cons_append, List.append_assoc]
    rw [lexFrom, hdrop, lexFrom, hnext]
    simp

/-! ### The lexer follows a reading -/

/-- The lexeme is made of digits, and a point follows. -/
def Dangles (l : Lexeme) (rest : List Char) : Prop :=
  l.text.toList.all Char.isDigit = true ∧ rest.head? = some '.'

/-- The longest lexeme is read, unless it is made of digits with a point behind them. -/
theorem Lexeme.IsLongestAt.readLexeme_or {l : Lexeme} {c : Char} {cs rest : List Char}
    (hl : l.IsLongestAt (c :: cs)) (htext : c :: cs = l.text.toList ++ rest) :
    (readLexeme c cs = .ok (l, rest) ∧ ¬ Dangles l rest) ∨
    (readLexeme c cs = .error .danglingPoint ∧ Dangles l rest ∧ IsStuck rest) := by
  cases hread : readLexeme c cs with
  | ok read =>
    obtain ⟨l', rest'⟩ := read
    obtain rfl := (readLexeme_isLongestAt hread).unique hl
    have hsplit := (readLexeme_eq_ok hread).2
    rw [htext] at hsplit
    obtain rfl := List.append_cancel_left hsplit
    exact .inl ⟨rfl, fun h => head?_ne_point_of_readLexeme hread h.1 h.2⟩
  | error cause =>
    cases cause with
    | danglingPoint =>
      obtain ⟨digits, more, hsplit, hdigits, hmore, hl'⟩ := exists_of_danglingPoint hread
      obtain rfl := hl'.unique hl
      have hchars : (Lexeme.number ⟨digits, none⟩).text.toList = digits := String.toList_ofList
      rw [htext, hchars] at hsplit
      obtain rfl := List.append_cancel_left hsplit
      exact .inr ⟨rfl, ⟨by rw [hchars]; exact hdigits, rfl⟩, isStuck_point hmore⟩
    | unexpected d =>
      exact absurd hl.starts ((not_isPrefix_of_unexpected hread).2 l hl.isValid)

/-- The lexer takes the longest lexeme, or refuses it because of a point behind it. -/
theorem Lexeme.IsLongestAt.lexFrom_or {l : Lexeme} {rest : List Char}
    (hl : l.IsLongestAt (l.text.toList ++ rest))
    (hstart : startsComment (l.text.toList ++ rest) = false) (before : List Char) :
    (lexFrom (positionAfter before) (l.text.toList ++ rest) =
        (lexFrom (positionAfter (before ++ l.text.toList)) rest).map
          (·.cons ⟨l, positionAfter before⟩) ∧ ¬ Dangles l rest) ∨
    (lexFrom (positionAfter before) (l.text.toList ++ rest) =
        .error ⟨.danglingPoint, positionAfter before⟩ ∧ Dangles l rest ∧ IsStuck rest) := by
  obtain ⟨c, cs, htext, hsep⟩ := Lexeme.exists_text_eq_cons hl.isValid
  have hplace : positionAfter (before ++ l.text.toList) =
      (positionAfter before).advance l.text.length := by
    rw [positionAfter_append before (Lexeme.newline_not_mem_text hl.isValid), String.length_toList]
  have hchars : l.text.toList ++ rest = c :: (cs ++ rest) := by rw [htext, List.cons_append]
  rw [hchars] at hl hstart
  rw [hplace, hchars, lexFrom_readLexeme hsep hstart]
  rcases hl.readLexeme_or hchars.symm with ⟨hread, hdangles⟩ | ⟨hread, hdangles, hstuck⟩
  · rw [hread]
    exact .inl ⟨rfl, hdangles⟩
  · rw [hread]
    exact .inr ⟨rfl, hdangles, hstuck⟩

theorem AtEnd.lexFrom_eq {rest : List Char} (h : AtEnd rest) (p : Pos) :
    lexFrom p rest = .ok ⟨[], p⟩ := by
  rcases h with rfl | ⟨note, rfl, hnote⟩
  · rw [lexFrom]
  · have hdrop : note.dropWhile (· != '\n') = [] := by
      refine List.dropWhile_eq_nil_iff.mpr ?_
      intro c hc
      rw [bne_iff_ne]
      rintro rfl
      exact hnote hc
    rw [lexFrom, hdrop, lexFrom]

/-- At the end of a reading the lexer has its tokens. -/
theorem Reads.lexFrom_of_atEnd {before rest before' rest' : List Char}
    {spans : List (Nat × Token)} (h : Reads true before rest spans before' rest')
    (hend : AtEnd rest') :
    lexFrom (positionAfter before) rest = .ok ⟨spans.map Prod.snd, positionAfter before'⟩ := by
  induction h with
  | gap before rest hgap => rw [hgap.lexFrom_eq, hend.lexFrom_eq]; rfl
  | @lexeme before gap rest before' rest' l spans hgap hl hstart hrest ih =>
    rw [hgap.lexFrom_eq]
    rcases hl.lexFrom_or (hstart rfl) (before ++ gap) with ⟨hlex, -⟩ | ⟨-, -, hstuck⟩
    · rw [hlex, ih hend]
      rfl
    · obtain ⟨-, -, rfl⟩ := hstuck.reads hrest
      exact absurd hend hstuck.not_atEnd

/-- The last lexeme of a reading is `t`, it is made of digits, and the reading stops right behind it
at a point. -/
def DanglesAt (spans : List (Nat × Token)) (before rest : List Char) (t : Token) : Prop :=
  ∃ offset, spans.getLast? = some (offset, t) ∧
    offset + t.lexeme.text.length = before.length ∧ Dangles t.lexeme rest

/-- The error for a reading that is stuck: it is about the character where it is stuck, or, if a
numeral ends there in a point without digits, about that numeral. -/
def Blames (spans : List (Nat × Token)) (before rest : List Char) (e : LexError) : Prop :=
  (∃ t, DanglesAt spans before rest t ∧ e = ⟨.danglingPoint, t.pos⟩) ∨
  ((∀ t, ¬ DanglesAt spans before rest t) ∧
    ∃ c, rest.head? = some c ∧ e = ⟨.unexpected c, positionAfter before⟩)

theorem IsStuck.lexFrom_eq {rest : List Char} (h : IsStuck rest) (p : Pos) :
    ∃ c, rest.head? = some c ∧ lexFrom p rest = .error ⟨.unexpected c, p⟩ := by
  obtain ⟨c, cs, rfl, hsep, hnone⟩ := h
  have hcomment : startsComment (c :: cs) = false := by
    refine Bool.eq_false_iff.mpr fun hcomment => ?_
    obtain ⟨more, hmore⟩ := exists_of_startsComment hcomment
    refine hnone (.symbol (.op .sub)) rfl ?_
    rw [hmore]
    exact ⟨_, rfl⟩
  refine ⟨c, rfl, ?_⟩
  rw [lexFrom_readLexeme hsep hcomment]
  cases hread : readLexeme c cs with
  | ok read =>
    have hl := readLexeme_isLongestAt hread
    exact absurd hl.starts (hnone _ hl.isValid)
  | error cause =>
    cases cause with
    | danglingPoint =>
      obtain ⟨digits, rest, -, -, -, hl⟩ := exists_of_danglingPoint hread
      exact absurd hl.starts (hnone _ hl.isValid)
    | unexpected d => rw [(not_isPrefix_of_unexpected hread).1]

/-- Only the last lexeme can be blamed. -/
theorem danglesAt_cons {x y : Nat × Token} {spans : List (Nat × Token)} {before rest : List Char}
    {t : Token} :
    DanglesAt (x :: y :: spans) before rest t ↔ DanglesAt (y :: spans) before rest t := by
  rw [DanglesAt, DanglesAt, List.getLast?_cons_cons]

/-- A lexeme that is taken is not blamed. -/
theorem Reads.not_danglesAt {strict : Bool} {before rest before' rest' : List Char} {l : Lexeme}
    {p : Pos} {offset : Nat} (h : Reads strict before rest [] before' rest')
    (hoffset : offset + l.text.length = before.length) (hl : ¬ Dangles l rest) (t : Token) :
    ¬ DanglesAt [(offset, ⟨l, p⟩)] before' rest' t := by
  rintro ⟨k, hlast, hk, hdangles⟩
  obtain ⟨rfl, rfl⟩ := Prod.mk.inj (Option.some.inj hlast)
  cases h with
  | @gap gap _ _ hgap =>
    -- no gap fits between the lexeme and the place where the reading stops
    have hnil : gap = [] := by
      refine List.eq_nil_of_length_eq_zero ?_
      simp only [List.length_append] at hk
      omega
    subst hnil
    exact hl hdangles

/-- Where a reading is stuck the lexer fails, and blames what the reading blames. -/
theorem Reads.exists_lexFrom_of_isStuck {before rest before' rest' : List Char}
    {spans : List (Nat × Token)} (h : Reads true before rest spans before' rest')
    (hstuck : IsStuck rest') :
    ∃ e, lexFrom (positionAfter before) rest = .error e ∧ Blames spans before' rest' e := by
  induction h with
  | @gap gap before rest hgap =>
    obtain ⟨c, hc, hlex⟩ := hstuck.lexFrom_eq (positionAfter (before ++ gap))
    refine ⟨_, (hgap.lexFrom_eq before rest).trans hlex, .inr ⟨?_, c, hc, rfl⟩⟩
    rintro t ⟨offset, hlast, -⟩
    cases hlast
  | @lexeme before gap rest before' rest' l spans hgap hl hstart hrest ih =>
    have hoffset : (before ++ gap).length + l.text.length =
        (before ++ gap ++ l.text.toList).length := by
      simp only [List.length_append, String.length_toList]
    rw [hgap.lexFrom_eq]
    rcases hl.lexFrom_or (hstart rfl) (before ++ gap) with ⟨hlex, hfree⟩ | ⟨hlex, hdangles, hpoint⟩
    · obtain ⟨e, herror, hblames⟩ := ih hstuck
      refine ⟨e, by rw [hlex, herror]; rfl, ?_⟩
      cases spans with
      | nil =>
        rcases hblames with ⟨t, ⟨offset, hlast, -⟩, -⟩ | ⟨-, hc⟩
        · cases hlast
        · exact .inr ⟨hrest.not_danglesAt hoffset hfree, hc⟩
      | cons y spans =>
        rcases hblames with ⟨t, ht, he⟩ | ⟨hnone, hc⟩
        · exact .inl ⟨t, danglesAt_cons.mpr ht, he⟩
        · exact .inr ⟨fun t ht => hnone t (danglesAt_cons.mp ht), hc⟩
    · obtain ⟨rfl, rfl, rfl⟩ := hpoint.reads hrest
      exact ⟨_, hlex, .inl ⟨⟨l, positionAfter (before ++ gap)⟩, ⟨_, rfl, hoffset, hdangles⟩, rfl⟩⟩

theorem DanglesAt.unique {spans : List (Nat × Token)} {before rest : List Char} {t t' : Token}
    (h : DanglesAt spans before rest t) (h' : DanglesAt spans before rest t') : t = t' := by
  obtain ⟨offset, hlast, -⟩ := h
  obtain ⟨offset', hlast', -⟩ := h'
  rw [hlast] at hlast'
  exact (Prod.mk.inj (Option.some.inj hlast')).2

/-- A reading blames one thing. -/
theorem Blames.unique {spans : List (Nat × Token)} {before rest : List Char} {e e' : LexError}
    (h : Blames spans before rest e) (h' : Blames spans before rest e') : e = e' := by
  rcases h with ⟨t, ht, rfl⟩ | ⟨hnone, c, hc, rfl⟩
  · rcases h' with ⟨t', ht', rfl⟩ | ⟨hnone', -⟩
    · rw [ht.unique ht']
    · exact absurd ht (hnone' t)
  · rcases h' with ⟨t', ht', rfl⟩ | ⟨-, c', hc', rfl⟩
    · exact absurd ht' (hnone t')
    · rw [hc] at hc'
      rw [Option.some.inj hc']

/-! ### The lexer and the readings -/

/-- A text lexes to the tokens of its strict reading and the end of the text, if that reading comes
to the end or to a comment that ends with the text; it fails with what the reading blames if the
reading is stuck. It fails only if no reading at all comes to the end. And the lexemes of a reading
are where it says: each is the longest one at its offset and has the class and the position that the
text gives it, they do not overlap, and what is between them is a gap. -/
theorem lex_iff_reads (source : String) :
    (∀ views, (∃ stream, lex source = .ok stream ∧ stream.views = views) ↔
      ∃ spans before rest, Reads true [] source.toList spans before rest ∧ AtEnd rest ∧
        views = spans.map (fun x => .ofToken x.2) ++ [.ofFinish (positionAfter before)]) ∧
    (∀ e, lex source = .error e ↔
      ∃ spans before rest, Reads true [] source.toList spans before rest ∧ IsStuck rest ∧
        Blames spans before rest e) ∧
    ((∃ e, lex source = .error e) ↔
      ¬ ∃ spans before rest, Reads false [] source.toList spans before rest ∧ AtEnd rest) ∧
    ∀ strict spans before rest, Reads strict [] source.toList spans before rest →
      before ++ rest = source.toList ∧
      (∀ x ∈ spans, StandsAt source.toList x.1 x.2 ∧ x.2.lexeme.kind ≠ "EOF" ∧
        x.1 + x.2.lexeme.text.length ≤ before.length) ∧
      spans.Pairwise fun x y => x.1 < y.1 ∧ x.1 + x.2.lexeme.text.length ≤ y.1 := by
  obtain ⟨spans, before, rest, hreads, hlast⟩ := exists_reads [] source.toList
  refine ⟨fun views => ⟨?_, ?_⟩, fun e => ⟨?_, ?_⟩, ⟨?_, ?_⟩, ?_⟩
  · rintro ⟨stream, hlex, rfl⟩
    rcases hlast with hend | hstuck
    · obtain rfl := Except.ok.inj (hlex.symm.trans (hreads.lexFrom_of_atEnd hend))
      exact ⟨spans, before, rest, hreads, hend, by simp [TokenStream.views]⟩
    · obtain ⟨e, herror, -⟩ := hreads.exists_lexFrom_of_isStuck hstuck
      cases hlex.symm.trans herror
  · rintro ⟨spans', before', rest', hreads', hend, rfl⟩
    exact ⟨_, hreads'.lexFrom_of_atEnd hend, by simp [TokenStream.views]⟩
  · intro hlex
    rcases hlast with hend | hstuck
    · cases hlex.symm.trans (hreads.lexFrom_of_atEnd hend)
    · obtain ⟨e', herror, hblames⟩ := hreads.exists_lexFrom_of_isStuck hstuck
      obtain rfl := Except.error.inj (hlex.symm.trans herror)
      exact ⟨spans, before, rest, hreads, hstuck, hblames⟩
  · rintro ⟨spans', before', rest', hreads', hstuck, hblames⟩
    obtain ⟨e', herror, hblames'⟩ := hreads'.exists_lexFrom_of_isStuck hstuck
    rw [hblames.unique hblames']
    exact herror
  · rintro ⟨e, hlex⟩ ⟨spans', before', rest', hreads', hend'⟩
    rcases hlast with hend | hstuck
    · cases hlex.symm.trans (hreads.lexFrom_of_atEnd hend)
    · exact hstuck.not_isReadable (hreads.isReadable ⟨spans', [], before', rest', hreads', hend'⟩)
  · intro hnone
    rcases hlast with hend | hstuck
    · exact absurd ⟨spans, before, rest, hreads.of_strict, hend⟩ hnone
    · obtain ⟨e, herror, -⟩ := hreads.exists_lexFrom_of_isStuck hstuck
      exact ⟨e, herror⟩
  · intro strict spans' before' rest' hreads'
    refine ⟨hreads'.append_eq, ?_, hreads'.pairwise⟩
    intro x hx
    obtain ⟨-, hto, hplace⟩ := hreads'.standsAt x hx
    exact ⟨hplace, x.2.lexeme.kind_ne_eof, hto⟩

/-- A comment inside the text is passed over, and one at its end is where the text ends. -/
theorem commented_lex_iff_reads :
    Reads true [] "x --c\n<=.5--".toList
      [(0, ⟨.ident "x", ⟨1, 1⟩⟩), (6, ⟨.symbol (.op .leq), ⟨2, 1⟩⟩),
        (8, ⟨.number ⟨[], some ['5']⟩, ⟨2, 3⟩⟩)] "x --c\n<=.5".toList "--".toList ∧
    (∃ stream, lex "x --c\n<=.5--" = .ok stream ∧ stream.views =
      [⟨"IDENT", "x", ⟨1, 1⟩⟩, ⟨"OP", "<=", ⟨2, 1⟩⟩, ⟨"NUMBER", ".5", ⟨2, 3⟩⟩,
        ⟨"EOF", "", ⟨2, 5⟩⟩]) ∧
    StandsAt "x --c\n<=.5--".toList 8 ⟨.number ⟨[], some ['5']⟩, ⟨2, 3⟩⟩ := by
  have hnumber : Reads true ['x', ' ', '-', '-', 'c', '\n', '<', '='] ['.', '5', '-', '-']
      [(8, ⟨.number ⟨[], some ['5']⟩, ⟨2, 3⟩⟩)] "x --c\n<=.5".toList ['-', '-'] :=
    .lexeme .nil (readLexeme_isLongestAt (c := '.') (l := .number ⟨[], some ['5']⟩) rfl)
      (fun _ => rfl) (.gap _ _ .nil)
  have hsymbol : Reads true ['x'] [' ', '-', '-', 'c', '\n', '<', '=', '.', '5', '-', '-']
      [(6, ⟨.symbol (.op .leq), ⟨2, 1⟩⟩), (8, ⟨.number ⟨[], some ['5']⟩, ⟨2, 3⟩⟩)]
      "x --c\n<=.5".toList ['-', '-'] :=
    .lexeme (l := .symbol (.op .leq))
      (.separator (c := ' ') rfl (@Filler.comment ['c'] [] (by decide) .nil))
      (readLexeme_isLongestAt (c := '<') (l := .symbol (.op .leq)) rfl) (fun _ => rfl) hnumber
  have hreads : Reads true [] "x --c\n<=.5--".toList
      [(0, ⟨.ident "x", ⟨1, 1⟩⟩), (6, ⟨.symbol (.op .leq), ⟨2, 1⟩⟩),
        (8, ⟨.number ⟨[], some ['5']⟩, ⟨2, 3⟩⟩)] "x --c\n<=.5".toList "--".toList :=
    .lexeme (l := .ident "x") .nil (readLexeme_isLongestAt (c := 'x') (l := .ident "x") rfl)
      (fun _ => rfl) hsymbol
  obtain ⟨hok, -, -, hplaces⟩ := lex_iff_reads "x --c\n<=.5--"
  refine ⟨hreads, (hok _).mpr ⟨_, _, _, hreads, .inr ⟨[], rfl, List.not_mem_nil⟩, rfl⟩, ?_⟩
  exact ((hplaces _ _ _ _ hreads).2.1 (8, ⟨.number ⟨[], some ['5']⟩, ⟨2, 3⟩⟩) (by simp)).1

end NumScript
