import NumScript.Proofs.Token.Spaced

/-!
# NumScript.Proofs.Token.Joined

Texts that are put together from lexemes. Whatever lexemes are joined by whatever gaps, the text
lexes to those lexemes again, each in its class (`lex_joined`). A single space is such a gap, so the
words of a text, joined by spaces, are the words of the new text too.
-/

namespace NumScript

/-! ### Spaces -/

/-- Joining by spaces is joining by gaps. -/
theorem joined_space (ls : List Lexeme) :
    joinedWith (fun _ => " ") ls = " ".intercalate (ls.map Lexeme.text) := by
  induction ls with
  | nil => rw [joinedWith, List.map_nil, String.intercalate_nil]
  | cons l ls ih =>
    cases ls with
    | nil => rw [joinedWith, List.map_cons, List.map_nil, String.intercalate_singleton]
    | cons l' ls =>
      simp only [joinedWith, ih, List.map_cons, String.intercalate_cons_cons]

/-- With the end of a text, which has no characters, a space stands behind the last lexeme too. -/
theorem spaced_intercalate_end (ls : List Lexeme) :
    Spaced ls (" ".intercalate (ls.map Lexeme.text ++ [""])).toList := by
  induction ls with
  | nil =>
    rw [List.map_nil, List.nil_append, String.intercalate_singleton]
    exact .nil
  | cons l ls ih =>
    obtain ⟨text, texts, htexts⟩ : ∃ text texts, ls.map Lexeme.text ++ [""] = text :: texts :=
      List.exists_cons_of_ne_nil (by simp)
    rw [htexts] at ih
    rw [List.map_cons, List.cons_append, htexts, String.intercalate_cons_cons,
      String.toList_append, String.toList_append, List.append_assoc]
    exact .cons l rfl .nil ih

/-! ### Classes and characters -/

/-- The classes and the characters of all tokens, and of the end. -/
def TokenStream.classes (s : TokenStream) : List (String × String) :=
  s.views.map fun v => (v.kind, v.text)

/-- The classes and the characters of lexemes, with the end of a text behind them. -/
def classesOf (ls : List Lexeme) : List (String × String) :=
  ls.map (fun l => (l.kind, l.text)) ++ [("EOF", "")]

theorem TokenStream.classes_eq (s : TokenStream) : s.classes = classesOf (words s.tokens) := by
  rw [classes, classesOf, views, words, List.map_append, List.map_map, List.map_map]
  rfl

theorem TokenStream.texts_eq (s : TokenStream) :
    s.views.map TokenView.text = (words s.tokens).map Lexeme.text ++ [""] := by
  rw [views, words, List.map_append, List.map_map, List.map_map]
  rfl

/-- What is spaced out lexes to its lexemes, each in its class. -/
theorem Spaced.exists_lex {ls : List Lexeme} {text : String} (h : Spaced ls text.toList)
    (hvalid : ∀ l ∈ ls, l.isValid = true) :
    ∃ stream, lex text = .ok stream ∧ stream.classes = classesOf ls := by
  obtain ⟨stream, hlex, hwords⟩ := h.exists_lexFrom (List.all_eq_true.mpr hvalid) .start
  exact ⟨stream, hlex, by rw [stream.classes_eq, hwords]⟩

/-- The words of a text that was lexed can be read. -/
theorem isValid_of_mem_words {source : String} {stream : TokenStream}
    (h : lex source = .ok stream) : ∀ l ∈ words stream.tokens, l.isValid = true := by
  intro l hl
  obtain ⟨t, ht, rfl⟩ := List.mem_map.mp hl
  exact lexFrom_isValid h t ht

/-- Lexemes that are joined by gaps are lexed as they are, in order and each in its class, and
nothing else is but the end of the text. So the words of any text that can be lexed, joined by
single spaces, are lexed again to the same words, whether the empty text of the end is joined with
them or not. -/
theorem lex_joined :
    (∀ (gap : Nat → String) (ls : List Lexeme), (∀ n, IsGap (gap n)) →
      (∀ l ∈ ls, l.isValid = true) →
      ∃ stream, lex (joinedWith gap ls) = .ok stream ∧ stream.classes = classesOf ls) ∧
    ∀ source stream, lex source = .ok stream →
      (∃ again, lex (" ".intercalate (stream.views.map TokenView.text)) = .ok again ∧
        again.classes = stream.classes) ∧
      ∃ again, lex (" ".intercalate ((words stream.tokens).map Lexeme.text)) = .ok again ∧
        again.classes = stream.classes := by
  refine ⟨fun gap ls hgap => (spaced_joined hgap ls).exists_lex, ?_⟩
  intro source stream hlex
  have hvalid := isValid_of_mem_words hlex
  rw [stream.texts_eq, ← joined_space, stream.classes_eq]
  exact ⟨(spaced_intercalate_end _).exists_lex hvalid,
    (spaced_joined (fun _ => isGap_space) _).exists_lex hvalid⟩

/-- Lexemes of which neighbours would be one lexeme or a comment without the gap between them. -/
def touching : List Lexeme :=
  [.number ⟨['1'], none⟩, .number ⟨[], some ['5']⟩, .symbol (.op .sub), .symbol (.op .sub),
   .symbol (.op .lt), .symbol .assign, .keyword .kwEnd, .ident "x"]

/-- A comment between two minus signs, and a space elsewhere. -/
def commentedGap (n : Nat) : String := if n = 2 then "\r-- < =\n" else " "

theorem touching_lex_joined :
    joinedWith commentedGap touching = "1 .5 -\r-- < =\n- < = end x" ∧
    (∃ stream, lex "1 .5 -\r-- < =\n- < = end x" = .ok stream ∧ stream.classes =
      [("NUMBER", "1"), ("NUMBER", ".5"), ("OP", "-"), ("OP", "-"), ("OP", "<"), ("OP", "="),
        ("end", "end"), ("IDENT", "x"), ("EOF", "")]) ∧
    ∃ again, lex "- - 1" = .ok again ∧
      again.classes = [("OP", "-"), ("OP", "-"), ("NUMBER", "1"), ("EOF", "")] := by
  have htext : joinedWith commentedGap touching = "1 .5 -\r-- < =\n- < = end x" := by decide +kernel
  have hgap : ∀ n, IsGap (commentedGap n) := by
    intro n
    unfold commentedGap
    split
    · exact ⟨'\r', _, rfl, rfl, @Filler.comment " < =".toList [] (by decide) .nil⟩
    · exact isGap_space
  refine ⟨htext, ?_, ?_⟩
  · rw [← htext]
    exact lex_joined.1 commentedGap touching hgap (by decide)
  · have hminus : lex "-\n-1" = .ok ⟨[⟨.symbol (.op .sub), ⟨1, 1⟩⟩, ⟨.symbol (.op .sub), ⟨2, 1⟩⟩,
        ⟨.number ⟨['1'], none⟩, ⟨2, 2⟩⟩], ⟨2, 3⟩⟩ := by decide +kernel
    exact (lex_joined.2 _ _ hminus).2

end NumScript
