import NumScript.Proofs.Token.Longest

/-!
# NumScript.Proofs.Token.Reading

A text as gaps and lexemes. `Reads` says how far a text can be read by taking a gap and the longest
lexeme behind it, again and again, with the offset and the position of each lexeme; it does not
mention the lexer. Such a reading either comes to the end of the text or gets stuck at a character
(`exists_reads`). The lexemes of a reading stand where it says they do (`Reads.standsAt`), one
behind the other (`Reads.pairwise`).

A reading may take the two minus signs of a comment for lexemes, unless it is strict. It makes no
difference to whether a text can be read to its end: where a strict reading gets stuck, every other
one does (`Reads.isReadable`, `IsStuck.not_isReadable`).
-/

namespace NumScript

/-! ### Positions -/

/-- The position behind a text: its line is one more than the line ends in the text, its column one
more than the characters behind the last line end. -/
def positionAfter (before : List Char) : Pos :=
  ⟨1 + before.count '\n', 1 + (before.reverse.takeWhile (· != '\n')).length⟩

theorem positionAfter_newline (before : List Char) :
    positionAfter (before ++ ['\n']) = (positionAfter before).nextLine := by
  simp [positionAfter, Pos.nextLine]
  omega

theorem positionAfter_append (before : List Char) {w : List Char} (hw : '\n' ∉ w) :
    positionAfter (before ++ w) = (positionAfter before).advance w.length := by
  have hcount : w.count '\n' = 0 := List.count_eq_zero.mpr hw
  have htake : (w.reverse ++ before.reverse).takeWhile (· != '\n') =
      w.reverse ++ before.reverse.takeWhile (· != '\n') := by
    refine List.takeWhile_append_of_pos ?_
    intro c hc
    rw [bne_iff_ne]
    rintro rfl
    exact hw (List.mem_reverse.mp hc)
  simp only [positionAfter, Pos.advance, List.count_append, hcount, List.reverse_append, htake,
    List.length_append, List.length_reverse]
  congr 1
  omega

/-- A line end makes up for whatever was in its line. -/
theorem positionAfter_line (before : List Char) {w : List Char} (hw : '\n' ∉ w) :
    positionAfter (before ++ (w ++ ['\n'])) = (positionAfter before).nextLine := by
  rw [← List.append_assoc, positionAfter_newline, positionAfter_append before hw]
  rfl

theorem Lexeme.newline_not_mem_text {l : Lexeme} (h : l.isValid = true) :
    '\n' ∉ l.text.toList := by
  intro hmem
  rcases Lexeme.cases_of_isValid h with ⟨n, rfl, hn⟩ | ⟨c, cs, htext, hc, hcs⟩ | ⟨s, rfl⟩
  · rw [Lexeme.text, String.toList_ofList] at hmem
    obtain ⟨whole, fraction⟩ := n
    unfold Numeral.isValid at hn
    cases fraction with
    | none =>
      simp only [Bool.and_eq_true] at hn
      exact absurd (List.all_eq_true.mp hn.1 '\n' hmem) (by decide)
    | some fraction =>
      simp only [Bool.and_eq_true] at hn
      rcases List.mem_append.mp hmem with hmem | hmem
      · exact absurd (List.all_eq_true.mp hn.1 '\n' hmem) (by decide)
      · have hfraction := (List.mem_cons.mp hmem).resolve_left (by decide)
        exact absurd (List.all_eq_true.mp hn.2.1 '\n' hfraction) (by decide)
  · rw [htext] at hmem
    rcases List.mem_cons.mp hmem with rfl | hmem
    · exact absurd hc (by decide)
    · exact absurd (List.all_eq_true.mp hcs '\n' hmem) (by decide)
  · cases s with
    | op o => revert hmem; cases o <;> decide
    | _ => revert hmem; decide

/-! ### Readings -/

/-- `Reads strict before rest spans before' rest'`: behind the text `before`, the text `rest` is
read up to `rest'`, and `before'` is all that has been read then. What is read is a gap, any number
of times the longest lexeme and another gap; `spans` has these lexemes with the offsets at which
they start, and with their positions. In a strict reading no lexeme starts where a comment does. -/
inductive Reads (strict : Bool) : (before rest : List Char) → List (Nat × Token) →
    (before' rest' : List Char) → Prop
  | gap {gap : List Char} (before rest : List Char) (hgap : Filler gap) :
      Reads strict before (gap ++ rest) [] (before ++ gap) rest
  | lexeme {before gap rest before' rest' : List Char} {l : Lexeme} {spans : List (Nat × Token)}
      (hgap : Filler gap) (hl : l.IsLongestAt (l.text.toList ++ rest))
      (hstart : strict = true → startsComment (l.text.toList ++ rest) = false)
      (h : Reads strict (before ++ gap ++ l.text.toList) rest spans before' rest') :
      Reads strict before (gap ++ (l.text.toList ++ rest))
        (((before ++ gap).length, ⟨l, positionAfter (before ++ gap)⟩) :: spans) before' rest'

/-- The text has been read to its end, or to a comment that ends with it. -/
def AtEnd (rest : List Char) : Prop := rest = [] ∨ ∃ note, rest = '-' :: '-' :: note ∧ '\n' ∉ note

/-- The text goes on, but neither with a separator nor with a lexeme. -/
def IsStuck (rest : List Char) : Prop :=
  ∃ c cs, rest = c :: cs ∧ isSeparator c = false ∧
    ∀ l : Lexeme, l.isValid = true → ¬ l.text.toList <+: c :: cs

theorem Filler.append {gap gap' : List Char} (h : Filler gap) (h' : Filler gap') :
    Filler (gap ++ gap') := by
  induction h with
  | nil => exact h'
  | separator hc _ ih => exact .separator hc ih
  | @comment note gap hnote _ ih =>
    have hsplit : '-' :: '-' :: (note ++ '\n' :: gap) ++ gap' =
        '-' :: '-' :: (note ++ '\n' :: (gap ++ gap')) := by simp
    rw [hsplit]
    exact .comment hnote ih

/-- A gap in front is read with the first gap. -/
theorem Reads.filler {strict : Bool} {before gap rest before' rest' : List Char}
    {spans : List (Nat × Token)} (hgap : Filler gap)
    (h : Reads strict (before ++ gap) rest spans before' rest') :
    Reads strict before (gap ++ rest) spans before' rest' := by
  cases h with
  | @gap gap' _ _ hgap' =>
    rw [← List.append_assoc, List.append_assoc before]
    exact .gap before rest' (hgap.append hgap')
  | @lexeme _ gap' rest _ _ l spans hgap' hl hstart h =>
    rw [List.append_assoc before] at h ⊢
    rw [← List.append_assoc gap]
    exact .lexeme (hgap.append hgap') hl hstart h

/-! ### Every text can be read to the end or until it is stuck -/

/-- A point without a digit behind it starts no lexeme. -/
theorem isStuck_point {rest : List Char} (h : startsWithDigit rest = false) :
    IsStuck ('.' :: rest) := by
  refine ⟨'.', rest, rfl, by decide, ?_⟩
  intro l hl hstarts
  obtain ⟨s, rfl⟩ := Lexeme.eq_symbol_of_isPrefix hl hstarts h (by decide)
  obtain ⟨c, cs, htext, -, hpoint, -⟩ := s.exists_head
  rw [Lexeme.text, htext] at hstarts
  exact hpoint (List.cons_prefix_cons.mp hstarts).1

/-- Behind any text, another one can be read until it ends or is stuck. -/
theorem exists_reads (before rest : List Char) : ∃ spans before' rest',
    Reads true before rest spans before' rest' ∧ (AtEnd rest' ∨ IsStuck rest') := by
  have ih : ∀ before more : List Char, more.length < rest.length → ∃ spans before' rest',
      Reads true before more spans before' rest' ∧ (AtEnd rest' ∨ IsStuck rest') :=
    fun before more _ => exists_reads before more
  cases rest with
  | nil => exact ⟨[], _, [], .gap before [] .nil, .inl (.inl rfl)⟩
  | cons c cs =>
    by_cases hsep : isSeparator c = true
    · obtain ⟨spans, before', rest', hreads, hlast⟩ := ih (before ++ [c]) cs (by simp)
      exact ⟨spans, before', rest', hreads.filler (.separator hsep .nil), hlast⟩
    · rw [Bool.not_eq_true] at hsep
      by_cases hcomment : startsComment (c :: cs) = true
      · obtain ⟨more, hmore⟩ := exists_of_startsComment hcomment
        rw [hmore] at ih ⊢
        by_cases hline : '\n' ∈ more
        · -- a comment that ends with its line belongs to the gap
          obtain ⟨note, more', rfl, hnote⟩ := List.eq_append_cons_of_mem hline
          obtain ⟨spans, before', rest', hreads, hlast⟩ :=
            ih (before ++ ('-' :: '-' :: (note ++ ['\n']))) more' (by simp; omega)
          have hgap := hreads.filler (.comment hnote .nil)
          simp only [List.cons_append, List.append_assoc, List.nil_append] at hgap
          exact ⟨spans, before', rest', hgap, hlast⟩
        · exact ⟨[], _, _, .gap before _ .nil, .inl (.inr ⟨more, rfl, hline⟩)⟩
      · rw [Bool.not_eq_true] at hcomment
        -- a lexeme that can be read, and what it leaves
        have hnext : ∀ {l : Lexeme} {rest : List Char}, l.IsLongestAt (c :: cs) →
            c :: cs = l.text.toList ++ rest → ∃ spans before' rest',
              Reads true before (c :: cs) spans before' rest' ∧ (AtEnd rest' ∨ IsStuck rest') := by
          intro l rest hl htext
          obtain ⟨d, ds, hchars, -⟩ := Lexeme.exists_text_eq_cons hl.isValid
          have hlength : rest.length < (c :: cs).length := by
            rw [htext, hchars, List.length_append, List.length_cons]
            omega
          obtain ⟨spans, before', rest', hreads, hlast⟩ :=
            ih (before ++ [] ++ l.text.toList) rest hlength
          rw [htext] at hl hcomment ⊢
          exact ⟨_, before', rest', .lexeme .nil hl (fun _ => hcomment) hreads, hlast⟩
        cases hread : readLexeme c cs with
        | ok read => exact hnext (readLexeme_isLongestAt hread) (readLexeme_eq_ok hread).2
        | error cause =>
          cases cause with
          | danglingPoint =>
            obtain ⟨digits, rest, hsplit, -, -, hl⟩ := exists_of_danglingPoint hread
            refine @hnext _ ('.' :: rest) hl ?_
            rw [hsplit, Lexeme.text, String.toList_ofList]
            rfl
          | unexpected d =>
            obtain ⟨-, hnone⟩ := not_isPrefix_of_unexpected hread
            exact ⟨[], _, _, .gap before _ .nil, .inr ⟨c, cs, rfl, hsep, hnone⟩⟩
termination_by rest.length

/-! ### Where a reading is stuck -/

/-- A text that is stuck does not end here, and no gap starts here. -/
theorem IsStuck.eq_nil_of_filler {gap rest : List Char} (h : IsStuck (gap ++ rest))
    (hgap : Filler gap) : gap = [] := by
  obtain ⟨c, cs, hsplit, hsep, hnone⟩ := h
  cases hgap with
  | nil => rfl
  | @separator d gap hd _ =>
    obtain ⟨rfl, -⟩ := List.cons.inj hsplit
    rw [hd] at hsep
    cases hsep
  | comment hnote _ =>
    -- a comment starts with a minus, which is a lexeme
    refine absurd ?_ (hnone (.symbol (.op .sub)) rfl)
    rw [← hsplit]
    exact ⟨_, rfl⟩

theorem IsStuck.not_atEnd {rest : List Char} (h : IsStuck rest) : ¬ AtEnd rest := by
  obtain ⟨c, cs, rfl, -, hnone⟩ := h
  rintro (hnil | ⟨note, hnote, -⟩)
  · cases hnil
  · refine hnone (.symbol (.op .sub)) rfl ?_
    rw [hnote]
    exact ⟨_, rfl⟩

/-- From where a text is stuck, nothing more is read. -/
theorem IsStuck.reads {strict : Bool} {before rest before' rest' : List Char}
    {spans : List (Nat × Token)} (h : IsStuck rest)
    (hreads : Reads strict before rest spans before' rest') :
    spans = [] ∧ before' = before ∧ rest' = rest := by
  cases hreads with
  | gap _ _ hgap =>
    rw [h.eq_nil_of_filler hgap, List.append_nil]
    exact ⟨rfl, rfl, rfl⟩
  | lexeme hgap hl _ _ =>
    rw [h.eq_nil_of_filler hgap, List.nil_append] at h
    obtain ⟨c, cs, hsplit, -, hnone⟩ := h
    rw [hsplit] at hl
    exact absurd hl.starts (hnone _ hl.isValid)

/-! ### Texts that can be read to the end -/

/-- Some reading, strict or not, comes to the end of the text. -/
def IsReadable (rest : List Char) : Prop :=
  ∃ spans before before' rest', Reads false before rest spans before' rest' ∧ AtEnd rest'

theorem Reads.of_strict {before rest before' rest' : List Char} {spans : List (Nat × Token)}
    (h : Reads true before rest spans before' rest') :
    Reads false before rest spans before' rest' := by
  induction h with
  | gap before rest hgap => exact .gap before rest hgap
  | lexeme hgap hl _ _ ih => exact .lexeme hgap hl (fun hfalse => by cases hfalse) ih

theorem IsStuck.not_isReadable {rest : List Char} (h : IsStuck rest) : ¬ IsReadable rest := by
  rintro ⟨spans, before, before', rest', hreads, hend⟩
  obtain ⟨-, -, rfl⟩ := h.reads hreads
  exact h.not_atEnd hend

/-- The first line end of a text is in the first part of it or in the second. -/
theorem append_eq_line {a b w g : List Char} (h : a ++ b = w ++ '\n' :: g) :
    (∃ a', a = w ++ '\n' :: a' ∧ g = a' ++ b) ∨ ∃ w', w = a ++ w' ∧ b = w' ++ '\n' :: g := by
  rcases List.append_eq_append_iff.mp h with ⟨w', hw, hb⟩ | ⟨a', ha, hg⟩
  · exact .inr ⟨w', hw, hb⟩
  · cases a' with
    | nil =>
      rw [List.append_nil] at ha
      exact .inr ⟨[], by rw [ha, List.append_nil], hg.symm⟩
    | cons d a' =>
      obtain ⟨rfl, rfl⟩ := List.cons.inj hg
      exact .inl ⟨a', ha, rfl⟩

theorem Filler.of_separator {c : Char} {gap : List Char} (h : Filler (c :: gap))
    (hc : isSeparator c = true) : Filler gap := by
  cases h with
  | separator _ h => exact h
  | comment => exact absurd hc (by decide)

/-- What is left of a gap at the end of a line is a gap. -/
theorem Filler.of_line {gap w rest : List Char} (h : Filler gap) (hgap : gap = w ++ '\n' :: rest)
    (hw : '\n' ∉ w) : Filler rest := by
  induction h generalizing w with
  | nil => exact absurd hgap (by simp)
  | @separator c gap hc hrest ih =>
    cases w with
    | nil => exact (List.cons.inj hgap).2 ▸ hrest
    | cons d w => exact ih (List.cons.inj hgap).2 (List.not_mem_of_not_mem_cons hw)
  | @comment note gap hnote hrest ih =>
    have hsplit : '-' :: '-' :: note ++ '\n' :: gap = w ++ '\n' :: rest := hgap
    rcases append_eq_line hsplit with ⟨a', ha, -⟩ | ⟨w', rfl, hb⟩
    · have hmem : '\n' ∈ '-' :: '-' :: note := by rw [ha]; simp
      simp [hnote] at hmem
    · cases w' with
      | nil => exact (List.cons.inj hb).2 ▸ hrest
      | cons d w' => exact absurd (List.cons.inj hb).1 (by rintro rfl; simp at hw)

theorem AtEnd.newline_not_mem {rest : List Char} (h : AtEnd rest) : '\n' ∉ rest := by
  rcases h with rfl | ⟨note, rfl, hnote⟩
  · exact List.not_mem_nil
  · simpa using hnote

theorem IsReadable.of_separator {c : Char} {cs : List Char} (h : IsReadable (c :: cs))
    (hc : isSeparator c = true) : IsReadable cs := by
  obtain ⟨spans, before, before', rest', hreads, hend⟩ := h
  generalize hsplit : c :: cs = text at hreads
  cases hreads with
  | @gap gap _ _ hgap =>
    cases gap with
    | nil =>
      rcases hend with rfl | ⟨note, rfl, -⟩
      · cases hsplit
      · obtain ⟨rfl, -⟩ := List.cons.inj hsplit
        exact absurd hc (by decide)
    | cons d gap =>
      obtain ⟨rfl, rfl⟩ := List.cons.inj hsplit
      exact ⟨[], [], _, rest', .gap _ _ (hgap.of_separator hc), hend⟩
  | @lexeme _ gap rest _ _ l spans hgap hl hstart hrest =>
    cases gap with
    | nil =>
      obtain ⟨d, ds, htext, hd⟩ := Lexeme.exists_text_eq_cons hl.isValid
      rw [List.nil_append, htext] at hsplit
      obtain ⟨rfl, -⟩ := List.cons.inj hsplit
      rw [hc] at hd
      cases hd
    | cons d gap =>
      obtain ⟨rfl, rfl⟩ := List.cons.inj hsplit
      have hrest' : Reads false (before ++ [c] ++ gap ++ l.text.toList) rest spans before'
          rest' := by simpa using hrest
      exact ⟨_, before ++ [c], _, rest', .lexeme (hgap.of_separator hc) hl hstart hrest', hend⟩

/-- If a text can be read to its end, so it can from any of its lines on. -/
theorem IsReadable.of_line {w rest : List Char} (h : IsReadable (w ++ '\n' :: rest))
    (hw : '\n' ∉ w) : IsReadable rest := by
  obtain ⟨spans, before, before', rest', hreads, hend⟩ := h
  generalize hsplit : w ++ '\n' :: rest = text at hreads
  induction hreads generalizing w with
  | @gap gap before rest' hgap =>
    rcases append_eq_line hsplit.symm with ⟨gap', hgap', rfl⟩ | ⟨w', -, rfl⟩
    · exact ⟨[], [], _, rest', .gap _ _ (hgap.of_line hgap' hw), hend⟩
    · exact absurd hend.newline_not_mem (by simp)
  | @lexeme before gap more before' rest' l spans hgap hl hstart hrest ih =>
    rcases append_eq_line hsplit.symm with ⟨gap', hgap', rfl⟩ | ⟨w', rfl, hw'⟩
    · subst hgap'
      have hrest' : Reads false (before ++ (w ++ ['\n']) ++ gap' ++ l.text.toList) more spans
          before' rest' := by simpa using hrest
      exact ⟨_, _, _, rest', .lexeme (hgap.of_line rfl hw) hl hstart hrest', hend⟩
    · -- the lexeme is in the line
      rcases append_eq_line hw' with ⟨a', ha, -⟩ | ⟨w'', rfl, hmore⟩
      · exact absurd (Lexeme.newline_not_mem_text hl.isValid) (by rw [ha]; simp)
      · refine ih ?_ hend hmore.symm
        intro hmem
        exact hw (List.mem_append_right _ (List.mem_append_right _ hmem))

theorem IsReadable.of_filler {gap rest : List Char} (h : IsReadable (gap ++ rest))
    (hgap : Filler gap) : IsReadable rest := by
  induction hgap with
  | nil => exact h
  | separator hc _ ih => exact ih (h.of_separator hc)
  | @comment note gap hnote _ ih =>
    refine ih (IsReadable.of_line (w := '-' :: '-' :: note) ?_ (by simpa using hnote))
    simpa using h

/-- Where no comment starts, every reading takes the same lexeme. -/
theorem IsReadable.of_lexeme {l : Lexeme} {rest : List Char}
    (h : IsReadable (l.text.toList ++ rest)) (hl : l.IsLongestAt (l.text.toList ++ rest))
    (hstart : startsComment (l.text.toList ++ rest) = false) : IsReadable rest := by
  obtain ⟨c, cs, htext, hsep⟩ := Lexeme.exists_text_eq_cons hl.isValid
  obtain ⟨spans, before, before', rest', hreads, hend⟩ := h
  -- no gap starts here
  have hnil : ∀ {gap more : List Char}, Filler gap → l.text.toList ++ rest = gap ++ more →
      gap = [] := by
    intro gap more hgap hsplit
    cases hgap with
    | nil => rfl
    | separator hc _ =>
      rw [htext] at hsplit
      obtain ⟨rfl, -⟩ := List.cons.inj hsplit
      rw [hc] at hsep
      cases hsep
    | comment _ _ =>
      rw [hsplit] at hstart
      cases hstart
  generalize hsplit : l.text.toList ++ rest = text at hreads
  cases hreads with
  | gap _ _ hgap =>
    rw [hnil hgap hsplit, List.nil_append] at hsplit
    rcases hend with rfl | ⟨note, rfl, -⟩
    · rw [htext] at hsplit
      cases hsplit
    · rw [hsplit] at hstart
      cases hstart
  | @lexeme _ gap more _ _ l' spans hgap hl' _ hrest =>
    rw [hnil hgap hsplit, List.nil_append] at hsplit
    rw [hsplit] at hl
    obtain rfl := hl.unique hl'
    obtain rfl := List.append_cancel_left hsplit
    exact ⟨_, _, _, rest', hrest, hend⟩

/-- If a text can be read to its end, so it can from any place that a strict reading comes to. -/
theorem Reads.isReadable {before rest before' rest' : List Char} {spans : List (Nat × Token)}
    (h : Reads true before rest spans before' rest') (hreadable : IsReadable rest) :
    IsReadable rest' := by
  induction h with
  | gap _ _ hgap => exact hreadable.of_filler hgap
  | lexeme hgap hl hstart _ ih => exact ih ((hreadable.of_filler hgap).of_lexeme hl (hstart rfl))

/-! ### Where the lexemes of a reading are -/

/-- The class of a lexeme, by its text. -/
def classOf (text : String) : String :=
  match text.toList with
  | [] => "EOF"
  | c :: _ =>
    if c.isDigit || c == '.' then "NUMBER"
    else if isWordStart c then if (Keyword.ofText? text).isSome then text else "IDENT"
    else "OP"

theorem classOf_word {text : String} {c : Char} {cs : List Char} (htext : text.toList = c :: cs)
    (hc : isWordStart c = true) :
    classOf text = if (Keyword.ofText? text).isSome then text else "IDENT" := by
  have hpoint : c ≠ '.' := by
    rintro rfl
    exact absurd hc (by decide)
  rw [classOf, htext]
  simp [isDigit_of_isWordStart hc, hpoint, hc]

theorem Lexeme.kind_eq_classOf {l : Lexeme} (h : l.isValid = true) : l.kind = classOf l.text := by
  cases l with
  | number n =>
    obtain ⟨c, cs, hchars, hc⟩ := Numeral.exists_chars h
    rw [classOf, Lexeme.text, String.toList_ofList, hchars]
    rcases hc with hc | rfl
    · simp [hc, kind]
    · rfl
  | ident name =>
    obtain ⟨c, cs, htext, hc, -⟩ := exists_of_isIdentifier h
    have hnone : (Keyword.ofText? name).isNone = true := by
      rw [Lexeme.isValid, isIdentifier, htext] at h
      exact (Bool.and_eq_true _ _ ▸ h).2
    rw [Lexeme.text, classOf_word htext hc, Option.isNone_iff_eq_none.mp hnone]
    rfl
  | keyword k =>
    obtain ⟨c, cs, htext, hc, -⟩ := k.exists_toList
    rw [Lexeme.text, classOf_word htext hc, Keyword.ofText?_text]
    rfl
  | symbol s =>
    obtain ⟨c, cs, htext, hdigit, hpoint, hword⟩ := s.exists_head
    rw [classOf, Lexeme.text, htext]
    simp [hdigit, hpoint, hword, kind]

/-- The token is in the text at the offset: the longest lexeme there, with the class that its text
has and the position behind all that comes before. -/
structure StandsAt (text : List Char) (offset : Nat) (t : Token) : Prop where
  longest : t.lexeme.IsLongestAt (text.drop offset)
  kind : t.lexeme.kind = classOf t.lexeme.text
  pos : t.pos = positionAfter (text.take offset)

/-- What has been read and what has not make up the text. -/
theorem Reads.append_eq {strict : Bool} {before rest before' rest' : List Char}
    {spans : List (Nat × Token)} (h : Reads strict before rest spans before' rest') :
    before' ++ rest' = before ++ rest := by
  induction h with
  | gap before rest _ => rw [List.append_assoc]
  | lexeme _ _ _ _ ih => rw [ih]; simp

theorem Reads.length_le {strict : Bool} {before rest before' rest' : List Char}
    {spans : List (Nat × Token)} (h : Reads strict before rest spans before' rest') :
    before.length ≤ before'.length := by
  induction h with
  | gap before rest _ => simp
  | lexeme _ _ _ _ ih => simp only [List.length_append] at ih; omega

/-- The lexemes of a reading are in the text where it says they are. -/
theorem Reads.standsAt {strict : Bool} {before rest before' rest' : List Char}
    {spans : List (Nat × Token)} (h : Reads strict before rest spans before' rest') :
    ∀ x ∈ spans, before.length ≤ x.1 ∧ x.1 + x.2.lexeme.text.length ≤ before'.length ∧
      StandsAt (before ++ rest) x.1 x.2 := by
  induction h with
  | gap => exact fun x hx => absurd hx List.not_mem_nil
  | @lexeme before gap rest before' rest' l spans hgap hl _ hrest ih =>
    rintro x (_ | ⟨_, hx⟩)
    · have hlength := hrest.length_le
      simp only [List.length_append, String.length_toList] at hlength
      refine ⟨by simp, by simp only [List.length_append]; omega, ?_, ?_, ?_⟩
      · rw [← List.append_assoc, List.drop_left]
        exact hl
      · exact Lexeme.kind_eq_classOf hl.isValid
      · rw [← List.append_assoc, List.take_left]
    · obtain ⟨hfrom, hto, hplace⟩ := ih x hx
      rw [List.append_assoc, List.append_assoc] at hplace
      simp only [List.length_append] at hfrom
      exact ⟨by omega, hto, hplace⟩

/-- The lexemes of a reading stand one behind the other. -/
theorem Reads.pairwise {strict : Bool} {before rest before' rest' : List Char}
    {spans : List (Nat × Token)} (h : Reads strict before rest spans before' rest') :
    spans.Pairwise fun x y => x.1 < y.1 ∧ x.1 + x.2.lexeme.text.length ≤ y.1 := by
  induction h with
  | gap => exact .nil
  | @lexeme before gap rest before' rest' l spans _ hl _ hrest ih =>
    refine .cons ?_ ih
    intro y hy
    obtain ⟨c, cs, htext, -⟩ := Lexeme.exists_text_eq_cons hl.isValid
    have hfrom := (hrest.standsAt y hy).1
    have hlength : l.text.length = cs.length + 1 := by
      rw [← String.length_toList, htext, List.length_cons]
    simp only [List.length_append, String.length_toList] at hfrom ⊢
    omega

end NumScript
