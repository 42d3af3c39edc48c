import Mathlib.Data.List.Chain
import NumScript.Proofs.Codegen.Calls
import NumScript.Proofs.Codegen.Lexical
import NumScript.Proofs.Token.Longest

/-!
# NumScript.Proofs.Codegen.Identifiers

The words in the C text of a program. `wordsIn` finds them by reading the text character by
character; what starts with a digit is no word. The fragments of a program are spaced, that is,
there is a gap between each two that have words in them (`Program.composed_fragments`), so the words
of the text are those of its fragments (`Composed.wordsIn_textOf`).

Words that are not variables are keywords, names of the surrounding text, the name of infinity, and
the symbols of functions. No variable has such a name in the C text, with one exception: a variable
may have the name of infinity (`compile_variables`).
-/

namespace NumScript

/-! ### Words in a text -/

/-- The word that ends here, given with its last character first, unless it starts with a digit. -/
def closeWord (word : List Char) : List String :=
  match word.getLast? with
  | some c => if isWordStart c then [String.ofList word.reverse] else []
  | none => []

/-- The words of a text, of which the first has begun with the characters `word`, the last one
first. -/
def wordsFrom (word : List Char) : List Char → List String
  | [] => closeWord word
  | c :: cs =>
    if isWordChar c then wordsFrom (c :: word) cs else closeWord word ++ wordsFrom [] cs

/-- The words of a text. -/
def wordsIn (text : String) : List String := wordsFrom [] text.toList

/-- A text may be cut at a character that belongs to no word. -/
theorem wordsFrom_break {c : Char} (hc : isWordChar c = false) (word before rest : List Char) :
    wordsFrom word (before ++ c :: rest) = wordsFrom word before ++ wordsFrom [] rest := by
  induction before generalizing word with
  | nil => simp [wordsFrom, hc]
  | cons d before ih =>
    rw [List.cons_append, wordsFrom, wordsFrom]
    split
    · exact ih (d :: word)
    · rw [ih [], List.append_assoc]

theorem wordsFrom_all {cs : List Char} (h : cs.all isWordChar = true) (word : List Char) :
    wordsFrom word cs = closeWord (cs.reverse ++ word) := by
  induction cs generalizing word with
  | nil => rfl
  | cons c cs ih =>
    rw [List.all_cons, Bool.and_eq_true] at h
    rw [wordsFrom, if_pos h.1, ih h.2, List.reverse_cons, List.append_assoc]
    rfl

/-- A text starts with a character that belongs to no word. -/
def startsOpen (text : String) : Bool := text.toList.head?.any (!isWordChar ·)

/-- A text ends with a character that belongs to no word. -/
def endsOpen (text : String) : Bool := text.toList.getLast?.any (!isWordChar ·)

theorem wordsIn_append_of_startsOpen (t : String) {u : String} (h : startsOpen u = true) :
    wordsIn (t ++ u) = wordsIn t ++ wordsIn u := by
  unfold startsOpen at h
  obtain ⟨c, hc, hbreak⟩ := (Option.any_eq_true _ _).mp h
  rw [Bool.not_eq_true'] at hbreak
  obtain ⟨rest, hrest⟩ := List.head?_eq_some_iff.mp hc
  have hstart := wordsFrom_break hbreak [] [] rest
  rw [List.nil_append] at hstart
  rw [wordsIn, wordsIn, wordsIn, String.toList_append, hrest, wordsFrom_break hbreak, hstart]
  rfl

theorem wordsIn_append_of_endsOpen {t : String} (h : endsOpen t = true) (u : String) :
    wordsIn (t ++ u) = wordsIn t ++ wordsIn u := by
  unfold endsOpen at h
  obtain ⟨c, hc, hbreak⟩ := (Option.any_eq_true _ _).mp h
  rw [Bool.not_eq_true'] at hbreak
  obtain ⟨before, hbefore⟩ := List.getLast?_eq_some_iff.mp hc
  rw [wordsIn, wordsIn, wordsIn, String.toList_append, hbefore, List.append_assoc,
    List.singleton_append, wordsFrom_break hbreak, wordsFrom_break hbreak]
  simp [wordsFrom, closeWord]

/-- A name is one word. -/
theorem wordsIn_of_isCName {name : String} (h : isCName name = true) : wordsIn name = [name] := by
  obtain ⟨c, cs, hname, hc, -⟩ := exists_of_isCName h
  rw [wordsIn, wordsFrom_all (isCName.all_isWordChar h), List.append_nil, closeWord,
    List.getLast?_reverse, List.reverse_reverse, hname]
  show (if isWordStart c = true then [String.ofList (c :: cs)] else []) = [name]
  rw [if_pos hc, ← hname, String.ofList_toList]

/-- What starts with a digit and goes on with word characters has no word in it. -/
theorem wordsFrom_of_isDigit {c : Char} {cs : List Char} (hc : c.isDigit = true)
    (hcs : cs.all isWordChar = true) : wordsFrom [] (c :: cs) = [] := by
  have hall : (c :: cs).all isWordChar = true := by
    rw [List.all_cons, hcs, isWordChar_of_isDigit hc]
    rfl
  have hstart : isWordStart c = false := by
    refine Bool.eq_false_iff.mpr fun hstart => ?_
    rw [isDigit_of_isWordStart hstart] at hc
    cases hc
  rw [wordsFrom_all hall]
  simp [closeWord, hstart]

/-! ### Words in numbers -/

/-- Digits with word characters behind them have no word in them. -/
theorem wordsFrom_digits {ds w : List Char} (hds : ds.all Char.isDigit = true) (hne : ds ≠ [])
    (hw : w.all isWordChar = true) : wordsFrom [] (ds ++ w) = [] := by
  obtain ⟨c, cs, rfl⟩ := List.exists_cons_of_ne_nil hne
  rw [List.all_cons, Bool.and_eq_true] at hds
  rw [List.cons_append]
  refine wordsFrom_of_isDigit hds.1 ?_
  have hcs : cs.all isWordChar = true :=
    List.all_eq_true.mpr fun d hd => isWordChar_of_isDigit (List.all_eq_true.mp hds.2 d hd)
  rw [List.all_append, hcs, hw]
  rfl

/-- Behind digits, an exponent adds no word: its letter belongs to the digits. -/
theorem DecimalParts.wordsFrom_exponentChars (t : DecimalParts) {ds : List Char}
    (hds : ds.all Char.isDigit = true) (hne : ds ≠ []) :
    wordsFrom [] (ds ++ t.exponentChars) = [] := by
  unfold exponentChars
  cases h : t.exponent with
  | none => exact wordsFrom_digits hds hne rfl
  | some e =>
    obtain ⟨negative, es⟩ := e
    obtain ⟨hes, hesne⟩ := t.exponent_digits _ h
    have hmantissa := wordsFrom_digits hds hne (w := ['e']) (by decide)
    have hexponent := wordsFrom_digits hes hesne (w := []) rfl
    rw [List.append_nil] at hexponent
    have hsplit : ds ++ 'e' :: (if negative then '-' else '+') :: es =
        (ds ++ ['e']) ++ (if negative then '-' else '+') :: es := by simp
    have hsign : isWordChar (if negative then '-' else '+') = false := by
      cases negative <;> decide
    rw [hsplit, wordsFrom_break hsign, hmantissa, hexponent]
    rfl

theorem DecimalParts.wordsFrom_chars (t : DecimalParts) : wordsFrom [] t.chars = [] := by
  unfold chars fractionChars
  cases h : t.fraction with
  | none => exact t.wordsFrom_exponentChars t.whole_digits t.whole_ne_nil
  | some ds =>
    have hwhole := wordsFrom_digits t.whole_digits t.whole_ne_nil (w := []) rfl
    rw [List.append_nil] at hwhole
    rw [List.cons_append, wordsFrom_break (by decide), hwhole,
      t.wordsFrom_exponentChars (t.fraction_digits ds h) (t.fraction_ne_nil ds h)]
    rfl

/-- The name of infinity is the one word that a number can have in it. -/
def Double.words : Double → List String
  | .finite _ _ => []
  | .infinite _ => ["HUGE_VAL"]
  | .nan => ["nan"]

theorem Double.wordsIn_literal (v : Double) : wordsIn v.literal = v.words := by
  cases v with
  | finite negative magnitude =>
    obtain ⟨t, hchars, -, -⟩ := magnitude.exists_parts .standard
    have hparts := t.wordsFrom_chars
    have htext : wordsIn (Double.finite negative magnitude).text = [] := by
      rw [Double.text, wordsIn, String.toList_ofList, hchars]
      cases negative with
      | true => exact hparts
      | false => exact hparts
    unfold literal
    dsimp only
    split
    · rw [wordsIn_append_of_startsOpen _ (by decide), wordsIn_append_of_endsOpen (by decide), htext]
      rfl
    · exact htext
  | infinite negative => cases negative <;> decide
  | nan => decide

/-! ### Words in fragments -/

/-- The words of a fragment. -/
def Fragment.words (symbolOf : String → String) : Fragment → List String
  | .gap _ => []
  | .word text => [text]
  | .literal value => value.words
  | .var name => [safeName name]
  | .symbol name => [symbolOf name]

/-- Whether a fragment is a gap. -/
def Fragment.isGap : Fragment → Bool
  | .gap _ => true
  | _ => false

/-- Whether a text can stand between words: there is no word in it, and none can go on into it. -/
def isGapText (text : String) : Bool := startsOpen text && endsOpen text && (wordsIn text).isEmpty

/-- Whether the text of a gap is one, and a word is one that is reserved. -/
def Fragment.isProper : Fragment → Bool
  | .gap text => isGapText text
  | .word text => reservedNames.contains text
  | _ => true

/-- The fragments are what they should be, and of each two neighbours one is a gap. -/
structure Composed (fs : List Fragment) : Prop where
  proper : ∀ f ∈ fs, f.isProper = true
  spaced : fs.IsChain fun f g => f.isGap = true ∨ g.isGap = true

namespace Composed

theorem nil : Composed [] := ⟨List.forall_mem_nil _, .nil⟩

theorem single {f : Fragment} (h : f.isProper = true) : Composed [f] :=
  ⟨List.forall_mem_singleton.mpr h, .singleton f⟩

/-- What is composed may be put together with a gap in between. -/
theorem gap {fs gs : List Fragment} {text : String} (hfs : Composed fs)
    (htext : isGapText text = true) (hgs : Composed gs) : Composed (fs ++ .gap text :: gs) := by
  refine ⟨List.forall_mem_append.mpr ⟨hfs.proper, List.forall_mem_cons.mpr ⟨htext, hgs.proper⟩⟩, ?_⟩
  refine List.isChain_append.mpr ⟨hfs.spaced, ?_, ?_⟩
  · exact List.isChain_cons.mpr ⟨fun g _ => .inl rfl, hgs.spaced⟩
  · intro f _ g hg
    obtain rfl := Option.some.inj hg
    exact .inr rfl

theorem joined {text : String} (htext : isGapText text = true) {fss : List (List Fragment)}
    (h : ∀ fs ∈ fss, Composed fs) : Composed (joined text fss) := by
  fun_induction NumScript.joined text fss with
  | case1 => exact nil
  | case2 fs => exact h fs List.mem_cons_self
  | case3 fs gs more ih =>
    exact (h fs List.mem_cons_self).gap htext (ih fun hs hhs => h hs (List.mem_cons_of_mem _ hhs))

end Composed

theorem isCName_of_isIdentifier {name : String} (h : isIdentifier name = true) :
    isCName name = true := by
  obtain ⟨c, cs, hname, hc, hcs⟩ := exists_of_isIdentifier h
  exact isCName_of_toList hname hc hcs

theorem startsOpen_append {t : String} (h : startsOpen t = true) (u : String) :
    startsOpen (t ++ u) = true := by
  unfold startsOpen at h ⊢
  obtain ⟨c, hc, hbreak⟩ := (Option.any_eq_true _ _).mp h
  obtain ⟨cs, hcs⟩ := List.head?_eq_some_iff.mp hc
  rw [String.toList_append, hcs]
  exact hbreak

section Words

variable {symbolOf : String → String}

theorem Fragment.wordsIn_text (hsymbol : ∀ name, isIdentifier name = true →
    isCName (symbolOf name) = true) {f : Fragment} (hproper : f.isProper = true)
    (hlexical : f.isLexical = true) : wordsIn (f.text symbolOf) = f.words symbolOf := by
  cases f with
  | gap text =>
    simp only [isProper, isGapText, Bool.and_eq_true] at hproper
    exact List.isEmpty_iff.mp hproper.2
  | word text =>
    have hreserved : ∀ k ∈ reservedNames, isCName k = true := by decide
    exact wordsIn_of_isCName (hreserved text (List.contains_iff_mem.mp hproper))
  | literal value => exact value.wordsIn_literal
  | var name => exact wordsIn_of_isCName (safeName_isCName (isCName_of_isIdentifier hlexical))
  | symbol name => exact wordsIn_of_isCName (hsymbol name hlexical)

/-- The words of a text are those of its fragments. -/
theorem Composed.wordsIn_textOf (hsymbol : ∀ name, isIdentifier name = true →
    isCName (symbolOf name) = true) {fs : List Fragment} (h : Composed fs)
    (hlexical : ∀ f ∈ fs, f.isLexical = true) :
    wordsIn (textOf symbolOf fs) = fs.flatMap (Fragment.words symbolOf) := by
  induction fs with
  | nil => rfl
  | cons f fs ih =>
    obtain ⟨hproper, hspaced⟩ := h
    rw [List.forall_mem_cons] at hproper hlexical
    have hfirst := Fragment.wordsIn_text hsymbol hproper.1 hlexical.1
    have hrest := ih ⟨hproper.2, hspaced.tail⟩ hlexical.2
    have hsplit : wordsIn (f.text symbolOf ++ textOf symbolOf fs) =
        wordsIn (f.text symbolOf) ++ wordsIn (textOf symbolOf fs) := by
      by_cases hgap : f.isGap = true
      · cases f with
        | gap text =>
          have htext := hproper.1
          simp only [Fragment.isProper, isGapText, Bool.and_eq_true] at htext
          exact wordsIn_append_of_endsOpen htext.1.2 _
        | _ => cases hgap
      · cases fs with
        | nil =>
          rw [textOf_nil, String.append_empty]
          exact (List.append_nil _).symm
        | cons g fs =>
          -- the neighbour of what is no gap is one
          have hnext := (List.isChain_cons_cons.mp hspaced).1.resolve_left hgap
          cases g with
          | gap text =>
            have htext := hproper.2 _ List.mem_cons_self
            simp only [Fragment.isProper, isGapText, Bool.and_eq_true] at htext
            exact wordsIn_append_of_startsOpen _ (startsOpen_append htext.1.1 _)
          | _ => cases hnext
    rw [textOf_cons, hsplit, hfirst, hrest, List.flatMap_cons]

end Words

/-! ### The fragments of a program are composed -/

theorem Operator.composed_fragments (o : Operator) {left right : List Fragment}
    (hleft : Composed left) (hright : Composed right) : Composed (o.fragments left right) := by
  have hclose := hright.gap (by decide : isGapText ")" = true) .nil
  have hint : Composed [.word "int"] := .single (by decide)
  have hdouble : Composed [.word "double"] := .single (by decide)
  have hinfix : ∀ text : String, isGapText (" " ++ text ++ " ") = true →
      Composed (.gap "(" :: (left ++ .gap (" " ++ text ++ " ") :: (right ++ [.gap ")"]))) :=
    fun text htext => Composed.nil.gap (by decide) (hleft.gap htext hclose)
  cases o with
  | pow =>
    have hpow : Composed [.word "pow"] := .single (by decide)
    exact hpow.gap (by decide) (hleft.gap (by decide) hclose)
  | div =>
    exact Composed.nil.gap (by decide) (hdouble.gap (by decide) (hleft.gap (by decide) hclose))
  | mod =>
    have hsecond := hint.gap (by decide : isGapText ")" = true) hclose
    exact Composed.nil.gap (by decide) (hint.gap (by decide) (hleft.gap (by decide) hsecond))
  | _ => exact hinfix _ (by decide)

mutual

theorem Expr.composed_fragments : ∀ e : Expr, Composed e.fragments
  | .number _ => .single rfl
  | .ident _ => .single rfl
  | .call name args => by
    have hargs := Composed.joined (by decide : isGapText ", " = true) (composed_fragmentsEach args)
    have hname : Composed [.symbol name] := .single rfl
    exact hname.gap (by decide : isGapText "(" = true) (hargs.gap (by decide) .nil)
  | .binary o left right => o.composed_fragments left.composed_fragments right.composed_fragments
  | .pair left right =>
    Composed.nil.gap (by decide) (left.composed_fragments.gap (by decide)
      (right.composed_fragments.gap (by decide) .nil))
  | .hole => .nil

theorem composed_fragmentsEach : ∀ es : List Expr, ∀ fs ∈ fragmentsEach es, Composed fs
  | [] => List.forall_mem_nil _
  | e :: es => List.forall_mem_cons.mpr ⟨e.composed_fragments, composed_fragmentsEach es⟩

end

theorem composed_countTestFragments (var : String) {down stop : List Fragment}
    (hdown : Composed down) (hstop : Composed stop) :
    Composed (countTestFragments var down stop) := by
  have hvar : Composed [.var var] := .single rfl
  have hint : Composed [.word "int"] := .single (by decide)
  have hcast := hint.gap (by decide : isGapText ")" = true) hstop
  have hbelow := hvar.gap (by decide : isGapText " < (" = true) hcast
  have habove := hvar.gap (by decide : isGapText " > (" = true)
    (hint.gap (by decide : isGapText ")" = true)
      (hstop.gap (by decide : isGapText " : " = true) hbelow))
  exact hdown.gap (by decide) habove

theorem composed_countFragments (var : String) {fss : List (List Fragment)}
    (h : ∀ fs ∈ fss, Composed fs) : Composed (countFragments var fss) := by
  have hvar : Composed [.var var] := .single rfl
  have hint : Composed [.word "int"] := .single (by decide)
  have hloop : ∀ {fs : List Fragment}, Composed fs →
      Composed (.word "for" :: .gap " (" :: .word "int" :: .gap " " :: fs) := fun hfs =>
    (Composed.single (by decide) : Composed [.word "for"]).gap (by decide)
      (hint.gap (by decide) hfs)
  have hcast : ∀ {fs : List Fragment}, Composed fs →
      Composed (.var var :: .gap " = (" :: .word "int" :: .gap ")" :: fs) := fun hfs =>
    hvar.gap (by decide) (hint.gap (by decide) hfs)
  have hsemicolon : isGapText "; " = true := by decide
  have hstep := hvar.gap (by decide : isGapText "++) \x7b" = true) .nil
  match fss, h with
  | [], _ => exact .nil
  | [stop], h =>
    have hstop := h stop (by simp)
    exact hloop (hvar.gap (by decide) (hvar.gap (by decide) (hstop.gap hsemicolon hstep)))
  | [first, stop], h =>
    have hfirst := h first (by simp)
    have hstop := h stop (by simp)
    have hdown := hfirst.gap (by decide : isGapText " > " = true) hstop
    have hback := hdown.gap (by decide : isGapText " ? " = true)
      (hvar.gap (by decide : isGapText "-- : " = true) hstep)
    exact hloop (hcast (hfirst.gap hsemicolon
      ((composed_countTestFragments var hdown hstop).gap hsemicolon hback)))
  | [first, stop, step], h =>
    have hfirst := h first (by simp)
    have hstop := h stop (by simp)
    have hdown := hfirst.gap (by decide : isGapText " > " = true) hstop
    have hby := hvar.gap (by decide : isGapText " += (" = true)
      (hint.gap (by decide : isGapText ")" = true) ((h step (by simp)).gap
        (by decide : isGapText ") \x7b" = true) .nil))
    exact hloop (hcast (hfirst.gap hsemicolon
      ((composed_countTestFragments var hdown hstop).gap hsemicolon hby)))
  | _ :: _ :: _ :: _ :: _, _ => exact .nil

theorem LineForm.composed_fragments (form : LineForm) {fss : List (List Fragment)}
    (h : ∀ fs ∈ fss, Composed fs) : Composed (form.fragments fss) := by
  match fss, h with
  | [t], h =>
    have ht := h t (by simp)
    have hend := ht.gap (by decide : isGapText ";" = true) .nil
    have hopen := ht.gap (by decide : isGapText ") \x7b" = true) .nil
    have hword : ∀ {w : String}, reservedNames.contains w = true → Composed [.word w] :=
      fun hw => .single hw
    have hvalue : ∀ x : String, Composed (.var x :: .gap " = " :: (t ++ [.gap ";"])) :=
      fun x => (Composed.single rfl : Composed [.var x]).gap (by decide) hend
    have hif : Composed (.word "if" :: .gap " (" :: (t ++ [.gap ") \x7b"])) :=
      (hword (by decide)).gap (by decide) hopen
    cases form with
    | print =>
      exact (hword (by decide)).gap (by decide) (ht.gap (by decide : isGapText ");" = true) .nil)
    | result => exact (hword (by decide)).gap (by decide) hend
    | declare x => exact (hword (by decide)).gap (by decide) (hvalue x)
    | assign x => exact hvalue x
    | choice => exact hif
    | orChoice =>
      exact Composed.nil.gap (by decide) ((hword (by decide)).gap (by decide) hif)
    | loop => exact (hword (by decide)).gap (by decide) hopen
    | count var => exact composed_countFragments var h
  | [], h => cases form <;> exact .nil
  | _ :: _ :: _, h =>
    cases form with
    | count var => exact composed_countFragments var h
    | _ => exact .nil

theorem Closing.composed_fragments (l : Closing) : Composed l.fragments := by
  have helse : Composed [.word "else"] := .single (by decide)
  cases l with
  | close => exact Composed.nil.gap (by decide) .nil
  | orElse => exact Composed.nil.gap (by decide) (helse.gap (by decide) .nil)

theorem composed_headFragments (name : String) (params : List String) :
    Composed (headFragments name params) := by
  have hdouble : Composed [.word "double"] := .single (by decide)
  have hname : Composed [.symbol name] := .single rfl
  have hlist : Composed (if params.isEmpty then [.word "void"]
      else joined ", " (params.map fun param => [.word "double", .gap " ", .var param])) := by
    split
    · exact .single (by decide)
    · refine .joined (by decide) (List.forall_mem_map.mpr fun param _ => ?_)
      exact hdouble.gap (by decide) (.single rfl)
  exact hdouble.gap (by decide : isGapText " " = true)
    (hname.gap (by decide : isGapText "(" = true) (hlist.gap (by decide) .nil))

/-- A line end and the blanks behind it are a gap. -/
theorem isGapText_newline (level : Nat) : isGapText ("\n" ++ indentation level) = true := by
  have hindent : (indentation level).toList = List.replicate (4 * level) ' ' :=
    String.toList_ofList
  have hblanks : ∀ n : Nat, wordsFrom [] (List.replicate n ' ') = [] := by
    intro n
    induction n with
    | zero => rfl
    | succ n ih => exact ih
  have hends : endsOpen ("\n" ++ indentation level) = true := by
    rw [endsOpen, String.toList_append, hindent, List.getLast?_append, List.getLast?_replicate]
    split <;> decide
  have hwords : wordsIn ("\n" ++ indentation level) = [] := by
    rw [wordsIn_append_of_endsOpen (by decide), wordsIn, wordsIn, hindent, hblanks]
    rfl
  rw [isGapText, startsOpen_append (by decide), hends, hwords]
  rfl

/-- Parts that are composed may be put behind each other, each with a gap in front. -/
theorem Composed.append_flatMap {α : Type} {fs : List Fragment} (hfs : Composed fs) {xs : List α}
    {text : α → String} {part : α → List Fragment}
    (h : ∀ x ∈ xs, isGapText (text x) = true ∧ Composed (part x)) :
    Composed (fs ++ xs.flatMap fun x => .gap (text x) :: part x) := by
  induction xs generalizing fs with
  | nil => rwa [List.flatMap_nil, List.append_nil]
  | cons x xs ih =>
    rw [List.forall_mem_cons] at h
    rw [List.flatMap_cons, ← List.append_assoc]
    exact ih (hfs.gap h.1.1 h.1.2) h.2

theorem composed_unitFragments {head : List Fragment} (hhead : Composed head) {body : List UnitLine}
    (hbody : ∀ line ∈ body, Composed line.2) (returnsZero : Bool) :
    Composed (unitFragments head body returnsZero) := by
  have hopen := hhead.gap (by decide : isGapText " \x7b" = true) .nil
  have hreturn : Composed [.word "return", .gap " 0;"] :=
    (Composed.single (by decide) : Composed [.word "return"]).gap (by decide) .nil
  have hclose : Composed [.gap "\x7d"] := Composed.nil.gap (by decide) .nil
  have hsplit : unitFragments head body returnsZero = (head ++ [.gap " \x7b"]) ++ below (body ++
      (if returnsZero then [(1, [.word "return", .gap " 0;"])] else []) ++
        [(0, [.gap "\x7d"])]) := by
    simp [unitFragments]
  rw [hsplit]
  refine hopen.append_flatMap fun line hline => ⟨isGapText_newline line.1, ?_⟩
  rcases List.mem_append.mp hline with hline | hline
  · rcases List.mem_append.mp hline with hline | hline
    · exact hbody line hline
    · cases returnsZero with
      | true => exact List.mem_singleton.mp hline ▸ hreturn
      | false => exact absurd hline List.not_mem_nil
  · exact List.mem_singleton.mp hline ▸ hclose

theorem Script.composed_lines (s : Script) (level : Nat) :
    ∀ line ∈ s.lines level, Composed line.2 := by
  induction s generalizing level with
  | seq first second ih ih' => exact List.forall_mem_append.mpr ⟨ih level, ih' level⟩
  | closing l => exact List.forall_mem_singleton.mpr l.composed_fragments
  | statement p es form =>
    exact List.forall_mem_singleton.mpr (form.composed_fragments (composed_fragmentsEach es))
  | indented body ih => exact ih (level + 1)
  | _ => exact List.forall_mem_nil _

theorem Script.composed_units (s : Script) : ∀ fs ∈ s.units, Composed fs := by
  induction s with
  | seq first second ih ih' => exact List.forall_mem_append.mpr ⟨ih, ih'⟩
  | indented body ih => exact ih
  | define p name params returnsZero body ih =>
    refine List.forall_mem_append.mpr ⟨ih, List.forall_mem_singleton.mpr ?_⟩
    exact composed_unitFragments (composed_headFragments name params) (body.composed_lines 1) _
  | _ => exact List.forall_mem_nil _

/-- The fragments of a program are composed. -/
theorem Program.composed_fragments (p : Program) : Composed p.fragments := by
  have hmain : Composed mainHead := ⟨by decide, by decide⟩
  have hprototypes : Composed (prototypeFragments p.heads) := by
    refine .joined (by decide) (List.forall_mem_map.mpr fun head _ => ?_)
    exact (composed_headFragments head.name head.params).gap (by decide) .nil
  have hsections : ∀ fs ∈ p.sections, Composed fs := by
    refine List.forall_mem_append.mpr ⟨List.forall_mem_append.mpr ⟨?_, ?_⟩, ?_⟩
    · split
      · exact List.forall_mem_nil _
      · exact List.forall_mem_singleton.mpr hprototypes
    · exact Script.composed_units _
    · exact List.forall_mem_singleton.mpr
        (composed_unitFragments hmain (Script.composed_lines _ 1) true)
  have hbehind : Composed ([] ++ p.sections.flatMap fun fs => .gap "\n\n" :: fs) :=
    Composed.nil.append_flatMap fun fs hfs => ⟨by decide, hsections fs hfs⟩
  exact hbehind.gap (by decide) .nil

/-! ### Variables -/

/-- The variable that a fragment is, if it is one. -/
def Fragment.asVar? : Fragment → Option String
  | .var name => some name
  | _ => none

/-- The variables of a program: those that are declared, assigned, counted in or used, and the
parameters of its functions. -/
def Program.varNames (p : Program) : List String := p.atoms.filterMap Fragment.asVar?

/-- The words that the C text of a program may use for something else than a variable. -/
def Program.ownWords (p : Program) : List String :=
  reservedNames ++ "HUGE_VAL" :: p.heads.map (p.symbolOf ·.name)

theorem Program.mem_varNames {p : Program} {x : String} :
    x ∈ p.varNames ↔ .var x ∈ p.atoms := by
  rw [varNames, List.mem_filterMap]
  constructor
  · rintro ⟨f, hf, hx⟩
    cases f with
    | var name => exact Option.some.inj hx ▸ hf
    | _ => cases hx
  · exact fun h => ⟨.var x, h, rfl⟩

theorem Program.symbolOf_isCName (p : Program) {name : String} (h : isIdentifier name = true) :
    isCName (p.symbolOf name) = true :=
  NameTable.mangle_isCName _ (isCName.all_isWordChar (isCName_of_isIdentifier h))

/-- A word that is not a variable is one of the text's own. -/
theorem Program.mem_ownWords {p : Program} {text : String}
    (h : p.toC (.empty NameTable.counting) = .ok text)
    (hlexical : ∀ f ∈ p.atoms, f.isLexical = true) {f : Fragment} (hf : f ∈ p.fragments)
    (hvar : f.asVar? = none) : ∀ w ∈ f.words p.symbolOf, w ∈ p.ownWords := by
  have hproper := p.composed_fragments.proper f hf
  intro w hw
  cases f with
  | gap text => exact absurd hw List.not_mem_nil
  | word text =>
    obtain rfl := List.mem_singleton.mp hw
    exact List.mem_append_left _ (List.contains_iff_mem.mp hproper)
  | literal value =>
    have hnumber := hlexical _ ((Program.mem_fragments rfl h).mp hf)
    cases value with
    | finite negative magnitude => exact absurd hw List.not_mem_nil
    | infinite negative =>
      obtain rfl := List.mem_singleton.mp hw
      exact List.mem_append_right _ List.mem_cons_self
    | nan => cases hnumber
  | var name => cases hvar
  | symbol name =>
    obtain rfl := List.mem_singleton.mp hw
    have hdefined := Program.mem_heads_of_symbol h ((Program.mem_fragments rfl h).mp hf)
    obtain ⟨head, hhead, rfl⟩ := List.mem_map.mp hdefined
    exact List.mem_append_right _ (List.mem_cons_of_mem _ (List.mem_map_of_mem hhead))

/-- The name of a variable in the C text is a word of the text's own only if it is the name of
infinity. -/
theorem Program.safeName_mem_ownWords (p : Program) (x : String) :
    safeName x ∈ p.ownWords ↔ x = "HUGE_VAL" := by
  have hkept : safeName "HUGE_VAL" = "HUGE_VAL" := by decide
  constructor
  · intro h
    rcases List.mem_append.mp h with hreserved | h
    · exact absurd hreserved (safeName_not_mem_reservedNames x)
    · rcases List.mem_cons.mp h with hname | hsymbol
      · exact safeName_injective (hname.trans hkept.symm)
      · obtain ⟨head, -, hhead⟩ := List.mem_map.mp hsymbol
        exact absurd hhead.symm (NameTable.safeName_ne_mangle (NameTable.isNumeric_counting _) x _)
  · rintro rfl
    rw [hkept]
    exact List.mem_append_right _ List.mem_cons_self

theorem exists_of_map_toOption {ε α β : Type} {r : Except ε α} {f : α → β} {b : β}
    (h : r.toOption.map f = some b) : ∃ a, r = .ok a ∧ f a = b := by
  cases r with
  | ok a => exact ⟨a, rfl, Option.some.inj h⟩
  | error e => cases h

/-- If a text compiles, its C text is the preamble and the fragments of its program, and the words
behind the preamble are those of the fragments. The variables among the fragments are those of the
program, each under its safe name. All other words are reserved words, names of the surrounding
text, the name of infinity and symbols of the program's functions, and the only variable that has
one of these for its name in the C text is the one called like infinity. -/
theorem compile_variables {source text : String} (h : compile source = .ok text) :
    ∃ p : Program, parse source = .ok p ∧
      text = preamble ++ textOf p.symbolOf p.fragments ∧
      wordsIn (textOf p.symbolOf p.fragments) = p.fragments.flatMap (Fragment.words p.symbolOf) ∧
      (∀ x, .var x ∈ p.fragments ↔ x ∈ p.varNames) ∧
      (∀ f ∈ p.fragments, f.asVar? = none → ∀ w ∈ f.words p.symbolOf, w ∈ p.ownWords) ∧
      ∀ x ∈ p.varNames, safeName x ∈ p.ownWords ↔ x = "HUGE_VAL" := by
  unfold compile at h
  split at h
  · cases h
  · rename_i p hparse
    split at h
    · cases h
    · rename_i text' htext
      obtain rfl := Except.ok.inj h
      have hlexical := parse_atoms_isLexical hparse
      have hfragments : ∀ f ∈ p.fragments, f.isLexical = true := by
        intro f hf
        by_cases hatom : f.isAtom = true
        · exact hlexical f ((Program.mem_fragments hatom htext).mp hf)
        · cases f with
          | gap text => rfl
          | word text => rfl
          | _ => exact absurd rfl hatom
      refine ⟨p, hparse, Program.toC_eq_textOf htext, ?_, ?_, ?_, ?_⟩
      · exact p.composed_fragments.wordsIn_textOf (fun _ => p.symbolOf_isCName) hfragments
      · exact fun x => (Program.mem_fragments rfl htext).trans Program.mem_varNames.symm
      · exact fun f hf hvar => Program.mem_ownWords htext hlexical hf hvar
      · exact fun x _ => p.safeName_mem_ownWords x

/-- A parameter called like a keyword, a local called like a symbol and one called like the entry
point all get names of their own. -/
theorem lookalikes_compile_variables :
    ∃ (p : Program) (text : String),
      compile "function g(int) local f1_g = int int + f1_g end local main = g(1)" = .ok text ∧
      p.varNames = ["int", "f1_g", "int", "int", "f1_g", "main"] ∧
      wordsIn (textOf p.symbolOf p.fragments) = p.fragments.flatMap (Fragment.words p.symbolOf) ∧
      ∀ x ∈ p.varNames, .var x ∈ p.fragments ∧ safeName x ∉ p.ownWords := by
  obtain ⟨text, htext, -⟩ := exists_of_map_toOption
    (r := compile "function g(int) local f1_g = int int + f1_g end local main = g(1)")
    (f := String.isEmpty) (b := false) (by decide +kernel)
  obtain ⟨p, hparse, -, hwords, hvars, -, hapart⟩ := compile_variables htext
  obtain ⟨_, hsame, hnames⟩ := exists_of_map_toOption
    (r := parse "function g(int) local f1_g = int int + f1_g end local main = g(1)")
    (f := Program.varNames) (b := ["int", "f1_g", "int", "int", "f1_g", "main"])
    (by decide +kernel)
  obtain rfl := Except.ok.inj (hparse.symm.trans hsame)
  refine ⟨p, text, htext, hnames, hwords, fun x hx => ⟨(hvars x).mpr hx, ?_⟩⟩
  rw [hapart x hx]
  rintro rfl
  exact absurd hx (by rw [hnames]; decide)

/-- A variable called like infinity keeps its name. -/
theorem hugeVal_mem_ownWords :
    ∃ p : Program, parse "local HUGE_VAL = 1\n" = .ok p ∧ "HUGE_VAL" ∈ p.varNames ∧
      safeName "HUGE_VAL" ∈ p.ownWords ∧
      (compile "local HUGE_VAL = 1\n").toOption = some (preamble ++
        "\n\nint main(void) \x7b\n    double HUGE_VAL = 1.0;\n    return 0;\n\x7d\n") := by
  obtain ⟨p, hparse, hnames⟩ := exists_of_map_toOption (r := parse "local HUGE_VAL = 1\n")
    (f := Program.varNames) (b := ["HUGE_VAL"]) (by decide +kernel)
  refine ⟨p, hparse, hnames ▸ List.mem_cons_self, ?_, by decide +kernel⟩
  exact (p.safeName_mem_ownWords _).mpr rfl

end NumScript
