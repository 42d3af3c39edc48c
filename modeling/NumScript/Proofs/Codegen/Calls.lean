import NumScript.Proofs.Codegen.Name
import NumScript.Proofs.Codegen.Scan
import NumScript.Proofs.Codegen.Written
import NumScript.Proofs.Number.ReadBack

/-!
# NumScript.Proofs.Codegen.Calls

The calls in the texts that code generation writes. If the names in the source are words, then in
every text that `Written` describes all brackets are closed, and every call is one of a routine of
the surrounding text or of a function that is defined, with the number of arguments on record
(`Written.wellCalled`).
-/

namespace NumScript

/-! ### Names and numbers -/

theorem isWord_append {t u : String} (ht : t.toList.all isWordChar = true) (hu : isWord u = true) :
    isWord (t ++ u) = true := by
  rw [isWord, Bool.and_eq_true] at hu ⊢
  rw [String.toList_append, List.all_append, ht, hu.2]
  exact ⟨by simp_all, rfl⟩

theorem safeName_isWord {x : String} (h : isWord x = true) : isWord (safeName x) = true := by
  unfold safeName
  split
  · exact isWord_append (by decide) h
  · exact h

theorem safeName_ne_void (x : String) : safeName x ≠ "void" := by
  intro h
  have hkeyword := safeName_not_mem_cKeywords x
  rw [h] at hkeyword
  exact hkeyword (by decide)

theorem mangle_isWord {suffix name : String} (hsuffix : suffix.toList.all isWordChar = true)
    (hname : isWord name = true) : isWord (NameTable.mangle suffix name) = true := by
  refine isWord_append ?_ hname
  simp only [String.toList_append, List.all_append, hsuffix]
  decide

theorem isPlain_of_isDigit {c : Char} (h : c.isDigit = true) : Scan.isPlain c = true := by
  simp only [Scan.isPlain, Bool.and_eq_true, bne_iff_ne]
  refine ⟨⟨⟨?_, ?_⟩, ?_⟩, ?_⟩
  all_goals
    rintro rfl
    exact absurd h (by decide)

theorem all_isPlain_of_digits {ds : List Char} (h : ds.all Char.isDigit = true) :
    ds.all Scan.isPlain = true :=
  List.all_eq_true.mpr fun c hc => isPlain_of_isDigit (List.all_eq_true.mp h c hc)

theorem DecimalParts.chars_isPlain (t : DecimalParts) : t.chars.all Scan.isPlain = true := by
  have hfraction : t.fractionChars.all Scan.isPlain = true := by
    unfold fractionChars
    cases h : t.fraction with
    | none => rfl
    | some ds =>
      have hds := all_isPlain_of_digits (t.fraction_digits ds h)
      exact hds
  have hexponent : t.exponentChars.all Scan.isPlain = true := by
    unfold exponentChars
    cases h : t.exponent with
    | none => rfl
    | some e =>
      obtain ⟨negative, ds⟩ := e
      have hds := all_isPlain_of_digits (t.exponent_digits _ h).1
      cases negative <;> exact hds
  rw [chars, List.all_append, List.all_append, all_isPlain_of_digits t.whole_digits, hfraction,
    hexponent]
  rfl

theorem DecimalParts.chars_any_isWordChar (t : DecimalParts) : t.chars.any isWordChar = true := by
  obtain ⟨c, cs, hwhole⟩ := List.exists_cons_of_ne_nil t.whole_ne_nil
  have hc : c.isDigit = true := List.all_eq_true.mp t.whole_digits c (by simp [hwhole])
  rw [chars, hwhole]
  simp [isWordChar, hc]

section

variable {defs : List Definition}

theorem Double.text_balanced (v : Double) : Balanced defs v.text := by
  unfold Double.text
  split
  · rename_i negative magnitude
    obtain ⟨t, hchars, -, -⟩ := magnitude.exists_parts .standard
    have hplain := t.chars_isPlain
    have hword := t.chars_any_isWordChar
    refine .plain ?_ ?_ <;> rw [String.toList_ofList, hchars]
    · rw [List.all_append, hplain]
      cases negative <;> decide
    · rw [List.any_append, hword, Bool.or_true]
  · split <;> exact .plain (by decide) (by decide)
  · exact .plain (by decide) (by decide)

theorem Double.literal_balanced (v : Double) : Balanced defs v.literal := by
  unfold Double.literal
  split
  · split
    · exact (Balanced.plain (by decide) (by decide) : Balanced defs "-HUGE_VAL").bracket
    · exact .plain (by decide) (by decide)
  · split
    · exact v.text_balanced.bracket
    · exact v.text_balanced

/-! ### Expressions -/

theorem Operator.apply_balanced (o : Operator) {left right : String}
    (hleft : Balanced defs left) (hright : Balanced defs right) :
    Balanced defs (o.apply left right) := by
  have hint : Balanced defs "int" := .word (by decide) (by decide)
  have hdouble : Balanced defs "double" := .word (by decide) (by decide)
  have hinfix : ∀ text : String, Scan.isGap (" " ++ text ++ " ") = true →
      Balanced defs ("(" ++ left ++ " " ++ text ++ " " ++ right ++ ")") := by
    intro text hgap
    exact (hleft.append hgap hright).bracket.of_toList (by simp)
  cases o with
  | pow =>
    have hargs : ∀ a ∈ [left, right], Balanced defs a := by simp [hleft, hright]
    have hfits : Fits defs ("pow", [left, right].length) := .inl (by decide : ("pow", 2) ∈ routines)
    exact (Balanced.call (by decide) hargs hfits).of_toList (by simp [apply])
  | div =>
    exact ((hdouble.cast hleft).append (by decide : Scan.isGap " / " = true)
      hright).bracket.of_toList (by simp [apply])
  | mod =>
    exact ((hint.cast hleft).append (by decide : Scan.isGap " % " = true)
      (hint.cast hright)).bracket.of_toList (by simp [apply])
  | _ => exact hinfix _ (by decide)

/-- In the text of an expression all calls fit. -/
theorem ExprText.balanced (hdefs : ∀ d ∈ defs, isWord d.symbol = true) {text : String}
    (h : ExprText defs (isWord · = true) text) : Balanced defs text := by
  induction h with
  | number v => exact v.literal_balanced
  | ident hx => exact .word (safeName_isWord hx) (safeName_ne_void _)
  | call hd harity _ ih => exact .call (hdefs _ hd) ih (.inr ⟨_, hd, rfl, harity⟩)
  | binary o _ _ ihl ihr => exact o.apply_balanced ihl ihr
  | pair _ _ ihl ihr =>
    exact (ihl.append (by decide : Scan.isGap "  " = true) ihr).bracket.of_toList (by simp)

/-! ### Lines -/

theorem Balanced.spaced {t u : String} (ht : Balanced defs t) (hu : Balanced defs u) :
    Balanced defs (t ++ " " ++ u) := ht.append (by decide) hu

theorem countHeader_balanced {var text : String} {texts : List String} (hvar : Balanced defs var)
    (htexts : ∀ t ∈ texts, Balanced defs t) (h : countHeader var texts = .ok text) :
    Balanced defs text := by
  have hfor : Balanced defs "for" := .word (by decide) (by decide)
  have hint : Balanced defs "int" := .word (by decide) (by decide)
  have hzero : Balanced defs "0" := .word (by decide) (by decide)
  have hloop : ∀ {inner : String}, Balanced defs inner →
      Balanced defs ("for" ++ " " ++ ("(" ++ inner ++ ")") ++ " \x7b") :=
    fun hinner => (hfor.spaced hinner.bracket).gap (by decide)
  have hsemicolon : Scan.isGap "; " = true := by decide
  have hassign : Scan.isGap " = " = true := by decide
  have hless : Scan.isGap " < " = true := by decide
  have hmore : Scan.isGap " > " = true := by decide
  have hthen : Scan.isGap " ? " = true := by decide
  have helse : Scan.isGap " : " = true := by decide
  match texts, h with
  | [stop], h =>
    cases h
    have hstop : Balanced defs stop := htexts stop (by simp)
    have hinit := (hint.spaced hvar).append hassign hzero
    have hinner := (hinit.append hsemicolon (hvar.append hless hstop)).append hsemicolon
      (hvar.gap (by decide : Scan.isGap "++" = true))
    exact (hloop hinner).of_toList (by simp)
  | [first, stop], h =>
    cases h
    have hfirst : Balanced defs first := htexts first (by simp)
    have hstop : Balanced defs stop := htexts stop (by simp)
    have hinit := (hint.spaced hvar).append hassign (hint.cast hfirst)
    have hdown := hfirst.append hmore hstop
    have htest := (hdown.append hthen (hvar.append hmore (hint.cast hstop))).append helse
      (hvar.append hless (hint.cast hstop))
    have hstep := (hdown.append hthen (hvar.gap (by decide : Scan.isGap "--" = true))).append helse
      (hvar.gap (by decide : Scan.isGap "++" = true))
    have hinner := (hinit.append hsemicolon htest).append hsemicolon hstep
    exact (hloop hinner).of_toList (by simp [countTest])
  | [first, stop, step], h =>
    cases h
    have hfirst : Balanced defs first := htexts first (by simp)
    have hstop : Balanced defs stop := htexts stop (by simp)
    have hby : Balanced defs step := htexts step (by simp)
    have hinit := (hint.spaced hvar).append hassign (hint.cast hfirst)
    have hdown := hfirst.append hmore hstop
    have htest := (hdown.append hthen (hvar.append hmore (hint.cast hstop))).append helse
      (hvar.append hless (hint.cast hstop))
    have hinner := (hinit.append hsemicolon htest).append hsemicolon
      (hvar.append (by decide : Scan.isGap " += " = true) (hint.cast hby))
    exact (hloop hinner).of_toList (by simp [countTest])

theorem LineForm.text_balanced {form : LineForm} {texts : List String} {text : String}
    (hnames : ∀ x ∈ form.names, isWord x = true) (htexts : ∀ t ∈ texts, Balanced defs t)
    (h : form.text texts = .ok text) : Balanced defs text := by
  have hname : ∀ x ∈ form.names, Balanced defs (safeName x) := fun x hx =>
    .word (safeName_isWord (hnames x hx)) (safeName_ne_void x)
  have hdouble : Balanced defs "double" := .word (by decide) (by decide)
  have hend : Scan.isGap ";" = true := by decide
  have hopen : Scan.isGap " \x7b" = true := by decide
  have hassign : Scan.isGap " = " = true := by decide
  unfold LineForm.text at h
  split at h
  all_goals try cases h
  · rename_i t
    have hargs : ∀ a ∈ [t], Balanced defs a := by simpa using htexts
    have hfits : Fits defs ("print_number", [t].length) :=
      .inl (by decide : ("print_number", 1) ∈ routines)
    have hcall := Balanced.call (by decide) hargs hfits
    exact (hcall.gap hend).of_toList (by simp)
  · rename_i t
    have hreturn : Balanced defs "return" := .word (by decide) (by decide)
    exact ((hreturn.spaced (htexts t (by simp))).gap hend).of_toList (by simp)
  · rename_i name t
    have hvar := hname name (by simp [LineForm.names])
    exact (((hdouble.spaced hvar).append hassign (htexts t (by simp))).gap hend).of_toList (by simp)
  · rename_i name t
    have hvar := hname name (by simp [LineForm.names])
    exact ((hvar.append hassign (htexts t (by simp))).gap hend).of_toList (by simp)
  · rename_i t
    have hif : Balanced defs "if" := .word (by decide) (by decide)
    exact ((hif.spaced (htexts t (by simp)).bracket).gap hopen).of_toList (by simp)
  · rename_i t
    have helse : Balanced defs "\x7d else if" := .plain (by decide) (by decide)
    exact ((helse.spaced (htexts t (by simp)).bracket).gap hopen).of_toList (by simp)
  · rename_i t
    have hwhile : Balanced defs "while" := .word (by decide) (by decide)
    exact ((hwhile.spaced (htexts t (by simp)).bracket).gap hopen).of_toList (by simp)
  · rename_i var
    exact countHeader_balanced (hname var (by simp [LineForm.names])) htexts h

theorem signature_balanced {symbol : String} {params : List String} (hsymbol : isWord symbol = true)
    (hparams : ∀ x ∈ params, isWord x = true) (hfits : Fits defs (symbol, params.length)) :
    Balanced defs (Build.signature symbol params) := by
  have hdouble : Balanced defs "double" := .word (by decide) (by decide)
  unfold Build.signature
  by_cases hne : params = []
  · subst hne
    exact (hdouble.spaced (Balanced.void hsymbol hfits)).of_toList (by simp)
  · have hargs : ∀ a ∈ params.map fun param => "double " ++ safeName param, Balanced defs a := by
      intro a ha
      obtain ⟨x, hx, rfl⟩ := List.mem_map.mp ha
      have hname : Balanced defs (safeName x) :=
        .word (safeName_isWord (hparams x hx)) (safeName_ne_void x)
      exact (hdouble.spaced hname).of_toList (by simp)
    have hcall := Balanced.call hsymbol hargs (by simpa using hfits)
    refine (hdouble.spaced hcall).of_toList ?_
    simp [hne]

/-- A text outside brackets in which all brackets are closed and all calls fit. -/
def WellCalled (defs : List Definition) (text : String) : Prop :=
  ∀ s : Scan, s.word = [] → s.frames = [] → ∃ w new, s.read text = ⟨w, [], s.calls ++ new⟩ ∧
    ∀ c ∈ new, Fits defs c

theorem Balanced.wellCalled {text : String} (h : Balanced defs text) : WellCalled defs text := by
  intro s hs hframes
  obtain ⟨w, new, hread, -, hfits⟩ := h s hs
  rw [hframes] at hread
  exact ⟨w, new, hread, hfits⟩

theorem LineText.wellCalled (hdefs : ∀ d ∈ defs, isWord d.symbol = true) {text : String}
    (h : LineText defs (isWord · = true) text) : WellCalled defs text := by
  cases h with
  | statement hnames htexts htext =>
    exact (LineForm.text_balanced hnames (fun t ht => (htexts t ht).balanced hdefs)
      htext).wellCalled
  | closing l =>
    intro s hs hframes
    cases l with
    | close =>
      refine ⟨[], [], ?_, by simp⟩
      rw [Closing.text, Scan.read_gap s (by decide), hframes, List.append_nil]
    | orElse =>
      have h : Balanced defs "\x7d else \x7b" := .plain (by decide) (by decide)
      exact h.wellCalled s hs hframes
  | returnsZero =>
    exact (Balanced.plain (by decide) (by decide) : Balanced defs "return 0;").wellCalled
  | main =>
    have hint : Balanced defs "int" := .word (by decide) (by decide)
    have hmain : Balanced defs ("main" ++ "(void)") := .void (by decide) (.inl (by decide))
    exact ((hint.spaced hmain).gap (by decide : Scan.isGap " \x7b" = true)).wellCalled
  | header hd harity hparams =>
    exact ((signature_balanced (hdefs _ hd) hparams (.inr ⟨_, hd, rfl, harity⟩)).gap
      (by decide)).wellCalled
  | prototype hd harity hparams =>
    exact ((signature_balanced (hdefs _ hd) hparams (.inr ⟨_, hd, rfl, harity⟩)).gap
      (by decide)).wellCalled

end

/-! ### Whole texts -/

namespace WellCalled

variable {defs : List Definition}

theorem nil : WellCalled defs "" := by
  intro s hs hframes
  refine ⟨[], [], ?_, by simp⟩
  obtain ⟨word, frames, calls⟩ := s
  cases hs
  cases hframes
  simp [Scan.read]

theorem append {t u gap : String} (ht : WellCalled defs t) (hgap : Scan.isGap gap = true)
    (hu : WellCalled defs u) : WellCalled defs (t ++ gap ++ u) := by
  intro s hs hframes
  obtain ⟨w, new, hread, hfits⟩ := ht s hs hframes
  obtain ⟨w', new', hread', hfits'⟩ := hu ⟨[], [], s.calls ++ new⟩ rfl rfl
  refine ⟨w', new ++ new', ?_, List.forall_mem_append.mpr ⟨hfits, hfits'⟩⟩
  rw [Scan.read_append, Scan.read_append, hread, Scan.read_gap _ hgap, hread', List.append_assoc]

theorem intercalate {gap : String} (hgap : Scan.isGap gap = true) {texts : List String}
    (h : ∀ t ∈ texts, WellCalled defs t) : WellCalled defs (gap.intercalate texts) := by
  induction texts with
  | nil => exact nil
  | cons t texts ih =>
    match texts with
    | [] =>
      rw [String.intercalate_singleton]
      exact h t List.mem_cons_self
    | u :: texts =>
      rw [String.intercalate_cons_cons]
      exact (h t List.mem_cons_self).append hgap (ih fun t ht => h t (List.mem_cons_of_mem _ ht))

/-- What is found in a text does not depend on what was found before. -/
theorem of_start {text : String} (hframes : isBracketed text = true)
    (hfits : ∀ c ∈ callsIn text, Fits defs c) : WellCalled defs text := by
  intro s hs hnone
  have hstart : s = Scan.start.behind s.calls := by
    obtain ⟨word, frames, calls⟩ := s
    cases hs
    cases hnone
    simp [Scan.behind, Scan.start]
  refine ⟨(Scan.start.read text).word, callsIn text, ?_, hfits⟩
  conv => lhs; rw [hstart]
  rw [Scan.read_behind, Scan.behind, List.isEmpty_iff.mp hframes]
  rfl

theorem isBracketed {text : String} (h : WellCalled defs text) : isBracketed text = true := by
  obtain ⟨w, new, hread, -⟩ := h Scan.start rfl rfl
  rw [NumScript.isBracketed, hread]
  rfl

theorem fits {text : String} (h : WellCalled defs text) : ∀ c ∈ callsIn text, Fits defs c := by
  obtain ⟨w, new, hread, hfits⟩ := h Scan.start rfl rfl
  rw [callsIn, hread]
  exact hfits

end WellCalled

theorem indentation_append_wellCalled {defs : List Definition} {text : String}
    (h : WellCalled defs text) (level : Nat) : WellCalled defs (indentation level ++ text) := by
  by_cases hlevel : level = 0
  · have hline : indentation 0 ++ text = text := by simp [indentation]
    rw [hlevel, hline]
    exact h
  · have hgap : Scan.isGap (indentation level) = true := by
      have hblank : Scan.isBreak ' ' = true := by decide
      simp [Scan.isGap, indentation, hblank]
      omega
    have hempty : "" ++ indentation level ++ text = indentation level ++ text :=
      String.toList_inj.mp (by simp)
    exact hempty ▸ WellCalled.nil.append hgap h

theorem preamble_wellCalled (defs : List Definition) : WellCalled defs preamble := by
  have hread : Scan.start.read preamble =
      ⟨[], [], [("print_number", 1), ("printf", 2), ("printf", 2)]⟩ := by
    rw [Scan.read, preamble, String.toList_intercalate]
    decide +kernel
  have hsub : callsIn preamble ⊆ routines := by
    rw [callsIn, hread]
    decide
  refine .of_start ?_ fun c hc => .inl (hsub hc)
  rw [isBracketed, hread]
  rfl

/-- In every text that is written all brackets are closed and all calls fit. -/
theorem Written.wellCalled {defs : List Definition} (hdefs : ∀ d ∈ defs, isWord d.symbol = true)
    {text : String} (h : Written defs (isWord · = true) text) : WellCalled defs text := by
  induction h with
  | expr h => exact (h.balanced hdefs).wellCalled
  | line level h => exact indentation_append_wellCalled (h.wellCalled hdefs) level
  | preamble => exact preamble_wellCalled defs
  | lines _ ih => exact .intercalate (by decide) ih
  | file _ ih =>
    have hlines := WellCalled.intercalate (by decide : Scan.isGap "\n\n" = true) ih
    have hend := hlines.append (by decide : Scan.isGap "\n" = true) WellCalled.nil
    rw [String.append_empty] at hend
    exact hend

end NumScript
