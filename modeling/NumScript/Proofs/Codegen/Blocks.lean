import NumScript.Proofs.Codegen.Identifiers

/-!
# NumScript.Proofs.Codegen.Blocks

The lines of statements, and their blocks. Lines are read from top to bottom with a depth: a line
that starts with a closing brace ends a block, one that ends with an opening brace begins one
(`lineDepths`). The lines that a statement writes are listed from the statement alone
(`Stmt.linesAt`), without a builder and its level of indentation.

Reading the lines of statements at the depth that they are written for leads back to that depth,
never above it, and each line is indented by its depth (`linesAllAt_nests`). In between, what
follows the first body of a choice is read one level deeper than it ends (`elseLinesAt_nests`).
-/

namespace NumScript

/-! ### Reading lines -/

/-- The number of blanks in front of a line. -/
def leadingBlanks (line : String) : Nat := (line.toList.takeWhile (· == ' ')).length

/-- A line without the blanks in front of it. -/
def lineText (line : String) : List Char := line.toList.dropWhile (· == ' ')

/-- Whether a line ends a block. -/
def endsBlock (line : String) : Bool := (lineText line).head? == some '\x7d'

/-- Whether a line begins a block. -/
def beginsBlock (line : String) : Bool := (lineText line).getLast? == some '\x7b'

/-- The depth of a line behind the depth `d`. -/
def depthOf (d : Int) (line : String) : Int := if endsBlock line then d - 1 else d

/-- The depth behind a line behind the depth `d`. -/
def depthBehind (d : Int) (line : String) : Int :=
  if beginsBlock line then depthOf d line + 1 else depthOf d line

/-- The lines with their depths, from the depth `d` on. -/
def lineDepths (d : Int) : List String → List (String × Int)
  | [] => []
  | line :: lines => (line, depthOf d line) :: lineDepths (depthBehind d line) lines

/-- The depth behind all lines, from the depth `d` on. -/
def finalDepth (d : Int) (lines : List String) : Int := lines.foldl depthBehind d

/-- The line has four blanks for each level of its depth in front of some text. -/
def IsIndented (entry : String × Int) : Prop :=
  (leadingBlanks entry.1 : Int) = 4 * entry.2 ∧ lineText entry.1 ≠ []

/-- From the depth `d` on, the lines lead to the depth `d'`, are all at the depth `low` or deeper
and are indented by their depths. None of them has a line break in it. -/
structure Nests (low d : Int) (lines : List String) (d' : Int) : Prop where
  flat : ∀ line ∈ lines, '\n' ∉ line.toList
  indented : ∀ entry ∈ lineDepths d lines, IsIndented entry
  deep : ∀ entry ∈ lineDepths d lines, low ≤ entry.2
  final : finalDepth d lines = d'

theorem lineDepths_append (d : Int) (lines more : List String) :
    lineDepths d (lines ++ more) = lineDepths d lines ++ lineDepths (finalDepth d lines) more := by
  induction lines generalizing d with
  | nil => rfl
  | cons line lines ih =>
    rw [List.cons_append, lineDepths, lineDepths, ih, List.cons_append]
    rfl

theorem finalDepth_append (d : Int) (lines more : List String) :
    finalDepth d (lines ++ more) = finalDepth (finalDepth d lines) more := List.foldl_append

namespace Nests

variable {low low' d d' d'' : Int} {lines more : List String}

theorem nil : Nests low d [] d :=
  ⟨List.forall_mem_nil _, List.forall_mem_nil _, List.forall_mem_nil _, rfl⟩

theorem append (h : Nests low d lines d') (h' : Nests low d' more d'') :
    Nests low d (lines ++ more) d'' := by
  refine ⟨List.forall_mem_append.mpr ⟨h.flat, h'.flat⟩, ?_, ?_, ?_⟩
  · rw [lineDepths_append, h.final, List.forall_mem_append]
    exact ⟨h.indented, h'.indented⟩
  · rw [lineDepths_append, h.final, List.forall_mem_append]
    exact ⟨h.deep, h'.deep⟩
  · rw [finalDepth_append, h.final, h'.final]

theorem cons {line : String} (h : Nests low d [line] d') (h' : Nests low d' lines d'') :
    Nests low d (line :: lines) d'' := h.append h'

theorem weaken (h : Nests low d lines d') (hlow : low' ≤ low) : Nests low' d lines d' :=
  ⟨h.flat, h.indented, fun entry hentry => Int.le_trans hlow (h.deep entry hentry), h.final⟩

end Nests

/-! ### Single lines -/

/-- The text is one line that starts with the one character and ends with the other. -/
structure Spans (text : String) (first last : Char) : Prop where
  head : text.toList.head? = some first
  tail : text.toList.getLast? = some last
  flat : '\n' ∉ text.toList

theorem head?_append_of_eq {a : String} {c : Char} (h : a.toList.head? = some c) (b : String) :
    (a ++ b).toList.head? = some c := by
  rw [String.toList_append, List.head?_append, h]
  rfl

theorem getLast?_append_of_eq (a : String) {b : String} {c : Char}
    (h : b.toList.getLast? = some c) : (a ++ b).toList.getLast? = some c := by
  rw [String.toList_append, List.getLast?_append, h]
  rfl

/-- One text behind another. -/
theorem Spans.append {a b : String} {first last c c' : Char} (ha : Spans a first c)
    (hb : Spans b c' last) : Spans (a ++ b) first last := by
  refine ⟨head?_append_of_eq ha.head b, getLast?_append_of_eq a hb.tail, ?_⟩
  rw [String.toList_append, List.mem_append, not_or]
  exact ⟨ha.flat, hb.flat⟩

/-- Two texts around a third one. -/
theorem Spans.around {a b : String} {first last c c' : Char} (ha : Spans a first c)
    (hb : Spans b c' last) {text : String} (htext : '\n' ∉ text.toList) :
    Spans (a ++ text ++ b) first last := by
  refine ⟨head?_append_of_eq (head?_append_of_eq ha.head text) b, getLast?_append_of_eq _ hb.tail,
    ?_⟩
  rw [String.toList_append, String.toList_append, List.mem_append, List.mem_append, not_or, not_or]
  exact ⟨⟨ha.flat, htext⟩, hb.flat⟩

section Line

variable {text : String} {first last : Char}

/-- The blanks in front of a line are those of its level. -/
theorem blanks_of_line (h : text.toList.head? = some first) (hblank : first ≠ ' ') (n : Nat) :
    leadingBlanks (indentation n ++ text) = 4 * n ∧
      lineText (indentation n ++ text) = text.toList := by
  have hchars : (indentation n ++ text).toList = List.replicate (4 * n) ' ' ++ text.toList := by
    rw [indentation, String.toList_append, String.toList_ofList]
  have hall : (List.replicate (4 * n) ' ').all (· == ' ') = true := by simp
  have hstop : ∀ c ∈ text.toList.head?, (c == ' ') = false := by
    intro c hc
    rw [h] at hc
    exact Option.some.inj hc ▸ beq_eq_false_iff_ne.mpr hblank
  rw [leadingBlanks, lineText, hchars, takeWhile_append_stop hall hstop,
    dropWhile_append_stop hall hstop, List.length_replicate]
  exact ⟨rfl, rfl⟩

/-- What a line does to the depth depends on the characters that its text starts and ends with. -/
theorem depth_of_line (h : Spans text first last) (hblank : first ≠ ' ') (n : Nat) {d d' : Int}
    (hdepth : (if first = '\x7d' then d - 1 else d) = d') :
    depthOf d (indentation n ++ text) = d' ∧
      depthBehind d (indentation n ++ text) = if last = '\x7b' then d' + 1 else d' := by
  obtain ⟨-, htext⟩ := blanks_of_line h.head hblank n
  have hdepth' : depthOf d (indentation n ++ text) = d' := by
    rw [← hdepth, depthOf, endsBlock, htext, h.head]
    simp
  refine ⟨hdepth', ?_⟩
  rw [depthBehind, hdepth', beginsBlock, htext, h.tail]
  simp

theorem Nests.line (h : Spans text first last) (hblank : first ≠ ' ') {n : Nat} {d : Int}
    (hdepth : (if first = '\x7d' then d - 1 else d) = n) :
    Nests n d [indentation n ++ text] (if last = '\x7b' then (n : Int) + 1 else n) := by
  obtain ⟨hblanks, htext⟩ := blanks_of_line h.head hblank n
  obtain ⟨hhere, hbehind⟩ := depth_of_line h hblank n hdepth
  have hentries : lineDepths d [indentation n ++ text] = [(indentation n ++ text, (n : Int))] := by
    rw [lineDepths, lineDepths, hhere]
  refine ⟨?_, ?_, ?_, hbehind⟩
  · intro line hline
    obtain rfl := List.mem_singleton.mp hline
    have hblanks' : '\n' ∉ (indentation n).toList := by
      simp [indentation]
    rw [String.toList_append, List.mem_append, not_or]
    exact ⟨hblanks', h.flat⟩
  · rw [hentries, List.forall_mem_singleton]
    refine ⟨by rw [hblanks]; simp, fun hnil => ?_⟩
    have hhead := h.head
    rw [← htext, hnil] at hhead
    cases hhead
  · intro entry hentry
    obtain rfl := List.mem_singleton.mp (hentries ▸ hentry)
    exact Int.le_refl _

/-- A line within a block. -/
theorem Nests.within (h : Spans text first ';') (hblank : first ≠ ' ') (hclose : first ≠ '\x7d')
    (n : Nat) : Nests n n [indentation n ++ text] n :=
  .line h hblank (if_neg hclose)

/-- A line that begins a block. -/
theorem Nests.opening (h : Spans text first '\x7b') (hblank : first ≠ ' ')
    (hclose : first ≠ '\x7d') (n : Nat) :
    Nests n n [indentation n ++ text] (n + 1) :=
  .line h hblank (if_neg hclose)

/-- A line that ends a block and begins another. -/
theorem Nests.turning (h : Spans text '\x7d' '\x7b') (n : Nat) :
    Nests n (n + 1) [indentation n ++ text] (n + 1) :=
  .line h (by decide) (by simp)

/-- A line that ends a block. -/
theorem Nests.closing (n : Nat) : Nests n (n + 1) [indentation n ++ "\x7d"] n := by
  have hspans : Spans "\x7d" '\x7d' '\x7d' := ⟨rfl, rfl, by decide⟩
  exact .line hspans (by decide) (by simp)

/-- A body one level deeper, between the line that begins it and what ends it. -/
theorem Nests.block {n : Nat} {d : Int} {line : String} {body rest : List String}
    (hline : Nests n d [line] (n + 1))
    (hbody : Nests (n + 1 : Nat) (n + 1 : Nat) body (n + 1 : Nat))
    (hrest : Nests n (n + 1) rest n) : Nests n d (line :: (body ++ rest)) n :=
  .cons hline ((hbody.weaken (by omega)).append hrest)

end Line

/-! ### The lines of statements -/

section Lines

variable (exprText : Expr → String)

/-- The first line of a counting loop. -/
def countLine (var : String) (bounds : List Expr) : String :=
  (countHeader (safeName var) (bounds.map exprText)).toOption.getD ""

mutual

/-- The lines of a statement at a level of indentation, the texts of expressions being given.
`returns` marks the last one of a function. -/
def Stmt.linesAt (level : Nat) (returns : Bool) : Stmt → List String
  | .expr _ value =>
    [indentation level ++ if returns then "return " ++ exprText value ++ ";"
      else "print_number(" ++ exprText value ++ ");"]
  | .declare _ name value =>
    [indentation level ++ ("double " ++ safeName name ++ " = " ++ exprText value ++ ";")]
  | .assign _ name value => [indentation level ++ (safeName name ++ " = " ++ exprText value ++ ";")]
  | .branch _ cond body rest =>
    (indentation level ++ ("if (" ++ exprText cond ++ ") \x7b")) ::
      (linesAllAt (level + 1) false body ++ elseLinesAt level rest)
  | .loop _ cond body =>
    (indentation level ++ ("while (" ++ exprText cond ++ ") \x7b")) ::
      (linesAllAt (level + 1) false body ++ [indentation level ++ "\x7d"])
  | .count _ var bounds body =>
    (indentation level ++ countLine exprText var bounds) ::
      (linesAllAt (level + 1) false body ++ [indentation level ++ "\x7d"])
  | .define _ _ _ _ => []
  | .hole _ => []

/-- The lines of statements in order. `returns` says whether they are the body of a function. -/
def linesAllAt (level : Nat) (returns : Bool) : List Stmt → List String
  | [] => []
  | s :: ss => s.linesAt level (returns && ss.isEmpty) ++ linesAllAt level returns ss

/-- The lines of what follows the first body of a choice. A choice alone continues the first one. -/
def elseLinesAt (level : Nat) : Option (List Stmt) → List String
  | none => [indentation level ++ "\x7d"]
  | some [.branch _ cond body rest] =>
    (indentation level ++ ("\x7d else if (" ++ exprText cond ++ ") \x7b")) ::
      (linesAllAt (level + 1) false body ++ elseLinesAt level rest)
  | some body =>
    (indentation level ++ "\x7d else \x7b") ::
      (linesAllAt (level + 1) false body ++ [indentation level ++ "\x7d"])

end

end Lines

/-! ### Statements that were read -/

/-- Statements as they are read from a text: without holes, and with names and numbers that can be
read. -/
structure IsRead (ss : List Stmt) : Prop where
  complete : completeStmts ss = true
  lexical : ∀ f ∈ Program.atoms ss, f.isLexical = true

theorem completeStmts_append (ss ss' : List Stmt) :
    completeStmts (ss ++ ss') = (completeStmts ss && completeStmts ss') := by
  induction ss with
  | nil => rfl
  | cons s ss ih => rw [List.cons_append, completeStmts, completeStmts, ih, Bool.and_assoc]

theorem isRead_append {ss ss' : List Stmt} : IsRead (ss ++ ss') ↔ IsRead ss ∧ IsRead ss' := by
  constructor
  · intro ⟨hcomplete, hlexical⟩
    rw [completeStmts_append, Bool.and_eq_true] at hcomplete
    rw [Program.atoms_append, List.forall_mem_append] at hlexical
    exact ⟨⟨hcomplete.1, hlexical.1⟩, hcomplete.2, hlexical.2⟩
  · intro ⟨hss, hss'⟩
    refine ⟨?_, ?_⟩
    · rw [completeStmts_append, hss.complete, hss'.complete]
      rfl
    · rw [Program.atoms_append, List.forall_mem_append]
      exact ⟨hss.lexical, hss'.lexical⟩

theorem isRead_cons {s : Stmt} {ss : List Stmt} : IsRead (s :: ss) ↔ IsRead [s] ∧ IsRead ss := by
  rw [← isRead_append]
  rfl

theorem Stmt.completeStmts_inner {s : Stmt} (h : s.isComplete = true) :
    completeStmts s.inner = true := by
  cases s with
  | branch p cond body rest =>
    rw [isComplete, Bool.and_eq_true, Bool.and_eq_true] at h
    rw [inner, completeStmts_append, h.1.2]
    cases rest with
    | none => rfl
    | some body => exact h.2
  | count p var bounds body =>
    rw [isComplete, Bool.and_eq_true] at h
    exact h.2
  | loop p cond body =>
    rw [isComplete, Bool.and_eq_true] at h
    exact h.2
  | define p name params body => exact h
  | _ => rfl

namespace IsRead

variable {s : Stmt}

theorem isComplete (h : IsRead [s]) : s.isComplete = true := by
  have hcomplete := h.complete
  rwa [completeStmts, completeStmts, Bool.and_true] at hcomplete

/-- The statements in a statement that was read were read. -/
theorem inner (h : IsRead [s]) : IsRead s.inner := by
  have hlexical := h.lexical
  rw [Program.atoms_cons, Stmt.atoms_eq, List.forall_mem_append, List.forall_mem_append] at hlexical
  exact ⟨Stmt.completeStmts_inner h.isComplete, hlexical.1.2⟩

theorem ownAtoms (h : IsRead [s]) : ∀ f ∈ s.ownAtoms, f.isLexical = true := by
  have hlexical := h.lexical
  rw [Program.atoms_cons, Stmt.atoms_eq, List.forall_mem_append, List.forall_mem_append] at hlexical
  exact hlexical.1.1

end IsRead

/-! ### Statements nest -/

theorem newline_not_mem_of_isCName {name : String} (h : isCName name = true) :
    '\n' ∉ name.toList :=
  fun hmem => absurd (List.all_eq_true.mp (isCName.all_isWordChar h) _ hmem) (by decide)

/-- A variable is written on one line, which starts with no blank and no brace. -/
theorem exists_spans_safeName {name : String} (h : isIdentifier name = true) :
    ∃ first last, Spans (safeName name) first last ∧ first ≠ ' ' ∧ first ≠ '\x7d' := by
  have hname := safeName_isCName (isCName_of_isIdentifier h)
  obtain ⟨c, cs, hchars, hstart, -⟩ := exists_of_isCName hname
  refine ⟨c, (c :: cs).getLast (List.cons_ne_nil c cs), ⟨?_, ?_, newline_not_mem_of_isCName hname⟩,
    ?_, ?_⟩
  · rw [hchars, List.head?_cons]
  · rw [hchars, List.getLast?_eq_some_getLast]
  · rintro rfl
    cases hstart
  · rintro rfl
    cases hstart

section Nesting

variable {exprText : Expr → String}

theorem countHeader_spans {var text : String} {bounds : List String} (hvar : '\n' ∉ var.toList)
    (hbounds : ∀ bound ∈ bounds, '\n' ∉ bound.toList) (h : countHeader var bounds = .ok text) :
    Spans text 'f' '\x7b' := by
  rcases bounds with _ | ⟨a, _ | ⟨b, _ | ⟨c, _ | ⟨e, bounds⟩⟩⟩⟩
  · cases h
  · cases h
    have ha := hbounds a (by simp)
    exact ⟨head?_append_of_eq (by simp) _, getLast?_append_of_eq _ rfl, by simp [hvar, ha]⟩
  · cases h
    have ha := hbounds a (by simp)
    have hb := hbounds b (by simp)
    exact ⟨head?_append_of_eq (by simp) _, getLast?_append_of_eq _ rfl,
      by simp [countTest, hvar, ha, hb]⟩
  · cases h
    have ha := hbounds a (by simp)
    have hb := hbounds b (by simp)
    have hc := hbounds c (by simp)
    exact ⟨head?_append_of_eq (by simp) _, getLast?_append_of_eq _ rfl,
      by simp [countTest, hvar, ha, hb, hc]⟩
  · cases h

/-- The first line of a counting loop with one, two or three bounds begins a block. -/
theorem countLine_spans {var : String} {bounds : List Expr} (hvar : '\n' ∉ (safeName var).toList)
    (hbounds : ∀ e ∈ bounds, '\n' ∉ (exprText e).toList) (hone : 1 ≤ bounds.length)
    (hthree : bounds.length ≤ 3) : Spans (countLine exprText var bounds) 'f' '\x7b' := by
  have htakes : (LineForm.count var).takes (bounds.map exprText).length = true := by
    rw [List.length_map, LineForm.takes, decide_eq_true hone, decide_eq_true hthree]
    rfl
  obtain ⟨text, htext⟩ := LineForm.exists_text htakes
  have hheader : countHeader (safeName var) (bounds.map exprText) = .ok text := htext
  rw [countLine, hheader]
  exact countHeader_spans hvar (List.forall_mem_map.mpr hbounds) hheader

theorem atoms_subset_atomsOf {e : Expr} {es : List Expr} (he : e ∈ es) : e.atoms ⊆ atomsOf es := by
  induction es with
  | nil => cases he
  | cons e' es ih =>
    rw [atomsOf]
    rcases List.mem_cons.mp he with rfl | he
    · exact List.subset_append_left _ _
    · exact List.Subset.trans (ih he) (List.subset_append_right _ _)

/-- Expressions that can be read are written without a line break. -/
def IsFlat (exprText : Expr → String) : Prop :=
  ∀ e : Expr, (∀ f ∈ e.atoms, f.isLexical = true) → '\n' ∉ (exprText e).toList

mutual

theorem Stmt.linesAt_nests (hflat : IsFlat exprText) (level : Nat) (returns : Bool) :
    ∀ s : Stmt, IsRead [s] → Nests level level (s.linesAt exprText level returns) level
  | .expr _ value, h => by
    have hvalue := hflat value h.ownAtoms
    rw [Stmt.linesAt]
    cases returns with
    | true =>
      have hspans : Spans ("return " ++ exprText value ++ ";") 'r' ';' :=
        .around ⟨rfl, rfl, by decide⟩ ⟨rfl, rfl, by decide⟩ hvalue
      exact .within hspans (by decide) (by decide) level
    | false =>
      have hspans : Spans ("print_number(" ++ exprText value ++ ");") 'p' ';' :=
        .around ⟨rfl, rfl, by decide⟩ ⟨rfl, rfl, by decide⟩ hvalue
      exact .within hspans (by decide) (by decide) level
  | .declare _ name value, h => by
    have hown := List.forall_mem_cons.mp h.ownAtoms
    obtain ⟨first, last, hname, -, -⟩ := exists_spans_safeName hown.1
    have hspans : Spans ("double " ++ safeName name ++ " = " ++ exprText value ++ ";") 'd' ';' :=
      .around (.around ⟨rfl, rfl, by decide⟩ ⟨rfl, rfl, by decide⟩ hname.flat)
        ⟨rfl, rfl, by decide⟩ (hflat value hown.2)
    rw [Stmt.linesAt]
    exact .within hspans (by decide) (by decide) level
  | .assign p name value, h => by
    have hown := List.forall_mem_cons.mp h.ownAtoms
    obtain ⟨first, last, hname, hblank, hclose⟩ := exists_spans_safeName hown.1
    have hspans : Spans (safeName name ++ " = " ++ exprText value ++ ";") first ';' :=
      .around (hname.append ⟨rfl, rfl, by decide⟩) ⟨rfl, rfl, by decide⟩ (hflat value hown.2)
    rw [Stmt.linesAt]
    exact .within hspans hblank hclose level
  | .branch _ cond body rest, h => by
    obtain ⟨hbody, hrest⟩ := isRead_append.mp h.inner
    have hspans : Spans ("if (" ++ exprText cond ++ ") \x7b") 'i' '\x7b' :=
      .around ⟨rfl, rfl, by decide⟩ ⟨rfl, rfl, by decide⟩ (hflat cond h.ownAtoms)
    rw [Stmt.linesAt]
    exact .block (.opening hspans (by decide) (by decide) level)
      (linesAllAt_nests hflat (level + 1) false body hbody)
      (elseLinesAt_nests hflat level rest hrest)
  | .count p var bounds body, h => by
    have hcomplete := h.isComplete
    simp only [Stmt.isComplete, Bool.and_eq_true, decide_eq_true_eq] at hcomplete
    have hown := List.forall_mem_cons.mp h.ownAtoms
    obtain ⟨first, last, hvar, -, -⟩ := exists_spans_safeName hown.1
    have hbounds : ∀ e ∈ bounds, '\n' ∉ (exprText e).toList :=
      fun e he => hflat e fun f hf => hown.2 f (atoms_subset_atomsOf he hf)
    rw [Stmt.linesAt]
    exact .block
      (.opening (countLine_spans hvar.flat hbounds hcomplete.1.1.2 hcomplete.1.2) (by decide)
        (by decide) level)
      (linesAllAt_nests hflat (level + 1) false body h.inner) (.closing level)
  | .loop _ cond body, h => by
    have hspans : Spans ("while (" ++ exprText cond ++ ") \x7b") 'w' '\x7b' :=
      .around ⟨rfl, rfl, by decide⟩ ⟨rfl, rfl, by decide⟩ (hflat cond h.ownAtoms)
    rw [Stmt.linesAt]
    exact .block (.opening hspans (by decide) (by decide) level)
      (linesAllAt_nests hflat (level + 1) false body h.inner) (.closing level)
  | .define _ _ _ _, _ => .nil
  | .hole _, _ => .nil
termination_by s => sizeOf s

/-- Statements are read at the depth of their level, and lead back to it. -/
theorem linesAllAt_nests (hflat : IsFlat exprText) (level : Nat) (returns : Bool) :
    ∀ ss : List Stmt, IsRead ss → Nests level level (linesAllAt exprText level returns ss) level
  | [], _ => .nil
  | s :: ss, h => by
    obtain ⟨hs, hss⟩ := isRead_cons.mp h
    exact (s.linesAt_nests hflat level _ hs).append (linesAllAt_nests hflat level returns ss hss)
termination_by ss => sizeOf ss

/-- What follows the first body of a choice ends it, so it is read one level deeper. -/
theorem elseLinesAt_nests (hflat : IsFlat exprText) (level : Nat) :
    ∀ o : Option (List Stmt), IsRead (o.getD []) →
      Nests level (level + 1) (elseLinesAt exprText level o) level
  | o, h => by
    rw [elseLinesAt.eq_def]
    split
    · exact .closing level
    · -- the chain goes on
      rename_i p cond body rest
      have hchoice : IsRead [.branch p cond body rest] := h
      obtain ⟨hbody, hrest⟩ := isRead_append.mp hchoice.inner
      have hspans : Spans ("\x7d else if (" ++ exprText cond ++ ") \x7b") '\x7d' '\x7b' :=
        .around ⟨rfl, rfl, by decide⟩ ⟨rfl, rfl, by decide⟩ (hflat cond hchoice.ownAtoms)
      exact .block (.turning hspans level)
        (linesAllAt_nests hflat (level + 1) false body hbody)
        (elseLinesAt_nests hflat level rest hrest)
    · rename_i body _
      exact .block (.turning ⟨rfl, rfl, by decide⟩ level)
        (linesAllAt_nests hflat (level + 1) false body h) (.closing level)
termination_by o => sizeOf o

end

end Nesting

/-! ### Units -/

/-- The lines form one block: read from the depth zero on, they lead back to it, are indented by
their depths, and all but the first and the last one of them are inside. None of them has a line
break in it. -/
structure SingleBlock (lines : List String) : Prop where
  flat : ∀ line ∈ lines, '\n' ∉ line.toList
  indented : ∀ entry ∈ lineDepths 0 lines, IsIndented entry
  inside : ∃ first inner last, lineDepths 0 lines = (first, 0) :: (inner ++ [(last, 0)]) ∧
    ∀ entry ∈ inner, 0 < entry.2
  final : finalDepth 0 lines = 0

/-- The lines of a unit. `returnsZero` adds one that returns zero behind those of the body. -/
def unitLines (header : String) (body : List String) (returnsZero : Bool) : List String :=
  header :: (body ++ (if returnsZero then [indentation 1 ++ "return 0;"] else []) ++ ["\x7d"])

/-- A unit is one block if its body nests. -/
theorem singleBlock_unitLines {header : String} {first : Char} {body : List String}
    (hheader : Spans header first '\x7b') (hblank : first ≠ ' ') (hclose : first ≠ '\x7d')
    (hbody : Nests 1 1 body 1) (returnsZero : Bool) :
    SingleBlock (unitLines header body returnsZero) := by
  have hzero : Nests 1 1 (if returnsZero then [indentation 1 ++ "return 0;"] else []) 1 := by
    have hspans : Spans "return 0;" 'r' ';' := ⟨rfl, rfl, by decide⟩
    cases returnsZero with
    | true => exact .within hspans (by decide) (by decide) 1
    | false => exact .nil
  have hinner := hbody.append hzero
  have hlevel : ∀ text : String, indentation 0 ++ text = text := by
    intro text
    simp [indentation]
  have hopen : Nests 0 0 [header] 1 := by
    have hline := Nests.opening hheader hblank hclose 0
    rwa [hlevel] at hline
  have hend : Nests 0 1 ["\x7d"] 0 := by
    have hline := Nests.closing 0
    rwa [hlevel] at hline
  have hall := hopen.cons ((hinner.weaken (by decide)).append hend)
  refine ⟨hall.flat, hall.indented, ⟨header, _, "\x7d", ?_, hinner.deep⟩, hall.final⟩
  have hdepth : depthOf 0 header = 0 := by
    have hline := (depth_of_line hheader hblank 0 (d := 0) (if_neg hclose)).1
    rwa [hlevel] at hline
  have hbehind : depthBehind 0 header = 1 := hopen.final
  rw [unitLines, lineDepths, lineDepths_append, hdepth, hbehind, hinner.final]
  rfl

end NumScript
