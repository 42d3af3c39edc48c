import NumScript.Codegen.NameTable
import NumScript.Token.Lexer

/-!
# NumScript.Proofs.Codegen.Scan

The calls in a C text, found by reading it character by character and without knowing how it was
written. `Scan` keeps the brackets that are open, the word in front of each and the commas in it;
`callsIn` lists the words in front of a bracket with the number of arguments in it, heads of
functions included.

`Balanced` is what the text of an operand has to be for the reader: it closes the brackets that it
opens, and its calls fit the functions that are defined. The lemmas on it follow the ways in which
texts are put together.
-/

namespace NumScript

/-! ### Reading calls -/

/-- An open bracket: the word in front of it, last character first, the number of commas in it, and
whether it has anything else in it. -/
structure Frame where
  callee : List Char
  commas : Nat
  filled : Bool
deriving DecidableEq

/-- The state of a reader: the word that ends here, last character first, the open brackets, the
innermost one first, and the calls that are closed. -/
structure Scan where
  word : List Char
  frames : List Frame
  calls : List (String × Nat)
deriving DecidableEq

/-- The word `void`, last character first. -/
def voidWord : List Char := ['d', 'i', 'o', 'v']

/-- The call that is closed with a bracket whose last word is `last`. Without a word in front, a
bracket is no call. A list that consists of `void` has no members. -/
def Frame.closed (f : Frame) (last : List Char) : List (String × Nat) :=
  if f.callee.isEmpty then []
  else
    let count := if !f.filled || (f.commas == 0 && last == voidWord) then 0 else f.commas + 1
    [(String.ofList f.callee.reverse, count)]

namespace Scan

/-- The innermost bracket has something in it. -/
def fill : List Frame → List Frame
  | [] => []
  | f :: fs => { f with filled := true } :: fs

/-- The innermost bracket has one more comma. -/
def comma : List Frame → List Frame
  | [] => []
  | f :: fs => { f with commas := f.commas + 1 } :: fs

/-- Reads a character. -/
def step (s : Scan) (c : Char) : Scan :=
  if isWordChar c then { s with word := c :: s.word, frames := fill s.frames }
  else if c = '(' then { s with word := [], frames := ⟨s.word, 0, false⟩ :: fill s.frames }
  else if c = ')' then
    match s.frames with
    | [] => { s with word := [] }
    | f :: fs => ⟨[], fs, s.calls ++ f.closed s.word⟩
  else if c = ',' then { s with word := [], frames := comma s.frames }
  else { s with word := [] }

/-- Reads a text. -/
def read (s : Scan) (text : String) : Scan := text.toList.foldl step s

/-- The state before a text. -/
def start : Scan := ⟨[], [], []⟩

end Scan

/-- The calls in a text. -/
def callsIn (text : String) : List (String × Nat) := (Scan.start.read text).calls

/-- Whether all brackets in a text are closed. -/
def isBracketed (text : String) : Bool := (Scan.start.read text).frames.isEmpty

/-- The routines that a text may use without a prototype, with their numbers of arguments. -/
def routines : List (String × Nat) :=
  [("main", 0), ("print_number", 1), ("printf", 2), ("pow", 2)]

/-- A call of a routine, or of a function in `defs` with the number of arguments on record. -/
def Fits (defs : List Definition) (call : String × Nat) : Prop :=
  call ∈ routines ∨ ∃ d ∈ defs, d.symbol = call.1 ∧ d.arity = call.2

theorem Fits.mono {defs defs' : List Definition} (hsub : defs ⊆ defs') {call : String × Nat}
    (h : Fits defs call) : Fits defs' call := by
  rcases h with hroutine | ⟨d, hd, hfits⟩
  · exact .inl hroutine
  · exact .inr ⟨d, hsub hd, hfits⟩

/-! ### Steps -/

namespace Scan

theorem read_append (s : Scan) (t u : String) : s.read (t ++ u) = (s.read t).read u := by
  rw [read, String.toList_append, List.foldl_append]
  rfl

@[simp]
theorem fill_fill (fs : List Frame) : fill (fill fs) = fill fs := by
  cases fs <;> rfl

theorem step_word (s : Scan) {c : Char} (h : isWordChar c = true) :
    s.step c = ⟨c :: s.word, fill s.frames, s.calls⟩ := by
  rw [step, if_pos h]

theorem read_open (s : Scan) : s.read "(" = ⟨[], ⟨s.word, 0, false⟩ :: fill s.frames, s.calls⟩ :=
  rfl

theorem read_close {s : Scan} {f : Frame} {fs : List Frame} (h : s.frames = f :: fs) :
    s.read ")" = ⟨[], fs, s.calls ++ f.closed s.word⟩ := by
  obtain ⟨word, frames, calls⟩ := s
  cases h
  rfl

theorem read_comma {s : Scan} {f : Frame} {fs : List Frame} (h : s.frames = f :: fs) :
    s.read ", " = ⟨[], { f with commas := f.commas + 1 } :: fs, s.calls⟩ := by
  obtain ⟨word, frames, calls⟩ := s
  cases h
  rfl

/-- The state with further calls in front of those that were found. -/
def behind (s : Scan) (calls : List (String × Nat)) : Scan := { s with calls := calls ++ s.calls }

theorem step_behind (s : Scan) (calls : List (String × Nat)) (c : Char) :
    (s.behind calls).step c = (s.step c).behind calls := by
  unfold step
  split
  · rfl
  · split
    · rfl
    · split
      · obtain ⟨word, frames, found⟩ := s
        cases frames <;> simp [behind]
      · split <;> rfl

theorem read_behind (s : Scan) (calls : List (String × Nat)) (text : String) :
    (s.behind calls).read text = (s.read text).behind calls := by
  unfold read
  induction text.toList generalizing s with
  | nil => rfl
  | cons c cs ih => rw [List.foldl_cons, List.foldl_cons, step_behind, ih]

/-- Characters that only end words. -/
def isBreak (c : Char) : Bool := !isWordChar c && c != '(' && c != ')' && c != ','

theorem step_break (s : Scan) {c : Char} (h : isBreak c = true) :
    s.step c = ⟨[], s.frames, s.calls⟩ := by
  simp only [isBreak, Bool.and_eq_true, bne_iff_ne, Bool.not_eq_true'] at h
  obtain ⟨⟨⟨hword, hopen⟩, hclose⟩, hcomma⟩ := h
  rw [step, if_neg (by simp [hword]), if_neg hopen, if_neg hclose, if_neg hcomma]

/-- A text that only ends words. -/
def isGap (gap : String) : Bool := !gap.toList.isEmpty && gap.toList.all isBreak

theorem read_breaks (s : Scan) {cs : List Char} (hne : cs ≠ []) (h : cs.all isBreak = true) :
    cs.foldl step s = ⟨[], s.frames, s.calls⟩ := by
  induction cs generalizing s with
  | nil => exact absurd rfl hne
  | cons c cs ih =>
    rw [List.all_cons, Bool.and_eq_true] at h
    rw [List.foldl_cons, step_break s h.1]
    by_cases hcs : cs = []
    · rw [hcs]
      rfl
    · exact ih ⟨[], s.frames, s.calls⟩ hcs h.2

theorem read_gap (s : Scan) {gap : String} (h : isGap gap = true) :
    s.read gap = ⟨[], s.frames, s.calls⟩ := by
  rw [isGap, Bool.and_eq_true] at h
  exact read_breaks s (by simpa using h.1) h.2

end Scan

/-- A text that consists of word characters. -/
def isWord (text : String) : Bool := !text.toList.isEmpty && text.toList.all isWordChar

namespace Scan

theorem read_wordChars (s : Scan) {cs : List Char} (hne : cs ≠ [])
    (h : cs.all isWordChar = true) :
    cs.foldl step s = ⟨cs.reverse ++ s.word, fill s.frames, s.calls⟩ := by
  induction cs generalizing s with
  | nil => exact absurd rfl hne
  | cons c cs ih =>
    rw [List.all_cons, Bool.and_eq_true] at h
    rw [List.foldl_cons, step_word s h.1]
    by_cases hcs : cs = []
    · rw [hcs]
      rfl
    · rw [ih ⟨c :: s.word, fill s.frames, s.calls⟩ hcs h.2]
      simp

theorem read_word (s : Scan) {text : String} (h : isWord text = true) :
    s.read text = ⟨text.toList.reverse ++ s.word, fill s.frames, s.calls⟩ := by
  rw [isWord, Bool.and_eq_true] at h
  exact read_wordChars s (by simpa using h.1) h.2

/-- Characters without which there are no calls and no `void`. -/
def isPlain (c : Char) : Bool := c != '(' && c != ')' && c != ',' && c != 'v'

theorem read_plainChars (s : Scan) {cs : List Char} (h : cs.all isPlain = true) :
    ∃ w, cs.foldl step s =
        ⟨w, if cs.any isWordChar then fill s.frames else s.frames, s.calls⟩ ∧
      ∀ c ∈ w, c ∈ cs ∨ c ∈ s.word := by
  induction cs generalizing s with
  | nil => exact ⟨s.word, rfl, fun _ hc => .inr hc⟩
  | cons c cs ih =>
    rw [List.all_cons, Bool.and_eq_true] at h
    by_cases hword : isWordChar c = true
    · obtain ⟨w, hread, hw⟩ := ih ⟨c :: s.word, fill s.frames, s.calls⟩ h.2
      refine ⟨w, ?_, ?_⟩
      · rw [List.foldl_cons, step_word s hword, hread]
        simp [hword]
      · intro c' hc'
        rcases hw c' hc' with hmem | hmem
        · exact .inl (List.mem_cons_of_mem _ hmem)
        · rcases List.mem_cons.mp hmem with rfl | hmem
          · exact .inl List.mem_cons_self
          · exact .inr hmem
    · have hbreak : isBreak c = true := by
        simp only [isPlain, Bool.and_eq_true] at h
        simp [isBreak, hword, h.1.1.1.1, h.1.1.1.2, h.1.1.2]
      obtain ⟨w, hread, hw⟩ := ih ⟨[], s.frames, s.calls⟩ h.2
      refine ⟨w, ?_, ?_⟩
      · rw [List.foldl_cons, step_break s hbreak, hread]
        simp [hword]
      · intro c' hc'
        rcases hw c' hc' with hmem | hmem
        · exact .inl (List.mem_cons_of_mem _ hmem)
        · exact absurd hmem List.not_mem_nil

end Scan

/-! ### Balanced texts -/

/-- A text with something in it that opens and closes its brackets, calls what fits, and does not
end in the word `void`. -/
def Balanced (defs : List Definition) (text : String) : Prop :=
  ∀ s : Scan, s.word = [] → ∃ w new, s.read text = ⟨w, Scan.fill s.frames, s.calls ++ new⟩ ∧
    w ≠ voidWord ∧ ∀ c ∈ new, Fits defs c

namespace Balanced

variable {defs : List Definition} {t u : String}

theorem word (h : isWord t = true) (hvoid : t ≠ "void") : Balanced defs t := by
  intro s hs
  refine ⟨t.toList.reverse, [], ?_, ?_, by simp⟩
  · rw [Scan.read_word s h, hs, List.append_nil, List.append_nil]
  · intro hrev
    refine hvoid (String.toList_inj.mp ?_)
    rw [← List.reverse_reverse t.toList, hrev]
    rfl

theorem plain (h : t.toList.all Scan.isPlain = true) (hword : t.toList.any isWordChar = true) :
    Balanced defs t := by
  intro s hs
  obtain ⟨w, hread, hw⟩ := Scan.read_plainChars s h
  refine ⟨w, [], ?_, ?_, by simp⟩
  · rw [Scan.read, hread, if_pos hword, List.append_nil]
  · -- the text has no `v` in it
    intro hvoid
    rcases hw 'v' (by rw [hvoid]; decide) with hmem | hmem
    · exact absurd (List.all_eq_true.mp h 'v' hmem) (by decide)
    · rw [hs] at hmem
      exact absurd hmem List.not_mem_nil

/-- The text may be put together in another way. -/
theorem of_toList (ht : Balanced defs t) (h : u.toList = t.toList) : Balanced defs u :=
  String.toList_inj.mp h ▸ ht

theorem gap (ht : Balanced defs t) {gap : String} (hgap : Scan.isGap gap = true) :
    Balanced defs (t ++ gap) := by
  intro s hs
  obtain ⟨w, new, hread, -, hfits⟩ := ht s hs
  refine ⟨[], new, ?_, by decide, hfits⟩
  rw [Scan.read_append, hread, Scan.read_gap _ hgap]

theorem append (ht : Balanced defs t) {gap : String} (hgap : Scan.isGap gap = true)
    (hu : Balanced defs u) : Balanced defs (t ++ gap ++ u) := by
  intro s hs
  obtain ⟨w, new, hread, -, hfits⟩ := ht s hs
  obtain ⟨w', new', hread', hvoid, hfits'⟩ := hu ⟨[], Scan.fill s.frames, s.calls ++ new⟩ rfl
  refine ⟨w', new ++ new', ?_, hvoid, ?_⟩
  · rw [Scan.read_append, Scan.read_append, hread, Scan.read_gap _ hgap, hread']
    simp
  · exact List.forall_mem_append.mpr ⟨hfits, hfits'⟩

/-- A bracket without a word in front of it. -/
theorem read_bracket (ht : Balanced defs t) {s : Scan} (hs : s.word = []) :
    ∃ new, s.read ("(" ++ t ++ ")") = ⟨[], Scan.fill s.frames, s.calls ++ new⟩ ∧
      ∀ c ∈ new, Fits defs c := by
  obtain ⟨w, new, hread, -, hfits⟩ := ht ⟨[], ⟨[], 0, false⟩ :: Scan.fill s.frames, s.calls⟩ rfl
  refine ⟨new, ?_, hfits⟩
  rw [Scan.read_append, Scan.read_append, Scan.read_open, hs, hread, Scan.read_close rfl]
  simp [Frame.closed]

theorem bracket (ht : Balanced defs t) : Balanced defs ("(" ++ t ++ ")") := by
  intro s hs
  obtain ⟨new, hread, hfits⟩ := ht.read_bracket hs
  exact ⟨[], new, hread, by decide, hfits⟩

/-- A cast stands in front of its operand without a gap. -/
theorem cast (ht : Balanced defs t) (hu : Balanced defs u) :
    Balanced defs ("(" ++ t ++ ")" ++ u) := by
  intro s hs
  obtain ⟨new, hread, hfits⟩ := ht.read_bracket hs
  obtain ⟨w', new', hread', hvoid, hfits'⟩ := hu ⟨[], Scan.fill s.frames, s.calls ++ new⟩ rfl
  refine ⟨w', new ++ new', ?_, hvoid, ?_⟩
  · rw [Scan.read_append, hread, hread']
    simp
  · exact List.forall_mem_append.mpr ⟨hfits, hfits'⟩

/-- The arguments of a call, all but the last one with a comma behind it. -/
theorem read_args {args : List String} (hne : args ≠ []) (hargs : ∀ a ∈ args, Balanced defs a)
    (f : Frame) (fs : List Frame) (calls : List (String × Nat)) :
    ∃ w new, Scan.read ⟨[], f :: fs, calls⟩ (", ".intercalate args) =
        ⟨w, ⟨f.callee, f.commas + (args.length - 1), true⟩ :: fs, calls ++ new⟩ ∧
      w ≠ voidWord ∧ ∀ c ∈ new, Fits defs c := by
  induction args generalizing f calls with
  | nil => exact absurd rfl hne
  | cons a args ih =>
    obtain ⟨w, new, hread, hvoid, hfits⟩ := hargs a List.mem_cons_self ⟨[], f :: fs, calls⟩ rfl
    match args with
    | [] =>
      refine ⟨w, new, ?_, hvoid, hfits⟩
      rw [String.intercalate_singleton, hread]
      rfl
    | b :: args =>
      obtain ⟨w', new', hread', hvoid', hfits'⟩ := ih (by simp)
        (fun a ha => hargs a (List.mem_cons_of_mem _ ha)) ⟨f.callee, f.commas + 1, true⟩
        (calls ++ new)
      refine ⟨w', new ++ new', ?_, hvoid', List.forall_mem_append.mpr ⟨hfits, hfits'⟩⟩
      rw [String.intercalate_cons_cons, Scan.read_append, Scan.read_append, hread,
        Scan.read_comma rfl]
      show Scan.read ⟨[], ⟨f.callee, f.commas + 1, true⟩ :: fs, calls ++ new⟩ _ = _
      rw [hread']
      simp
      omega

/-- A call. -/
theorem call (ht : isWord t = true) {args : List String} (hargs : ∀ a ∈ args, Balanced defs a)
    (hfits : Fits defs (t, args.length)) :
    Balanced defs (t ++ "(" ++ ", ".intercalate args ++ ")") := by
  intro s hs
  have hopen : s.read (t ++ "(") = ⟨[], ⟨t.toList.reverse, 0, false⟩ :: Scan.fill s.frames,
      s.calls⟩ := by
    rw [Scan.read_append, Scan.read_word s ht, Scan.read_open, hs]
    simp
  have hcallee : t.toList.reverse.isEmpty = false := by
    rw [isWord, Bool.and_eq_true] at ht
    simpa using ht.1
  by_cases hne : args = []
  · subst hne
    refine ⟨[], [(t, 0)], ?_, by decide, by simpa using hfits⟩
    rw [Scan.read_append, Scan.read_append, hopen]
    show Scan.read ⟨[], _ :: Scan.fill s.frames, s.calls⟩ ")" = _
    rw [Scan.read_close rfl]
    simp [Frame.closed, hcallee]
  · obtain ⟨w, new, hread, hvoid, hnew⟩ :=
      read_args hne hargs ⟨t.toList.reverse, 0, false⟩ (Scan.fill s.frames) s.calls
    have hcount : args.length - 1 + 1 = args.length :=
      Nat.sub_add_cancel (List.length_pos_iff.mpr hne)
    refine ⟨[], new ++ [(t, args.length)], ?_, by decide, ?_⟩
    · rw [Scan.read_append, Scan.read_append, hopen, hread, Scan.read_close rfl]
      simp [Frame.closed, hcallee, hvoid, hcount]
    · exact List.forall_mem_append.mpr ⟨hnew, by simpa using hfits⟩

/-- A call, or the head of a function, without members. -/
theorem void (ht : isWord t = true) (hfits : Fits defs (t, 0)) :
    Balanced defs (t ++ "(void)") := by
  intro s hs
  have hcallee : t.toList.reverse.isEmpty = false := by
    rw [isWord, Bool.and_eq_true] at ht
    simpa using ht.1
  refine ⟨[], [(t, 0)], ?_, by decide, by simpa using hfits⟩
  rw [Scan.read_append, Scan.read_word s ht, hs, List.append_nil]
  show Scan.mk [] (Scan.fill (Scan.fill s.frames))
    (s.calls ++ Frame.closed ⟨t.toList.reverse, 0, true⟩ voidWord) = _
  simp [Frame.closed, hcallee]

end Balanced

end NumScript
