import NumScript.Codegen.Name
import NumScript.Codegen.NameTable
import NumScript.Proofs.Token.Shape

/-!
# NumScript.Proofs.Codegen.Name

Names in the C text. A variable keeps its identity (`safeName_injective`), never takes the place of
a reserved name and never looks like the symbol of a function. The symbol of a function tells its
suffix and its name (`mangle_inj`). With a suffix of digits it looks like a symbol, and so it is no
reserved name and no variable.
-/

namespace NumScript

/-- Whether a text is a word that does not start with a digit. -/
def isCName (name : String) : Bool :=
  match name.toList with
  | [] => false
  | c :: cs => isWordStart c && cs.all isWordChar

theorem isCName_of_toList {name : String} {c : Char} {cs : List Char} (h : name.toList = c :: cs)
    (hc : isWordStart c = true) (hcs : cs.all isWordChar = true) : isCName name = true := by
  simp [isCName, h, hc, hcs]

theorem exists_of_isCName {name : String} (h : isCName name = true) : ∃ c cs,
    name.toList = c :: cs ∧ isWordStart c = true ∧ cs.all isWordChar = true := by
  unfold isCName at h
  split at h
  · cases h
  · rename_i c cs hname
    rw [Bool.and_eq_true] at h
    exact ⟨c, cs, hname, h⟩

theorem isCName.all_isWordChar {name : String} (h : isCName name = true) :
    name.toList.all isWordChar = true := by
  obtain ⟨c, cs, hname, hc, hcs⟩ := exists_of_isCName h
  rw [hname, List.all_cons, hcs, isWordChar, hc]
  rfl

/-! ### Variables -/

theorem needsTag_tagged (x : String) : needsTag ("v_" ++ x) = true := by
  have htagged : isTagged ("v_" ++ x).toList = true := by
    rw [String.toList_append]
    rfl
  rw [needsTag, htagged, Bool.or_true]

/-- Distinct variables stay distinct. -/
theorem safeName_injective {x y : String} (h : safeName x = safeName y) : x = y := by
  unfold safeName at h
  by_cases hx : needsTag x = true
  · by_cases hy : needsTag y = true
    · rw [if_pos hx, if_pos hy] at h
      have hchars := congrArg String.toList h
      rw [String.toList_append, String.toList_append] at hchars
      exact String.toList_inj.mp (List.append_cancel_left hchars)
    · -- a name that is kept has no tag
      rw [if_pos hx, if_neg hy] at h
      exact absurd (h ▸ needsTag_tagged x) hy
  · by_cases hy : needsTag y = true
    · rw [if_neg hx, if_pos hy] at h
      exact absurd (h ▸ needsTag_tagged y) hx
    · rwa [if_neg hx, if_neg hy] at h

theorem safeName_isCName {x : String} (h : isCName x = true) : isCName (safeName x) = true := by
  unfold safeName
  split
  · have htext : ("v_" ++ x).toList = 'v' :: '_' :: x.toList := by
      rw [String.toList_append]
      rfl
    refine isCName_of_toList htext (by decide) ?_
    rw [List.all_cons, isCName.all_isWordChar h]
    decide
  · exact h

theorem safeName_not_mem_reservedNames (x : String) : safeName x ∉ reservedNames := by
  intro hmem
  unfold safeName at hmem
  split at hmem
  · have hreserved : ∀ k ∈ reservedNames, isTagged k.toList = false := by decide
    have hnone := hreserved _ hmem
    rw [String.toList_append] at hnone
    cases hnone
  · rename_i htag
    refine htag ?_
    rw [needsTag, List.contains_iff_mem.mpr hmem]
    rfl

theorem safeName_not_mem_cKeywords (x : String) : safeName x ∉ cKeywords :=
  fun hmem => safeName_not_mem_reservedNames x (List.mem_append_left _ hmem)

/-- No variable looks like the symbol of a function. -/
theorem looksLikeSymbol_safeName (x : String) : looksLikeSymbol (safeName x).toList = false := by
  unfold safeName
  split
  · rw [String.toList_append]
    rfl
  · rename_i htag
    refine Bool.eq_false_iff.mpr fun hsymbol => htag ?_
    rw [needsTag, hsymbol, Bool.or_true, Bool.true_or]

/-! ### Functions -/

theorem isWordChar_of_isDigit {c : Char} (h : c.isDigit = true) : isWordChar c = true := by
  rw [isWordChar, h, Bool.or_true]

namespace NameTable

theorem counting_toList (k : Nat) : (counting k).toList = Nat.toDigits 10 (k + 1) := by
  rw [counting, Nat.toString_eq_ofList_toDigits, String.toList_ofList]

theorem isDigit_counting (k : Nat) : (counting k).toList.all Char.isDigit = true := by
  rw [counting_toList]
  exact List.all_eq_true.mpr fun _ hc => Nat.isDigit_of_mem_toDigits (by decide) (by decide) hc

theorem isWordChar_counting (k : Nat) : (counting k).toList.all isWordChar = true :=
  List.all_eq_true.mpr fun c hc =>
    isWordChar_of_isDigit (List.all_eq_true.mp (isDigit_counting k) c hc)

theorem counting_ne_nil (k : Nat) : (counting k).toList ≠ [] := by
  rw [counting_toList]
  exact Nat.toDigits_ne_nil

theorem mangle_toList (suffix name : String) :
    (mangle suffix name).toList = 'f' :: (suffix.toList ++ '_' :: name.toList) := by
  simp [mangle]

theorem mangle_isCName (k : Nat) {name : String} (h : name.toList.all isWordChar = true) :
    isCName (mangle (counting k) name) = true := by
  refine isCName_of_toList (mangle_toList _ _) (by decide) ?_
  rw [List.all_append, List.all_cons, isWordChar_counting, h]
  decide

/-- Whether a suffix consists of digits and is not empty. -/
def isNumeric (suffix : String) : Bool :=
  !suffix.toList.isEmpty && suffix.toList.all Char.isDigit

theorem isNumeric_counting (k : Nat) : isNumeric (counting k) = true := by
  rw [isNumeric, isDigit_counting, List.isEmpty_eq_false_iff.mpr (counting_ne_nil k)]
  rfl

theorem underscore_not_mem_of_isNumeric {suffix : String} (h : isNumeric suffix = true) :
    '_' ∉ suffix.toList := by
  rw [isNumeric, Bool.and_eq_true] at h
  intro hmem
  exact absurd (List.all_eq_true.mp h.2 '_' hmem) (by decide)

theorem looksLikeSymbol_mangle {suffix : String} (h : isNumeric suffix = true) (name : String) :
    looksLikeSymbol (mangle suffix name).toList = true := by
  rw [isNumeric, Bool.and_eq_true, Bool.not_eq_true'] at h
  have hstop : ∀ c ∈ ('_' :: name.toList).head?, c.isDigit = false := by simp
  rw [mangle_toList, looksLikeSymbol, takeWhile_append_stop h.2 hstop,
    dropWhile_append_stop h.2 hstop, h.1]
  rfl

/-- The symbol of a function tells its suffix and its name, if no suffix has an underscore. -/
theorem mangle_inj {s s' x y : String} (hs : '_' ∉ s.toList) (hs' : '_' ∉ s'.toList)
    (h : mangle s x = mangle s' y) : s = s' ∧ x = y := by
  have hall : ∀ {t : String}, '_' ∉ t.toList → t.toList.all (· != '_') = true := by
    intro t ht
    simp only [List.all_eq_true, bne_iff_ne]
    rintro c hc rfl
    exact ht hc
  have hstop : ∀ z : String, ∀ c ∈ ('_' :: z.toList).head?, (c != '_') = false := by simp
  have hchars := congrArg String.toList h
  rw [mangle_toList, mangle_toList] at hchars
  have hrest := (List.cons.inj hchars).2
  -- the first underscore is the one behind the suffix
  have hsuffix := congrArg (List.takeWhile (· != '_')) hrest
  have hname := congrArg (List.dropWhile (· != '_')) hrest
  rw [takeWhile_append_stop (hall hs) (hstop x), takeWhile_append_stop (hall hs') (hstop y)]
    at hsuffix
  rw [dropWhile_append_stop (hall hs) (hstop x), dropWhile_append_stop (hall hs') (hstop y)]
    at hname
  exact ⟨String.toList_inj.mp hsuffix, String.toList_inj.mp (List.cons.inj hname).2⟩

/-- The symbol of a function tells its name. -/
theorem mangle_injective {j k : Nat} {x y : String}
    (h : mangle (counting j) x = mangle (counting k) y) : x = y :=
  (mangle_inj (underscore_not_mem_of_isNumeric (isNumeric_counting j))
    (underscore_not_mem_of_isNumeric (isNumeric_counting k)) h).2

theorem mangle_not_mem_reservedNames {suffix : String} (h : isNumeric suffix = true)
    (name : String) : mangle suffix name ∉ reservedNames := by
  have hreserved : ∀ k ∈ reservedNames, looksLikeSymbol k.toList = false := by decide
  intro hmem
  have hnone := hreserved _ hmem
  rw [looksLikeSymbol_mangle h] at hnone
  cases hnone

theorem mangle_not_mem_cKeywords (k : Nat) (name : String) :
    mangle (counting k) name ∉ cKeywords := fun hmem =>
  mangle_not_mem_reservedNames (isNumeric_counting k) name (List.mem_append_left _ hmem)

theorem mangle_ne_pow (k : Nat) (name : String) : mangle (counting k) name ≠ "pow" := by
  intro h
  have hreserved := mangle_not_mem_reservedNames (isNumeric_counting k) name
  rw [h] at hreserved
  exact hreserved (by decide)

/-- No variable has the symbol of a function. -/
theorem safeName_ne_mangle {suffix : String} (h : isNumeric suffix = true) (x name : String) :
    safeName x ≠ mangle suffix name := by
  intro heq
  have hsymbol := looksLikeSymbol_mangle h name
  rw [← heq, looksLikeSymbol_safeName] at hsymbol
  cases hsymbol

end NameTable

end NumScript
