import NumScript.CommandLine.Path
import NumScript.Proofs.Token.Shape

/-!
# NumScript.Proofs.CommandLine.Path

The names that are made from a path. A name has an extension exactly if it is not its own stem
(`stem_ne_iff`), and putting the extension `c` behind the stem gives the name back exactly if that
is its extension (`stem_append_eq_iff`). No component of a path has a slash in it, so a stem is the
name of something in a directory and not a path through directories (`slash_not_mem_pathStem`).
-/

namespace NumScript

/-! ### Extensions -/

/-- The name consists of a base, a dot and the extension, and neither of the two is empty. -/
def HasExtension (name extension : String) : Prop :=
  ∃ base : String, base ≠ "" ∧ extension ≠ "" ∧ '.' ∉ extension.toList ∧
    name = base ++ "." ++ extension

/-- The stem of a name with an extension is its base. -/
theorem nameStem_append {base extension : List Char} (hbase : base ≠ []) (hne : extension ≠ [])
    (hdot : '.' ∉ extension) : nameStem (base ++ '.' :: extension) = base := by
  have hreverse : (base ++ '.' :: extension).reverse =
      extension.reverse ++ '.' :: base.reverse := by simp
  have hall : extension.reverse.all (· != '.') = true := by
    rw [List.all_reverse, List.all_eq_true]
    intro c hc
    exact bne_iff_ne.mpr fun heq => hdot (heq ▸ hc)
  have hstop : ∀ c ∈ ('.' :: base.reverse).head?, (c != '.') = false := by simp
  rw [nameStem, hreverse, takeWhile_append_stop hall hstop, dropWhile_append_stop hall hstop]
  simp [hbase, hne]

/-- A name that is not its own stem has an extension. -/
theorem exists_of_nameStem_ne {name : List Char} (h : nameStem name ≠ name) :
    ∃ base extension, base ≠ [] ∧ extension ≠ [] ∧ '.' ∉ extension ∧
      name = base ++ '.' :: extension := by
  have hsplit : name.reverse.takeWhile (· != '.') ++ name.reverse.dropWhile (· != '.') =
      name.reverse := List.takeWhile_append_dropWhile
  rw [nameStem] at h
  cases hdrop : name.reverse.dropWhile (· != '.') with
  | nil => exact absurd (by rw [hdrop]) h
  | cons dot base =>
    rw [hdrop] at h hsplit
    by_cases hempty : (base.isEmpty || (name.reverse.takeWhile (· != '.')).isEmpty) = true
    · exact absurd (if_pos hempty) h
    · rw [Bool.or_eq_true, not_or, List.isEmpty_iff, List.isEmpty_iff] at hempty
      have hdot : dot = '.' := by
        have hhead := List.head?_dropWhile_not (· != '.') name.reverse
        rw [hdrop] at hhead
        simpa using hhead
      refine ⟨base.reverse, (name.reverse.takeWhile (· != '.')).reverse, by simpa using hempty.1,
        by simpa using hempty.2, fun hmem => ?_, ?_⟩
      · have hne := List.mem_takeWhile_imp (List.mem_reverse.mp hmem)
        exact absurd rfl (bne_iff_ne.mp hne)
      · have hname := congrArg List.reverse hsplit
        rw [List.reverse_reverse, List.reverse_append, List.reverse_cons, List.append_assoc,
          hdot] at hname
        exact hname.symm

/-- The stem of a name is a part of it. -/
theorem nameStem_subset (name : List Char) : nameStem name ⊆ name := by
  by_cases hstem : nameStem name = name
  · rw [hstem]
    exact List.Subset.refl name
  · obtain ⟨base, extension, hbase, hne, hdot, rfl⟩ := exists_of_nameStem_ne hstem
    rw [nameStem_append hbase hne hdot]
    exact List.subset_append_left _ _

/-- The stem of a name, as a text. -/
theorem stem_of_extension {base extension : String} (hbase : base ≠ "") (hne : extension ≠ "")
    (hdot : '.' ∉ extension.toList) :
    String.ofList (nameStem (base ++ "." ++ extension).toList) = base := by
  have hchars : (base ++ "." ++ extension).toList = base.toList ++ '.' :: extension.toList := by
    simp
  rw [hchars, nameStem_append _ _ hdot, String.ofList_toList]
  · rwa [Ne, String.toList_eq_nil_iff]
  · rwa [Ne, String.toList_eq_nil_iff]

/-- A name is not its own stem exactly if it has an extension. -/
theorem stem_ne_iff {name : String} :
    String.ofList (nameStem name.toList) ≠ name ↔ ∃ extension, HasExtension name extension := by
  constructor
  · intro hne
    have hne' : nameStem name.toList ≠ name.toList :=
      fun heq => hne (by rw [heq, String.ofList_toList])
    obtain ⟨base, extension, hbase, hextension, hdot, hname⟩ := exists_of_nameStem_ne hne'
    refine ⟨.ofList extension, .ofList base, ?_, ?_, ?_, ?_⟩
    · rwa [Ne, ← String.toList_inj, String.toList_ofList]
    · rwa [Ne, ← String.toList_inj, String.toList_ofList]
    · rwa [String.toList_ofList]
    · rw [← String.toList_inj, hname]
      simp
  · intro ⟨extension, base, hbase, hne, hdot, hname⟩ heq
    rw [hname, stem_of_extension hbase hne hdot] at heq
    have hlength := congrArg String.length heq
    simp only [String.length_append] at hlength
    have hdot' : ".".length = 1 := rfl
    omega

/-- The file for the C text has the name that it is made from exactly if the extension is `c`. -/
theorem stem_append_eq_iff {name : String} :
    String.ofList (nameStem name.toList) ++ ".c" = name ↔ HasExtension name "c" := by
  constructor
  · intro hname
    have hne : String.ofList (nameStem name.toList) ≠ name := by
      intro heq
      have hlength := congrArg String.length (hname.trans heq.symm)
      rw [String.length_append] at hlength
      have hc : ".c".length = 2 := rfl
      omega
    obtain ⟨extension, base, hbase, hextension, hdot, rfl⟩ := stem_ne_iff.mp hne
    rw [stem_of_extension hbase hextension hdot] at hname
    refine ⟨base, hbase, by decide, by decide, ?_⟩
    rw [← hname, String.append_assoc]
    rfl
  · intro ⟨base, hbase, hne, hdot, hname⟩
    rw [hname, stem_of_extension hbase hne hdot, String.append_assoc]
    rfl

/-! ### Components -/

/-- The pieces between slashes have none. -/
theorem slash_not_mem_of_mem_splitSlashes (cs : List Char) :
    ∀ piece ∈ splitSlashes cs, '/' ∉ piece := by
  induction cs with
  | nil => simp [splitSlashes]
  | cons c cs ih =>
    intro piece hpiece
    rw [splitSlashes] at hpiece
    by_cases hc : c = '/'
    · rw [if_pos hc, List.mem_cons] at hpiece
      rcases hpiece with rfl | hpiece
      · exact List.not_mem_nil
      · exact ih piece hpiece
    · rw [if_neg hc] at hpiece
      cases hsplit : splitSlashes cs with
      | nil =>
        rw [hsplit] at hpiece
        obtain rfl := List.mem_singleton.mp hpiece
        exact fun hmem => hc (List.mem_singleton.mp hmem).symm
      | cons first pieces =>
        rw [hsplit] at hpiece ih
        rcases List.mem_cons.mp hpiece with rfl | hpiece
        · intro hmem
          rcases List.mem_cons.mp hmem with heq | hmem
          · exact hc heq.symm
          · exact ih first List.mem_cons_self hmem
        · exact ih piece (List.mem_cons_of_mem _ hpiece)

theorem slash_not_mem_of_mem_pathComponents {path name : String}
    (h : name ∈ pathComponents path) : '/' ∉ name.toList := by
  obtain ⟨piece, hpiece, rfl⟩ := List.mem_map.mp h
  rw [String.toList_ofList]
  exact slash_not_mem_of_mem_splitSlashes _ piece hpiece

theorem splitSlashes_ne_nil (cs : List Char) : splitSlashes cs ≠ [] := by
  cases cs with
  | nil => exact List.cons_ne_nil _ _
  | cons c cs =>
    rw [splitSlashes]
    split
    · exact List.cons_ne_nil _ _
    · split <;> exact List.cons_ne_nil _ _

/-- A text without slashes is one piece. -/
theorem splitSlashes_of_not_mem {cs : List Char} (h : '/' ∉ cs) : splitSlashes cs = [cs] := by
  induction cs with
  | nil => rfl
  | cons c cs ih =>
    rw [List.mem_cons, not_or] at h
    rw [splitSlashes, if_neg (Ne.symm h.1), ih h.2]

/-- The name that a path ends in is one of its components, or empty. -/
theorem slash_not_mem_fileName (path : String) : '/' ∉ (fileName path).toList := by
  rw [fileName]
  cases hlast : ((pathComponents path).filter fun c => c != "" && c != ".").getLast? with
  | none => exact List.not_mem_nil
  | some name =>
    have hmem : name ∈ pathComponents path :=
      (List.mem_filter.mp (List.mem_of_getLast? hlast)).1
    exact slash_not_mem_of_mem_pathComponents hmem

/-- A stem is not a path through directories. -/
theorem slash_not_mem_pathStem (path : String) : '/' ∉ (pathStem path).toList := by
  rw [pathStem, String.toList_ofList]
  exact fun hmem => slash_not_mem_fileName path (nameStem_subset _ hmem)

end NumScript
