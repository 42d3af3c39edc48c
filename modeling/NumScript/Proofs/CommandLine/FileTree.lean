import Mathlib.Data.List.Basic
import NumScript.CommandLine.FileTree
import NumScript.Proofs.CommandLine.Path

/-!
# NumScript.Proofs.CommandLine.FileTree

Where paths lead, and what writing a file changes. Writing changes what is at the place that the
path leads to and nothing else (`FileTree.node?_write_self`, `FileTree.node?_write_of_ne`).

A path may be absolute or relative and have dots, empty components and ways up and down in it. Only
a directory can be gone into, so all that a path goes through are directories
(`FileTree.PassesDirs`), and a path that leads to a file of the working directory ends in the name
of that file (`FileTree.fileName_of_lookup`). A name without slashes leads to what has this name in
the working directory, if anything (`FileTree.lookup_name_iff`, `FileTree.target?_name`).
-/

namespace NumScript

namespace FileTree

variable {t : FileTree}

/-! ### Nodes -/

/-- There is nothing at a path if nothing is listed there or below. -/
theorem node?_eq_none_iff {path : List String} :
    t.node? path = none ↔ ¬ path <+: t.cwd ∧ ∀ entry ∈ t.entries, ¬ path <+: entry.1 := by
  rw [node?]
  cases hfind : t.entries.find? (·.1 == path) with
  | some entry =>
    have hmem := List.mem_of_find?_eq_some hfind
    have hpath : entry.1 = path := by simpa using List.find?_some hfind
    simp only [reduceCtorEq, false_iff, not_and]
    intro _ hnone
    exact hnone entry hmem (hpath ▸ List.prefix_refl _)
  | none =>
    simp only [← List.isPrefixOf_iff_prefix]
    simp

theorem isDir_iff {path : List String} : t.isDir path = true ↔ t.node? path = some .dir := by
  rw [isDir]
  cases t.node? path with
  | none => simp
  | some node => cases node <;> simp

/-- A path that is not listed leads to a directory or to nothing. -/
theorem node?_of_unlisted {path : List String} (h : t.entries.find? (·.1 == path) = none) :
    t.node? path = none ∨ t.node? path = some .dir := by
  rw [node?, h]
  simp only
  split
  · exact .inr rfl
  · exact .inl rfl

/-- What is above something is there. -/
theorem node?_ne_none_of_prefix {above path : List String} (h : above <+: path)
    (hpath : t.node? path ≠ none) : t.node? above ≠ none := by
  intro hnone
  obtain ⟨hcwd, hentries⟩ := node?_eq_none_iff.mp hnone
  refine hpath (node?_eq_none_iff.mpr ⟨fun hle => hcwd (h.trans hle), ?_⟩)
  intro entry hentry hle
  exact hentries entry hentry (h.trans hle)

/-- The file that was put at a path is there. -/
theorem node?_put_self (t : FileTree) (path : List String) (content : ByteArray) :
    (t.put path content).node? path = some (.file content) := by
  have hothers : (t.entries.filter (·.1 != path)).find? (·.1 == path) = none := by
    rw [List.find?_eq_none]
    intro entry hentry heq
    have hne := (List.mem_filter.mp hentry).2
    rw [bne, heq] at hne
    cases hne
  have hfind : (t.put path content).entries.find? (·.1 == path) = some (path, .file content) := by
    rw [put, List.find?_append, hothers, Option.none_or, List.find?_cons_of_pos (by simp)]
  rw [node?, hfind]

/-- All else is as before, if everything above the path was there. -/
theorem node?_put_of_ne {path other : List String} (content : ByteArray) (hne : other ≠ path)
    (habove : other <+: path → t.node? other ≠ none) :
    (t.put path content).node? other = t.node? other := by
  have hfind : (t.put path content).entries.find? (·.1 == other) =
      t.entries.find? (·.1 == other) := by
    have hsame : (fun entry : List String × FileNode =>
        decide ((entry.1 != path) = true ∧ (entry.1 == other) = true)) = (·.1 == other) := by
      funext entry
      by_cases hentry : entry.1 = other <;> simp [hentry, hne]
    have hnew : [(path, FileNode.file content)].find? (·.1 == other) = none :=
      List.find?_cons_of_neg (by simpa using Ne.symm hne)
    rw [put, List.find?_append, List.find?_filter, hsame, hnew, Option.or_none]
  -- a directory that is not listed is there on account of what is below it
  have hnone : (t.put path content).node? other = none ↔ t.node? other = none := by
    constructor
    · intro h
      obtain ⟨hcwd, hentries⟩ := node?_eq_none_iff.mp h
      refine node?_eq_none_iff.mpr ⟨hcwd, fun entry hentry hle => ?_⟩
      by_cases hpath : entry.1 = path
      · exact hentries (path, .file content) (by simp [put]) (hpath ▸ hle)
      · exact hentries entry (by simp [put, hentry, hpath]) hle
    · intro h
      obtain ⟨hcwd, hentries⟩ := node?_eq_none_iff.mp h
      refine node?_eq_none_iff.mpr ⟨hcwd, fun entry hentry hle => ?_⟩
      rcases List.mem_append.mp hentry with hold | hnew
      · exact hentries entry (List.mem_filter.mp hold).1 hle
      · rw [List.mem_singleton.mp hnew] at hle
        exact habove hle h
  cases hlisted : t.entries.find? (·.1 == other) with
  | some entry => rw [node?, node?, hfind, hlisted]
  | none =>
    rcases node?_of_unlisted hlisted with hold | hold
    · rw [hold, hnone.mpr hold]
    · rcases node?_of_unlisted (hfind.trans hlisted) with hnew | hnew
      · cases hold.symm.trans (hnone.mp hnew)
      · rw [hold, hnew]

/-! ### Steps -/

/-- The name can be that of something in a directory. -/
structure IsName (name : String) : Prop where
  notHere : isHere name = false
  notUp : name ≠ ".."
  short : name.utf8ByteSize ≤ maxName

/-- Only a directory can be gone into, and from there the way leads nowhere, up or down. -/
theorem enter_cases {path place : List String} {name : String}
    (h : t.enter path name = .ok place) :
    t.node? path = some .dir ∧
      (place = path ∨ place = path.dropLast ∨
        (IsName name ∧ t.node? (path ++ [name]) ≠ none ∧ place = path ++ [name])) := by
  rw [enter] at h
  cases hnode : t.node? path with
  | none => rw [hnode] at h; cases h
  | some node =>
    rw [hnode] at h
    cases node with
    | file content => cases h
    | dir =>
      refine ⟨rfl, ?_⟩
      by_cases hhere : isHere name = true
      · simp only [if_pos hhere] at h
        exact .inl (Except.ok.inj h).symm
      · simp only [if_neg hhere] at h
        by_cases hup : name = ".."
        · rw [if_pos hup] at h
          exact .inr (.inl (Except.ok.inj h).symm)
        · rw [if_neg hup] at h
          by_cases hlong : maxName < name.utf8ByteSize
          · rw [if_pos hlong] at h
            cases h
          · rw [if_neg hlong] at h
            by_cases hsome : (t.node? (path ++ [name])).isSome = true
            · rw [if_pos hsome] at h
              exact .inr (.inr ⟨⟨Bool.eq_false_iff.mpr hhere, hup, Nat.le_of_not_lt hlong⟩,
                Option.isSome_iff_ne_none.mp hsome, (Except.ok.inj h).symm⟩)
            · rw [if_neg hsome] at h
              cases h

/-- The only way down to something in a directory is by its name. -/
theorem of_enter_eq_child {path : List String} {name other : String}
    (h : t.enter path name = .ok (path ++ [other])) :
    name = other ∧ t.node? path = some .dir ∧ IsName other ∧ t.node? (path ++ [other]) ≠ none := by
  obtain ⟨hdir, hplace | hplace | ⟨hname, hsome, hplace⟩⟩ := enter_cases h
  · exact absurd (congrArg List.length hplace) (by simp)
  · have hlength := congrArg List.length hplace
    rw [List.length_append, List.length_dropLast, List.length_singleton] at hlength
    omega
  · obtain rfl := List.singleton_inj.mp (List.append_cancel_left hplace)
    exact ⟨rfl, hdir, hname, hsome⟩

/-! ### Ways -/

/-- Everything above a place is a directory, or above the start of the way. -/
def PassesDirs (t : FileTree) (start place : List String) : Prop :=
  ∀ above below, place = above ++ below → below ≠ [] →
    t.node? above = some .dir ∨ above.length < start.length

theorem passesDirs_self (t : FileTree) (start : List String) : t.PassesDirs start start := by
  intro above below hstart hbelow
  have hlength := congrArg List.length hstart
  have hpos := List.length_pos_iff.mpr hbelow
  rw [List.length_append] at hlength
  exact .inr (by omega)

theorem PassesDirs.of_enter {start place place' : List String} {name : String}
    (h : t.PassesDirs start place) (henter : t.enter place name = .ok place') :
    t.PassesDirs start place' := by
  obtain ⟨hdir, rfl | rfl | ⟨-, -, rfl⟩⟩ := enter_cases henter
  · exact h
  · intro above below hplace hbelow
    rcases List.eq_nil_or_concat' place with rfl | ⟨place, last, rfl⟩
    · exact absurd (List.append_eq_nil_iff.mp hplace.symm).2 hbelow
    · rw [List.dropLast_concat] at hplace
      exact h above (below ++ [last]) (by rw [hplace, List.append_assoc]) (by simp)
  · intro above below hplace hbelow
    rcases List.eq_nil_or_concat' below with rfl | ⟨below, last, rfl⟩
    · exact absurd rfl hbelow
    · rw [← List.append_assoc] at hplace
      have hplace' := List.append_inj_left' hplace rfl
      cases below with
      | nil =>
        rw [List.append_nil] at hplace'
        exact .inl (hplace' ▸ hdir)
      | cons name' below => exact h above _ hplace' (List.cons_ne_nil name' below)

theorem PassesDirs.of_walk {names start place place' : List String}
    (h : t.PassesDirs start place) (hwalk : t.walk place names = .ok place') :
    t.PassesDirs start place' := by
  induction names generalizing place with
  | nil => exact Except.ok.inj hwalk ▸ h
  | cons name names ih =>
    rw [walk] at hwalk
    cases henter : t.enter place name with
    | error fault => rw [henter] at hwalk; cases hwalk
    | ok next =>
      rw [henter] at hwalk
      exact ih (h.of_enter henter) hwalk

/-- The last step of a way. -/
theorem exists_of_walk_append {names place place' : List String} {name : String}
    (h : t.walk place (names ++ [name]) = .ok place') :
    ∃ next, t.walk place names = .ok next ∧ t.enter next name = .ok place' := by
  induction names generalizing place with
  | nil =>
    rw [List.nil_append, walk] at h
    cases henter : t.enter place name with
    | error fault => rw [henter] at h; cases h
    | ok next =>
      rw [henter] at h
      exact ⟨place, rfl, henter.trans h⟩
  | cons first names ih =>
    rw [List.cons_append, walk] at h
    rw [walk]
    cases henter : t.enter place first with
    | error fault => rw [henter] at h; cases h
    | ok next =>
      rw [henter] at h
      exact ih h

/-! ### Lookups -/

theorem lookup_eq_ok_iff {path : String} {place : List String} :
    t.lookup path = .ok place ↔
      path ≠ "" ∧ path.utf8ByteSize ≤ maxPath ∧
        t.walk (t.origin path) (pathComponents path) = .ok place := by
  rw [lookup]
  by_cases hempty : path = ""
  · simp [hempty]
  · by_cases hlong : maxPath < path.utf8ByteSize
    · simp [hempty, hlong, Nat.not_le.mpr hlong]
    · simp [hempty, hlong, Nat.le_of_not_lt hlong]

/-- A path that leads to a file of the working directory ends in the name of the file, and its last
step goes from the working directory to the file. -/
theorem fileName_of_lookup {path name : String} {content : ByteArray}
    (h : t.lookup path = .ok (t.cwd ++ [name]))
    (hfile : t.node? (t.cwd ++ [name]) = some (.file content)) :
    fileName path = name ∧ t.enter t.cwd name = .ok (t.cwd ++ [name]) := by
  have horigin : (t.origin path).length ≤ t.cwd.length := by
    rw [origin]
    split
    · exact Nat.zero_le _
    · exact Nat.le_refl _
  obtain ⟨-, -, hwalk⟩ := lookup_eq_ok_iff.mp h
  rcases List.eq_nil_or_concat' (pathComponents path) with hnil | ⟨names, last, hnames⟩
  · exact absurd (List.map_eq_nil_iff.mp hnil) (splitSlashes_ne_nil _)
  · rw [hnames] at hwalk
    obtain ⟨next, hnext, henter⟩ := exists_of_walk_append hwalk
    have hpasses := (t.passesDirs_self (t.origin path)).of_walk hnext
    obtain ⟨hdir, hplace | hplace | ⟨hname, -, hplace⟩⟩ := enter_cases henter
    · rw [hplace] at hfile
      cases hdir.symm.trans hfile
    · -- a step up ends in a directory, since the way went through it
      rcases List.eq_nil_or_concat' next with rfl | ⟨next, below, rfl⟩
      · simp at hplace
      · rw [List.dropLast_concat] at hplace
        subst hplace
        rcases hpasses (t.cwd ++ [name]) [below] rfl (by simp) with hdir' | hshort
        · cases hdir'.symm.trans hfile
        · rw [List.length_append, List.length_singleton] at hshort
          omega
    · obtain ⟨rfl, hlast⟩ := List.append_inj' hplace rfl
      obtain rfl := List.singleton_inj.mp hlast
      refine ⟨?_, henter⟩
      have hkept : [name].filter (fun c => c != "" && c != ".") = [name] := by
        have hhere := hname.notHere
        rw [isHere, Bool.or_eq_false_iff] at hhere
        exact List.filter_cons_of_pos (by rw [bne, bne, hhere.1, hhere.2]; rfl)
      rw [fileName, hnames, List.filter_append, hkept, List.getLast?_concat, Option.getD_some]

/-! ### Names in the working directory -/

section Name

variable {name : String}

theorem origin_name (t : FileTree) (hslash : '/' ∉ name.toList) : t.origin name = t.cwd := by
  rw [origin, if_neg]
  intro hhead
  exact hslash (List.mem_of_head? (eq_of_beq hhead))

theorem pathComponents_name (hslash : '/' ∉ name.toList) : pathComponents name = [name] := by
  rw [pathComponents, splitSlashes_of_not_mem hslash, List.map_singleton, String.ofList_toList]

/-- A name without slashes leads to the place `t.cwd ++ [other]` only if it is `other`. -/
theorem lookup_name_iff {other : String} (hslash : '/' ∉ name.toList)
    (henter : t.enter t.cwd other = .ok (t.cwd ++ [other])) :
    t.lookup name = .ok (t.cwd ++ [other]) ↔ name = other := by
  have hwalk : t.walk (t.origin name) (pathComponents name) = t.enter t.cwd name := by
    rw [t.origin_name hslash, pathComponents_name hslash, walk]
    cases t.enter t.cwd name <;> rfl
  rw [lookup_eq_ok_iff, hwalk]
  constructor
  · intro h
    exact (of_enter_eq_child h.2.2).1
  · intro heq
    subst heq
    obtain ⟨-, -, hname, -⟩ := of_enter_eq_child henter
    refine ⟨?_, Nat.le_trans hname.short (by decide), henter⟩
    intro hempty
    exact absurd hname.notHere (by rw [hempty]; decide)

end Name

/-! ### Writing -/

theorem canHold_iff {dir : List String} {name : String} :
    t.canHold dir name = true ↔
      t.node? dir = some .dir ∧ IsName name ∧ t.node? (dir ++ [name]) ≠ some .dir := by
  simp only [canHold, Bool.and_eq_true, Bool.not_eq_true', bne_iff_ne, decide_eq_true_eq,
    isDir_iff, ← Bool.not_eq_true]
  constructor
  · intro ⟨⟨⟨⟨hdir, hhere⟩, hup⟩, hshort⟩, hfree⟩
    exact ⟨hdir, ⟨Bool.eq_false_iff.mpr hhere, hup, hshort⟩, hfree⟩
  · intro ⟨hdir, hname, hfree⟩
    exact ⟨⟨⟨⟨hdir, Bool.eq_false_iff.mp hname.notHere⟩, hname.notUp⟩, hname.short⟩, hfree⟩

/-- A name without slashes is written in the working directory, if it can be. -/
theorem target?_name (t : FileTree) {name : String} (hslash : '/' ∉ name.toList) :
    t.target? name = if t.canHold t.cwd name then some (t.cwd ++ [name]) else none := by
  rw [target?, t.origin_name hslash, pathComponents_name hslash]
  by_cases hlong : maxPath < name.utf8ByteSize
  · have hfails : ¬ t.canHold t.cwd name = true := by
      intro hholds
      have hshort := (canHold_iff.mp hholds).2.1.short
      have hle : maxName ≤ maxPath := by decide
      omega
    rw [if_pos hlong, if_neg hfails]
  · rw [if_neg hlong]
    rfl

/-- What is written goes to a name in a directory. -/
theorem exists_of_target? {path : String} {place : List String}
    (h : t.target? path = some place) :
    ∃ dir name, place = dir ++ [name] ∧ t.canHold dir name = true := by
  rw [target?] at h
  split at h
  · cases h
  · split at h
    · rename_i dir name _ _
      by_cases hholds : t.canHold dir name = true
      · rw [if_pos hholds] at h
        exact ⟨dir, name, (Option.some.inj h).symm, hholds⟩
      · rw [if_neg hholds] at h
        cases h
    · cases h

/-- The file that was written is at its place. -/
theorem node?_write_self {path : String} {place : List String} (h : t.target? path = some place)
    (content : ByteArray) : (t.write path content).node? place = some (.file content) := by
  rw [write, h]
  exact t.node?_put_self place content

/-- Nothing else changes when a file is written. -/
theorem node?_write_of_ne {path : String} {place : List String} (h : t.target? path ≠ some place)
    (content : ByteArray) : (t.write path content).node? place = t.node? place := by
  rw [write]
  cases htarget : t.target? path with
  | none => rfl
  | some target =>
    obtain ⟨dir, name, rfl, hholds⟩ := exists_of_target? htarget
    obtain ⟨hdir, -, -⟩ := canHold_iff.mp hholds
    have hne : place ≠ dir ++ [name] := fun heq => h (by rw [htarget, heq])
    refine node?_put_of_ne content hne fun habove => ?_
    rcases List.prefix_concat_iff.mp habove with heq | hle
    · exact absurd heq hne
    · exact node?_ne_none_of_prefix hle (by rw [hdir]; exact Option.some_ne_none _)

theorem cwd_write (t : FileTree) (path : String) (content : ByteArray) :
    (t.write path content).cwd = t.cwd := by
  rw [write]
  split <;> rfl

end FileTree

end NumScript
