import NumScript.CommandLine.Options

/-!
# NumScript.Proofs.CommandLine.Arrangement

The order of the arguments. Arguments that are accepted fall apart, in one way, into groups: a flag
with its value, a switch, or the file. A group sets one field of the options whatever comes before
or after it, and a value is taken for a value also if it looks like a flag. So each field is set by
the groups for it alone (`Draft.agreesOn_foldl_settersOf`), and groups for different fields can
change places.

Conversely, options can be written as arguments that ask for them (`Options.arguments`).
-/

namespace NumScript

/-! ### Groups of arguments -/

/-- A field of the options. -/
inductive OptionField where
  | inputFile
  | output
  | keepIntermediate
  | cc
  | stopAt
deriving DecidableEq

/-- A flag that needs a value. -/
inductive ValueFlag where
  | shortOutput
  | output
  | cc
  | stopAt
deriving DecidableEq

/-- The spelling of a flag that needs a value. -/
def ValueFlag.text : ValueFlag → String
  | .shortOutput => "-o"
  | .output => "--output"
  | .cc => "--cc"
  | .stopAt => "--stop-at"

/-- The field that the value goes to. -/
def ValueFlag.field : ValueFlag → OptionField
  | .shortOutput => .output
  | .output => .output
  | .cc => .cc
  | .stopAt => .stopAt

/-- A flag that stands alone. -/
inductive Switch where
  | shortIntermediates
  | intermediates
deriving DecidableEq

/-- The spelling of a flag that stands alone. -/
def Switch.text : Switch → String
  | .shortIntermediates => "-i"
  | .intermediates => "--intermediates"

/-- Arguments that belong together. -/
inductive ArgumentGroup where
  | valued (flag : ValueFlag) (value : String)
  | switch (flag : Switch)
  | file (name : String) (isName : isFlag name = false)
deriving DecidableEq

namespace ArgumentGroup

/-- The arguments of a group. -/
def arguments : ArgumentGroup → List String
  | .valued flag value => [flag.text, value]
  | .switch flag => [flag.text]
  | .file name _ => [name]

/-- The field that a group sets. -/
def field : ArgumentGroup → OptionField
  | .valued flag _ => flag.field
  | .switch _ => .keepIntermediate
  | .file _ _ => .inputFile

/-- The groups for a field, in their order. -/
def settersOf (field : OptionField) (gs : List ArgumentGroup) : List ArgumentGroup :=
  gs.filter (·.field = field)

/-- The same groups in another order, in which those for the same field stand as they did. -/
structure Rearranges (gs gs' : List ArgumentGroup) : Prop where
  perm : gs.Perm gs'
  order : ∀ field, settersOf field gs = settersOf field gs'

end ArgumentGroup

open ArgumentGroup

/-- The arguments of groups, one behind the other. -/
def argumentsOf (gs : List ArgumentGroup) : List String := gs.flatMap arguments

@[simp]
theorem argumentsOf_nil : argumentsOf [] = [] := rfl

@[simp]
theorem argumentsOf_cons (g : ArgumentGroup) (gs : List ArgumentGroup) :
    argumentsOf (g :: gs) = g.arguments ++ argumentsOf gs := rfl

/-! ### Arguments fall into groups in one way -/

theorem ValueFlag.isFlag_text (flag : ValueFlag) : isFlag flag.text = true := by
  cases flag <;> decide

theorem Switch.isFlag_text (flag : Switch) : isFlag flag.text = true := by
  cases flag <;> decide

theorem ValueFlag.text_injective {flag flag' : ValueFlag} (h : flag.text = flag'.text) :
    flag = flag' := by
  revert h
  cases flag <;> cases flag' <;> decide

theorem Switch.text_injective {flag flag' : Switch} (h : flag.text = flag'.text) :
    flag = flag' := by
  revert h
  cases flag <;> cases flag' <;> decide

theorem ValueFlag.text_ne_switch (flag : ValueFlag) (flag' : Switch) :
    flag.text ≠ flag'.text := by
  cases flag <;> cases flag' <;> decide

/-- What is no flag differs from all flags. -/
theorem ne_of_isFlag {name flag : String} (hname : isFlag name = false)
    (hflag : isFlag flag = true) : name ≠ flag := by
  rintro rfl
  exact absurd (hname.symm.trans hflag) (by decide)

/-- The first argument tells what group comes first. -/
theorem ArgumentGroup.arguments_append_inj {g g' : ArgumentGroup} {rest rest' : List String}
    (h : g.arguments ++ rest = g'.arguments ++ rest') : g = g' ∧ rest = rest' := by
  cases g with
  | valued flag value =>
    cases g' with
    | valued flag' value' =>
      obtain ⟨htext, hvalue⟩ := List.cons.inj h
      obtain ⟨rfl, rfl⟩ : value = value' ∧ rest = rest' := List.cons.inj hvalue
      exact ⟨by rw [ValueFlag.text_injective htext], rfl⟩
    | switch flag' => exact absurd (List.cons.inj h).1 (flag.text_ne_switch flag')
    | file name isName =>
      exact absurd (List.cons.inj h).1.symm (ne_of_isFlag isName flag.isFlag_text)
  | switch flag =>
    cases g' with
    | valued flag' value' => exact absurd (List.cons.inj h).1.symm (flag'.text_ne_switch flag)
    | switch flag' =>
      obtain ⟨htext, hrest⟩ := List.cons.inj h
      exact ⟨by rw [Switch.text_injective htext], hrest⟩
    | file name isName =>
      exact absurd (List.cons.inj h).1.symm (ne_of_isFlag isName flag.isFlag_text)
  | file name isName =>
    cases g' with
    | valued flag' value' =>
      exact absurd (List.cons.inj h).1 (ne_of_isFlag isName flag'.isFlag_text)
    | switch flag' => exact absurd (List.cons.inj h).1 (ne_of_isFlag isName flag'.isFlag_text)
    | file name' isName' =>
      obtain ⟨rfl, hrest⟩ := List.cons.inj h
      exact ⟨rfl, hrest⟩

theorem ArgumentGroup.arguments_ne_nil (g : ArgumentGroup) : g.arguments ≠ [] := by
  cases g <;> exact List.cons_ne_nil _ _

theorem argumentsOf_injective {gs gs' : List ArgumentGroup}
    (h : argumentsOf gs = argumentsOf gs') : gs = gs' := by
  induction gs generalizing gs' with
  | nil =>
    cases gs' with
    | nil => rfl
    | cons g' gs' => exact absurd (List.append_eq_nil_iff.mp h.symm).1 g'.arguments_ne_nil
  | cons g gs ih =>
    cases gs' with
    | nil => exact absurd (List.append_eq_nil_iff.mp h).1 g.arguments_ne_nil
    | cons g' gs' =>
      obtain ⟨rfl, hrest⟩ := arguments_append_inj h
      rw [ih hrest]

/-! ### What a group does -/

namespace Draft

/-- The draft after a group. -/
def take (d : Draft) : ArgumentGroup → Draft
  | .valued .shortOutput value => { d with output := some value }
  | .valued .output value => { d with output := some value }
  | .valued .cc value => { d with cc := value }
  | .valued .stopAt value => { d with stopAt := some value }
  | .switch _ => { d with keepIntermediate := true }
  | .file name _ => { d with inputFile := name }

/-- Two drafts have the same value in a field. -/
def AgreesOn (d d' : Draft) : OptionField → Prop
  | .inputFile => d.inputFile = d'.inputFile
  | .output => d.output = d'.output
  | .keepIntermediate => d.keepIntermediate = d'.keepIntermediate
  | .cc => d.cc = d'.cc
  | .stopAt => d.stopAt = d'.stopAt

theorem eq_of_agreesOn {d d' : Draft} (h : ∀ field, d.AgreesOn d' field) : d = d' := by
  obtain ⟨inputFile, output, keepIntermediate, cc, stopAt⟩ := d
  obtain rfl : inputFile = _ := h .inputFile
  obtain rfl : output = _ := h .output
  obtain rfl : keepIntermediate = _ := h .keepIntermediate
  obtain rfl : cc = _ := h .cc
  obtain rfl : stopAt = _ := h .stopAt
  rfl

theorem AgreesOn.refl (d : Draft) (field : OptionField) : d.AgreesOn d field := by
  cases field <;> rfl

theorem AgreesOn.trans {d d' d'' : Draft} {field : OptionField} (h : d.AgreesOn d' field)
    (h' : d'.AgreesOn d'' field) : d.AgreesOn d'' field := by
  cases field <;> exact Eq.trans h h'

theorem AgreesOn.symm {d d' : Draft} {field : OptionField} (h : d.AgreesOn d' field) :
    d'.AgreesOn d field := by
  cases field <;> exact Eq.symm h

/-- A group changes no other field. -/
theorem agreesOn_take {g : ArgumentGroup} {field : OptionField} (h : g.field ≠ field)
    (d : Draft) : (d.take g).AgreesOn d field := by
  cases g with
  | valued flag value =>
    cases flag <;> cases field <;> simp_all [take, AgreesOn, ArgumentGroup.field, ValueFlag.field]
  | switch flag => cases field <;> simp_all [take, AgreesOn, ArgumentGroup.field]
  | file name isName => cases field <;> simp_all [take, AgreesOn, ArgumentGroup.field]

/-- What a group makes of a field depends on that field alone. -/
theorem AgreesOn.take {d d' : Draft} {field : OptionField} (h : d.AgreesOn d' field)
    (g : ArgumentGroup) : (d.take g).AgreesOn (d'.take g) field := by
  cases g with
  | valued flag value => cases flag <;> cases field <;> simp_all [Draft.take, AgreesOn]
  | switch flag => cases field <;> simp_all [Draft.take, AgreesOn]
  | file name isName => cases field <;> simp_all [Draft.take, AgreesOn]

theorem AgreesOn.foldl {d d' : Draft} {field : OptionField} (h : d.AgreesOn d' field)
    (gs : List ArgumentGroup) :
    (gs.foldl Draft.take d).AgreesOn (gs.foldl Draft.take d') field := by
  induction gs generalizing d d' with
  | nil => exact h
  | cons g gs ih => exact ih (h.take g)

/-- A field is set by the groups for it. -/
theorem agreesOn_foldl_settersOf (field : OptionField) (gs : List ArgumentGroup) (d : Draft) :
    (gs.foldl take d).AgreesOn ((settersOf field gs).foldl take d) field := by
  induction gs generalizing d with
  | nil => exact .refl d field
  | cons g gs ih =>
    by_cases hfield : g.field = field
    · have hkept : settersOf field (g :: gs) = g :: settersOf field gs :=
        List.filter_cons_of_pos (by simpa using hfield)
      rw [hkept]
      exact ih (d.take g)
    · have hdropped : settersOf field (g :: gs) = settersOf field gs :=
        List.filter_cons_of_neg (by simpa using hfield)
      rw [hdropped]
      exact ((agreesOn_take hfield d).foldl gs).trans (ih d)

theorem foldl_take_of_rearranges {gs gs' : List ArgumentGroup} (h : Rearranges gs gs')
    (d : Draft) : gs.foldl take d = gs'.foldl take d := by
  refine eq_of_agreesOn fun field => ?_
  have hleft := agreesOn_foldl_settersOf field gs d
  have hright := agreesOn_foldl_settersOf field gs' d
  rw [← h.order field] at hright
  exact hleft.trans hright.symm

end Draft

/-! ### Groups are read one by one -/

theorem readArguments_valued (d : Draft) (flag : ValueFlag) (value : String)
    (rest : List String) :
    readArguments d (flag.text :: value :: rest) =
      readArguments (d.take (.valued flag value)) rest := by
  cases flag <;> simp [readArguments, Draft.setting?, ValueFlag.text, Draft.take]

theorem readArguments_switch (d : Draft) (flag : Switch) (rest : List String) :
    readArguments d (flag.text :: rest) = readArguments (d.take (.switch flag)) rest := by
  cases flag <;> simp [readArguments, Draft.setting?, Switch.text, Draft.take]

/-- An argument that is no flag names the file, if none was named before. -/
theorem readArguments_file (d : Draft) {name : String} (isName : isFlag name = false)
    (rest : List String) :
    readArguments d (name :: rest) =
      if d.inputFile = "" then readArguments (d.take (.file name isName)) rest
      else .error (.unexpected name) := by
  have hne : ∀ flag, isFlag flag = true → name ≠ flag := fun _ => ne_of_isFlag isName
  have hsetting : d.setting? name = none := by
    simp [Draft.setting?, hne "-o" (by decide), hne "--output" (by decide),
      hne "--cc" (by decide), hne "--stop-at" (by decide)]
  rw [readArguments.eq_2]
  simp only [hsetting, hne "--help" (by decide), hne "-h" (by decide), hne "-i" (by decide),
    hne "--intermediates" (by decide), isName, or_self, if_false, Bool.false_eq_true]
  rfl

/-- There is room for the files among the groups: there is one at most, and none if the draft has
one already. -/
def Draft.HasRoom (d : Draft) (gs : List ArgumentGroup) : Prop :=
  settersOf .inputFile gs = [] ∨ d.inputFile = "" ∧ (settersOf .inputFile gs).length = 1

namespace Draft

theorem HasRoom.of_rearranges {d : Draft} {gs gs' : List ArgumentGroup} (h : d.HasRoom gs)
    (hgs : Rearranges gs gs') : d.HasRoom gs' := by
  rw [HasRoom, ← hgs.order .inputFile]
  exact h

theorem hasRoom_cons_file {d : Draft} {name : String} {isName : isFlag name = false}
    {gs : List ArgumentGroup} :
    d.HasRoom (.file name isName :: gs) ↔ d.inputFile = "" ∧ settersOf .inputFile gs = [] := by
  simp [HasRoom, settersOf, ArgumentGroup.field]

theorem hasRoom_cons_of_ne {d : Draft} {g : ArgumentGroup} {gs : List ArgumentGroup}
    (hg : g.field ≠ .inputFile) : d.HasRoom (g :: gs) ↔ (d.take g).HasRoom gs := by
  have hfile : (d.take g).inputFile = d.inputFile := agreesOn_take hg d
  have hsetters : settersOf .inputFile (g :: gs) = settersOf .inputFile gs :=
    List.filter_cons_of_neg (by simpa using hg)
  rw [HasRoom, HasRoom, hfile, hsetters]

end Draft

theorem ArgumentGroup.field_valued_ne (flag : ValueFlag) (value : String) :
    (valued flag value).field ≠ .inputFile := by
  show flag.field ≠ .inputFile
  cases flag <;> decide

theorem ArgumentGroup.field_switch_ne (flag : Switch) : (switch flag).field ≠ .inputFile := by
  cases flag <;> decide

/-- Groups with room for their files set their fields, and then the draft is finished. -/
theorem readArguments_argumentsOf {d : Draft} {gs : List ArgumentGroup} (h : d.HasRoom gs) :
    readArguments d (argumentsOf gs) = (gs.foldl Draft.take d).finish.map .compile := by
  induction gs generalizing d with
  | nil => rw [argumentsOf_nil, readArguments, List.foldl_nil]
  | cons g gs ih =>
    rw [argumentsOf_cons, List.foldl_cons]
    cases g with
    | valued flag value =>
      exact (readArguments_valued d flag value _).trans
        (ih ((Draft.hasRoom_cons_of_ne (field_valued_ne flag value)).mp h))
    | switch flag =>
      exact (readArguments_switch d flag _).trans
        (ih ((Draft.hasRoom_cons_of_ne (field_switch_ne flag)).mp h))
    | file name isName =>
      obtain ⟨hfree, hnone⟩ := Draft.hasRoom_cons_file.mp h
      refine (readArguments_file d isName _).trans ?_
      rw [if_pos hfree]
      exact ih (.inl hnone)

theorem exists_flag_of_setting? {d : Draft} {argument : String} {set : String → Draft}
    (h : d.setting? argument = some set) :
    ∃ flag : ValueFlag, flag.text = argument ∧
      ∀ value, set value = d.take (.valued flag value) := by
  unfold Draft.setting? at h
  split at h
  · rename_i houtput
    cases h
    obtain rfl | rfl := houtput
    · exact ⟨.shortOutput, rfl, fun _ => rfl⟩
    · exact ⟨.output, rfl, fun _ => rfl⟩
  · split at h
    · rename_i hcc
      cases h
      exact ⟨.cc, hcc.symm, fun _ => rfl⟩
    · split at h
      · rename_i hstop
        cases h
        exact ⟨.stopAt, hstop.symm, fun _ => rfl⟩
      · cases h

/-- Accepted arguments are those of groups. If no file has the empty name, there is room for the
files among them. -/
theorem exists_groups_of_accepted {d : Draft} {arguments : List String} {o : Options}
    (h : readArguments d arguments = .ok (.compile o)) :
    ∃ gs, argumentsOf gs = arguments ∧ (gs.foldl Draft.take d).finish = .ok o ∧
      ((∀ g ∈ gs, g.arguments ≠ [""]) → d.HasRoom gs) := by
  fun_induction readArguments d arguments with
  | case1 d =>
    cases hfinish : d.finish with
    | error e => rw [hfinish] at h; cases h
    | ok o' =>
      rw [hfinish] at h
      cases h
      exact ⟨[], rfl, hfinish, fun _ => .inl rfl⟩
  | case2 => cases h
  | case3 => cases h
  | case4 d argument _ set hset value rest ih =>
    obtain ⟨flag, rfl, hvalue⟩ := exists_flag_of_setting? hset
    rw [hvalue] at ih h
    obtain ⟨gs, rfl, hfinish, hroom⟩ := ih h
    refine ⟨.valued flag value :: gs, rfl, hfinish, fun hgs => ?_⟩
    exact (Draft.hasRoom_cons_of_ne (field_valued_ne flag value)).mpr
      (hroom (List.forall_mem_cons.mp hgs).2)
  | case5 d argument rest _ _ hswitch ih =>
    obtain ⟨flag, rfl⟩ : ∃ flag : Switch, flag.text = argument := by
      obtain rfl | rfl := hswitch
      · exact ⟨.shortIntermediates, rfl⟩
      · exact ⟨.intermediates, rfl⟩
    obtain ⟨gs, rfl, hfinish, hroom⟩ := ih h
    refine ⟨.switch flag :: gs, rfl, hfinish, fun hgs => ?_⟩
    exact (Draft.hasRoom_cons_of_ne (field_switch_ne flag)).mpr
      (hroom (List.forall_mem_cons.mp hgs).2)
  | case6 => cases h
  | case7 d argument rest _ _ _ hname hfree ih =>
    obtain ⟨gs, rfl, hfinish, hroom⟩ := ih h
    refine ⟨.file argument (by simpa using hname) :: gs, rfl, hfinish, fun hgs => ?_⟩
    obtain ⟨hne, hgs⟩ := List.forall_mem_cons.mp hgs
    refine Draft.hasRoom_cons_file.mpr ⟨hfree, ?_⟩
    -- the file has a name now, so no other one can follow
    obtain hnone | ⟨hempty, -⟩ := hroom hgs
    · exact hnone
    · obtain rfl : argument = "" := hempty
      exact absurd rfl hne
  | case8 => cases h

/-- Accepted groups are accepted in every order that keeps the order for each field. -/
theorem ArgumentGroup.Rearranges.readArguments_eq {d : Draft} {gs gs' : List ArgumentGroup}
    (h : Rearranges gs gs') (hroom : d.HasRoom gs) :
    readArguments d (argumentsOf gs') = readArguments d (argumentsOf gs) := by
  rw [readArguments_argumentsOf hroom, readArguments_argumentsOf (hroom.of_rearranges h),
    Draft.foldl_take_of_rearranges h]

/-! ### Options as arguments -/

/-- The argument list that spells out the options, with the file at its end. -/
def Options.arguments (o : Options) : List String :=
  (match o.output with
    | some name => ["-o", name]
    | none => []) ++
  (if o.keepIntermediate then ["-i"] else []) ++ ["--cc", o.cc] ++
  (match o.stopAt with
    | some phase => ["--stop-at", phase.text]
    | none => []) ++ [o.inputFile]

/-- The groups of that list. -/
def Options.groups (o : Options) (isName : isFlag o.inputFile = false) : List ArgumentGroup :=
  (o.output.map (.valued .shortOutput)).toList ++
  (if o.keepIntermediate then [.switch .shortIntermediates] else []) ++ [.valued .cc o.cc] ++
  (o.stopAt.map fun phase => .valued .stopAt phase.text).toList ++ [.file o.inputFile isName]

/-- The options as a draft, with the name of the phase. -/
def Options.draft (o : Options) : Draft :=
  ⟨o.inputFile, o.output, o.keepIntermediate, o.cc, o.stopAt.map Phase.text⟩

theorem Phase.ofText?_text (phase : Phase) : Phase.ofText? phase.text = some phase := by
  cases phase <;> decide

section Options

variable {o : Options}

theorem Options.argumentsOf_groups (isName : isFlag o.inputFile = false) :
    argumentsOf (o.groups isName) = o.arguments := by
  obtain ⟨inputFile, output, keepIntermediate, cc, stopAt⟩ := o
  cases output <;> cases keepIntermediate <;> cases stopAt <;> rfl

theorem Options.foldl_take_groups (isName : isFlag o.inputFile = false) :
    (o.groups isName).foldl Draft.take .start = o.draft := by
  obtain ⟨inputFile, output, keepIntermediate, cc, stopAt⟩ := o
  cases output <;> cases keepIntermediate <;> cases stopAt <;> rfl

theorem Options.hasRoom_groups (isName : isFlag o.inputFile = false) :
    Draft.start.HasRoom (o.groups isName) := by
  obtain ⟨inputFile, output, keepIntermediate, cc, stopAt⟩ := o
  refine .inr ⟨rfl, ?_⟩
  cases output <;> cases keepIntermediate <;> cases stopAt <;> rfl

theorem Options.finish_draft (hfile : o.inputFile ≠ "") : o.draft.finish = .ok o := by
  obtain ⟨inputFile, output, keepIntermediate, cc, stopAt⟩ := o
  cases stopAt with
  | none => simp [draft, Draft.finish, show inputFile ≠ "" from hfile]
  | some phase => simp [draft, Draft.finish, show inputFile ≠ "" from hfile, Phase.ofText?_text]

theorem Options.ofArguments_arguments (hfile : o.inputFile ≠ "")
    (isName : isFlag o.inputFile = false) :
    Request.ofArguments o.arguments = .ok (.compile o) := by
  rw [← o.argumentsOf_groups isName, Request.ofArguments,
    readArguments_argumentsOf (o.hasRoom_groups isName), o.foldl_take_groups isName,
    o.finish_draft hfile]
  rfl

end Options

/-! ### The order of arguments -/

/-- Arguments that ask for options fall into groups in one way. If no file has the empty name, the
groups ask for the same options in every order that keeps the order of the groups for each field.
And every choice of options with a file that has a name and is no flag is asked for by some
arguments, namely by those that spell it out. -/
theorem accepted_rearranged :
    (∀ (arguments : List String) (o : Options),
      Request.ofArguments arguments = .ok (.compile o) →
        ∃ gs, (∀ gs', argumentsOf gs' = arguments ↔ gs' = gs) ∧
          ((∀ g ∈ gs, g.arguments ≠ [""]) → ∀ gs', Rearranges gs gs' →
            Request.ofArguments (argumentsOf gs') = .ok (.compile o))) ∧
    ∀ o : Options, o.inputFile ≠ "" → isFlag o.inputFile = false →
      Request.ofArguments o.arguments = .ok (.compile o) := by
  refine ⟨fun arguments o h => ?_, fun o => Options.ofArguments_arguments⟩
  obtain ⟨gs, rfl, -, hroom⟩ := exists_groups_of_accepted h
  refine ⟨gs, fun gs' => ⟨argumentsOf_injective, congrArg argumentsOf⟩, fun hnamed gs' hgs' => ?_⟩
  rw [← h]
  exact hgs'.readArguments_eq (hroom hnamed)

/-- The file comes first or last, and values that look like flags stay values. -/
theorem flagLike_accepted_rearranged :
    Request.ofArguments ["--cc", "-h", "-o", "-i", "-i", "--output", "--cc", "a.nc"] =
      .ok (.compile ⟨"a.nc", some "--cc", true, "-h", none⟩) ∧
    Request.ofArguments ["a.nc", "-o", "-i", "-i", "--cc", "-h", "--output", "--cc"] =
      .ok (.compile ⟨"a.nc", some "--cc", true, "-h", none⟩) ∧
    Request.ofArguments (Options.arguments ⟨"a.nc", some "--help", false, "", some .codegen⟩) =
      .ok (.compile ⟨"a.nc", some "--help", false, "", some .codegen⟩) := by
  have haccepted : Request.ofArguments
      ["--cc", "-h", "-o", "-i", "-i", "--output", "--cc", "a.nc"] =
        .ok (.compile ⟨"a.nc", some "--cc", true, "-h", none⟩) := rfl
  obtain ⟨gs, hgs, hany⟩ := accepted_rearranged.1 _ _ haccepted
  obtain rfl := (hgs [.valued .cc "-h", .valued .shortOutput "-i", .switch .shortIntermediates,
    .valued .output "--cc", .file "a.nc" (by decide)]).mp rfl
  refine ⟨haccepted, ?_, accepted_rearranged.2 _ (by decide) (by decide)⟩
  refine hany (by decide) [.file "a.nc" (by decide), .valued .shortOutput "-i",
    .switch .shortIntermediates, .valued .cc "-h", .valued .output "--cc"] ⟨by decide, ?_⟩
  rintro (_ | _ | _ | _ | _) <;> rfl

end NumScript
