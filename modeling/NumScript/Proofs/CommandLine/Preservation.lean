import NumScript.Proofs.CommandLine.Conduct

/-!
# NumScript.Proofs.CommandLine.Preservation

What becomes of the input file. The names of the executable and of the file for the C text are made
from the name of the input file, by taking off its extension. So the command can hit its own input:
the executable of a file without an extension has the name of that file, and the compiler writes it
there; and the C text of a file with the extension `c` goes into that very file
(`FileTree.perform_hits_input`). There are no other cases (`FileTree.perform_spares_input`).

The input file may be named by any path that leads to it, and its stem is then that of its name
(`FileTree.stem_of_lookup`). Both files that are written go to names in the working directory, so
all that counts is whether one of these is the name of the input file.
-/

namespace NumScript

namespace FileTree

variable {t : FileTree}

/-! ### Names -/

section Input

variable {o : Options} {name : String} {content : ByteArray}

/-- The stem of a path to a file in the working directory is that of the name of the file. -/
theorem stem_of_lookup (h : t.lookup o.inputFile = .ok (t.cwd ++ [name]))
    (hfile : t.node? (t.cwd ++ [name]) = some (.file content)) :
    o.stem = String.ofList (nameStem name.toList) := by
  rw [Options.stem, pathStem, (fileName_of_lookup h hfile).1]

theorem intermediateName_eq_iff (h : t.lookup o.inputFile = .ok (t.cwd ++ [name]))
    (hfile : t.node? (t.cwd ++ [name]) = some (.file content)) :
    o.intermediateName = name ↔ HasExtension name "c" := by
  rw [Options.intermediateName, stem_of_lookup h hfile]
  exact stem_append_eq_iff

theorem outputName_eq_iff (h : t.lookup o.inputFile = .ok (t.cwd ++ [name]))
    (hfile : t.node? (t.cwd ++ [name]) = some (.file content)) (houtput : o.output = none) :
    o.outputName = name ↔ ¬ ∃ extension, HasExtension name extension := by
  rw [Options.outputName, houtput, Option.getD_none, stem_of_lookup h hfile]
  exact (not_iff_comm.mp stem_ne_iff).symm

theorem slash_not_mem_outputName (houtput : o.output = none) : '/' ∉ o.outputName.toList := by
  rw [Options.outputName, houtput, Option.getD_none]
  exact slash_not_mem_pathStem o.inputFile

end Input

/-! ### Runs -/

theorem cwd_afterWriting (t : FileTree) (r : Report) : (t.afterWriting r).cwd = t.cwd := by
  rw [afterWriting]
  cases r.written with
  | none => rfl
  | some file => exact t.cwd_write file.1 file.2.toUTF8

/-- The compiler that is started writes what it makes to the path that it is given. -/
theorem after_of_calls {product : Invocation → Option ByteArray} {r : Report}
    {cc output text : String} (h : r.calls = [⟨Toolchain.command cc output, text⟩]) :
    t.after product r =
      ((product ⟨Toolchain.command cc output, text⟩).map
        ((t.afterWriting r).write output)).getD (t.afterWriting r) := by
  have houtput : Invocation.output? ⟨Toolchain.command cc output, text⟩ = some output := rfl
  rw [after, h, List.foldl_cons, List.foldl_nil, afterCall, houtput]
  cases product ⟨Toolchain.command cc output, text⟩ <;> rfl

/-- Writing a name in the working directory changes what has this name there, if anything. -/
theorem node?_write_name {output name : String} (hslash : '/' ∉ output.toList)
    (executable : ByteArray) :
    (t.write output executable).node? (t.cwd ++ [name]) = t.node? (t.cwd ++ [name]) ∨
      (output = name ∧
        (t.write output executable).node? (t.cwd ++ [name]) = some (.file executable)) := by
  by_cases htarget : t.target? output = some (t.cwd ++ [name])
  · refine .inr ⟨?_, node?_write_self htarget executable⟩
    rw [t.target?_name hslash] at htarget
    split at htarget
    · exact List.singleton_inj.mp (List.append_cancel_left (Option.some.inj htarget))
    · cases htarget
  · exact .inl (node?_write_of_ne htarget executable)

/-- What is in the place of a file of the working directory after the command has written the C
text, if it does. -/
theorem node?_afterWriting_input {toolchain : Toolchain} {arguments : List String} {o : Options}
    {r : Report} {name : String} {content : ByteArray}
    (haccepted : Request.ofArguments arguments = .ok (.compile o))
    (hattempts : (t.host toolchain).Attempts arguments r)
    (hcontent : t.node? (t.cwd ++ [name]) = some (.file content)) :
    (t.afterWriting r).node? (t.cwd ++ [name]) = some (.file content) ∨
      (o.keepIntermediate = true ∧ o.intermediateName = name ∧ ∃ text,
        (t.host toolchain).Compiles arguments o text ∧
        (t.afterWriting r).node? (t.cwd ++ [name]) = some (.file text.toUTF8)) := by
  obtain ⟨hfile, hothers⟩ :=
    t.node?_afterWriting fun _ _ hwritten => hattempts.target?_of_written hwritten
  by_cases hhit : ∃ text, r.written = some (name, text)
  · obtain ⟨text, hwritten⟩ := hhit
    obtain ⟨o', hcompiles, -, hkeep, hname, -⟩ := (hattempts.written_iff name text).mp hwritten
    have hsame := hcompiles.accepted.symm.trans haccepted
    obtain rfl := Request.compile.inj (Except.ok.inj hsame)
    exact .inr ⟨hkeep, hname.symm, text, hcompiles, hfile name text hwritten⟩
  · left
    rw [← hcontent]
    refine hothers _ fun name' text hwritten heq => hhit ⟨text, ?_⟩
    rw [hwritten, List.singleton_inj.mp (List.append_cancel_left heq)]

/-- What is in the place of a file of the working directory after the compiler has written what it
makes, if it is started and makes something. -/
theorem node?_after_input {toolchain : Toolchain} {product : Invocation → Option ByteArray}
    {arguments : List String} {o : Options} {r : Report} {name : String}
    (haccepted : Request.ofArguments arguments = .ok (.compile o))
    (hattempts : (t.host toolchain).Attempts arguments r)
    (hslash : '/' ∉ o.outputName.toList) :
    (t.after product r).node? (t.cwd ++ [name]) = (t.afterWriting r).node? (t.cwd ++ [name]) ∨
      (o.outputName = name ∧ ∃ call ∈ r.calls, ∃ executable, product call = some executable ∧
        (t.after product r).node? (t.cwd ++ [name]) = some (.file executable)) := by
  cases hattempts with
  | rests _ _ hcalls =>
    rw [after, hcalls]
    exact .inl rfl
  | @builds o' text haccepted' _ _ hcalls =>
    obtain rfl := Request.compile.inj (Except.ok.inj (haccepted.symm.trans haccepted'))
    rw [after_of_calls hcalls, hcalls]
    cases hproduct : product ⟨Toolchain.command o.cc o.outputName, text⟩ with
    | none => exact .inl rfl
    | some executable =>
      rw [← t.cwd_afterWriting r]
      rcases node?_write_name hslash executable with hsame | ⟨hname, hhit⟩
      · exact .inl hsame
      · exact .inr ⟨hname, _, List.mem_singleton_self _, executable, hproduct, hhit⟩

theorem canBePath_of_perform {toolchain : Toolchain} {arguments : List String} {o : Options}
    {r : Report} (haccepted : Request.ofArguments arguments = .ok (.compile o))
    (h : (t.host toolchain).perform arguments = .ok r) : canBePath o.inputFile = true := by
  rw [Host.perform, haccepted, Request.settle] at h
  by_cases hpath : canBePath o.inputFile = true
  · exact hpath
  · simp only [Host.run, if_neg hpath] at h
    cases h

/-- Let the arguments be accepted without a name for the executable, and let them name an input file
in the working directory, by whatever path. The command ends with a report exactly if what they give
for the input file can be a path. Carry the report out, the compiler included. Then the input file
is as before, unless the C text is kept and the file has the extension `c`, in which case it may
hold the C text, or it has no extension, in which case it may hold what the compiler made. The
executable goes to another file exactly if the input file has an extension. -/
theorem perform_spares_input (t : FileTree) (toolchain : Toolchain)
    (product : Invocation → Option ByteArray) {arguments : List String} {o : Options}
    {name : String} {content : ByteArray}
    (haccepted : Request.ofArguments arguments = .ok (.compile o)) (houtput : o.output = none)
    (hinput : t.lookup o.inputFile = .ok (t.cwd ++ [name]))
    (hcontent : t.node? (t.cwd ++ [name]) = some (.file content)) :
    ((∃ r, (t.host toolchain).perform arguments = .ok r) ↔ canBePath o.inputFile = true) ∧
    ∀ r, (t.host toolchain).perform arguments = .ok r →
      ((t.after product r).node? (t.cwd ++ [name]) = some (.file content) ∨
        (o.keepIntermediate = true ∧ HasExtension name "c" ∧ ∃ text,
          (t.host toolchain).Compiles arguments o text ∧
          (t.after product r).node? (t.cwd ++ [name]) = some (.file text.toUTF8)) ∨
        ((¬ ∃ extension, HasExtension name extension) ∧ ∃ call ∈ r.calls, ∃ executable,
          product call = some executable ∧
          (t.after product r).node? (t.cwd ++ [name]) = some (.file executable))) ∧
      ∀ call ∈ r.calls, ∃ out, call.command = [o.cc, "-o", out, "-x", "c", "-O3", "-", "-lm"] ∧
        (t.lookup out = .ok (t.cwd ++ [name]) ↔ ¬ ∃ extension, HasExtension name extension) ∧
        ((∃ extension, HasExtension name extension) → out ≠ o.inputFile) := by
  have hsame : ∀ {o' : Options}, Request.ofArguments arguments = .ok (.compile o') → o = o' :=
    fun h => Request.compile.inj (Except.ok.inj (haccepted.symm.trans h))
  have hslash := slash_not_mem_outputName houtput
  have hname := outputName_eq_iff hinput hcontent houtput
  have hlookup := (lookup_name_iff hslash (fileName_of_lookup hinput hcontent).2).trans hname
  refine ⟨⟨fun ⟨r, hr⟩ => canBePath_of_perform haccepted hr, fun hpath => ?_⟩, fun r hr => ?_⟩
  · obtain ⟨r, hr, -⟩ := (t.host toolchain).exists_attempts fun o' ho' => hsame ho' ▸ hpath
    exact ⟨r, hr⟩
  · obtain ⟨r', hr', -, -, hattempts⟩ := (t.host toolchain).exists_attempts fun o' ho' =>
      hsame ho' ▸ canBePath_of_perform haccepted hr
    obtain rfl := Except.ok.inj (hr'.symm.trans hr)
    have hwritten := node?_afterWriting_input haccepted hattempts hcontent
    rw [intermediateName_eq_iff hinput hcontent] at hwritten
    refine ⟨?_, fun call hcall => ?_⟩
    · rcases node?_after_input haccepted hattempts hslash with hkept | ⟨hout, hhit⟩
      · rw [hkept]
        rcases hwritten with hwritten | hwritten
        · exact .inl hwritten
        · exact .inr (.inl hwritten)
      · exact .inr (.inr ⟨hname.mp hout, hhit⟩)
    · obtain ⟨o', text, hcompiles, -, -, rfl⟩ := (hattempts.mem_calls_iff call).mp hcall
      obtain rfl := hsame hcompiles.accepted
      refine ⟨o.outputName, rfl, hlookup, fun hextension heq => ?_⟩
      exact hlookup.mp (heq ▸ hinput) hextension

/-- A working directory below the root, with a program whose name has two dots. -/
def twoDots : FileTree := ⟨[(["w", "a.c.nc"], .file "1".toUTF8)], ["w"]⟩

/-- A way to the program that leads out of the working directory and back leads to the same names as
the program itself, and the compiler does not touch the program. -/
theorem twoDots_perform_spares_input :
    ∃ r, (twoDots.host fun _ => some ⟨0, "", ""⟩).perform ["-i", "..//w/./a.c.nc"] = .ok r ∧
      (twoDots.after (fun _ => some "ELF".toUTF8) r).node? ["w", "a.c.nc"] =
        some (.file "1".toUTF8) ∧
      ∀ call ∈ r.calls, ∃ out, call.command = ["gcc", "-o", out, "-x", "c", "-O3", "-", "-lm"] ∧
        out ≠ "..//w/./a.c.nc" := by
  have hc : ¬ HasExtension "a.c.nc" "c" := by
    rw [← stem_append_eq_iff]
    decide
  have hextension : ∃ extension, HasExtension "a.c.nc" extension :=
    ⟨"nc", "a.c", by decide, by decide, by decide, by decide⟩
  obtain ⟨hreport, hspared⟩ := twoDots.perform_spares_input (fun _ => some ⟨0, "", ""⟩)
    (fun _ => some "ELF".toUTF8)
    (show Request.ofArguments ["-i", "..//w/./a.c.nc"] =
      .ok (.compile ⟨"..//w/./a.c.nc", none, true, "gcc", none⟩) by decide)
    rfl (show twoDots.lookup "..//w/./a.c.nc" = .ok ["w", "a.c.nc"] by decide)
    (show twoDots.node? ["w", "a.c.nc"] = some (.file "1".toUTF8) by with_unfolding_all rfl)
  obtain ⟨r, hr⟩ := hreport.mpr (by decide)
  obtain ⟨hafter, hcalls⟩ := hspared r hr
  refine ⟨r, hr, ?_, fun call hcall => ?_⟩
  · rcases hafter with hsame | ⟨-, hhit, -⟩ | ⟨hnone, -⟩
    · exact hsame
    · exact absurd hhit hc
    · exact absurd hextension hnone
  · obtain ⟨out, hcommand, -, hother⟩ := hcalls call hcall
    exact ⟨out, hcommand, hother hextension⟩

/-- A working directory with one program of the given name. -/
def lone (name : String) : FileTree := ⟨[([name], .file "1".toUTF8)], []⟩

/-- Without an extension, the executable that the compiler makes replaces the program. With the
extension `c`, the C text does. -/
theorem perform_hits_input :
    (∃ r, ((lone "p").host fun _ => some ⟨0, "", ""⟩).perform ["p"] = .ok r ∧ r.code = 0 ∧
      (lone "p").node? ["p"] = some (.file "1".toUTF8) ∧
      ((lone "p").after (fun _ => some "ELF".toUTF8) r).node? ["p"] =
        some (.file "ELF".toUTF8)) ∧
    ∃ r, ((lone "p.c").host fun _ => none).perform ["-i", "p.c"] = .ok r ∧
      (lone "p.c").node? ["p.c"] = some (.file "1".toUTF8) ∧
      ((lone "p.c").after (fun _ => none) r).node? ["p.c"] ≠ some (.file "1".toUTF8) := by
  have hsource : String.fromUTF8? "1".toUTF8 = some "1" := by decide +kernel
  obtain ⟨text, hcompile, hsize⟩ :
      ∃ text, compile "1" = .ok text ∧ text.toUTF8.size ≠ "1".toUTF8.size := by
    have hlarge : ((compile "1").toOption.any fun text =>
        text.toUTF8.size != "1".toUTF8.size) = true := by decide +kernel
    cases hcompile : compile "1" with
    | ok text => exact ⟨text, rfl, bne_iff_ne.mp (by rwa [hcompile] at hlarge)⟩
    | error e => rw [hcompile] at hlarge; cases hlarge
  constructor
  · let o : Options := ⟨"p", none, false, "gcc", none⟩
    have haccepted : Request.ofArguments ["p"] = .ok (.compile o) := by decide
    have hread : (lone "p").read "p" = .ok "1".toUTF8 := by with_unfolding_all rfl
    have hcompiles : ((lone "p").host fun _ => some ⟨0, "", ""⟩).Compiles ["p"] o text :=
      host_compiles haccepted hread hsource hcompile
    have hname : o.outputName = "p" := by decide
    have hnone : o.intermediate? text = none := rfl
    have htarget : (lone "p").target? "p" = some ["p"] := by decide +kernel
    refine ⟨_, Host.perform_of_compiles (by decide) hcompiles rfl (by decide), rfl,
      by with_unfolding_all rfl, ?_⟩
    rw [after_of_calls (Host.calls_build _ _ _ _), Option.map_some, Option.getD_some, afterWriting,
      Host.written_build, hnone, hname]
    exact node?_write_self htarget "ELF".toUTF8
  · let o : Options := ⟨"p.c", none, true, "gcc", none⟩
    have haccepted : Request.ofArguments ["-i", "p.c"] = .ok (.compile o) := by decide
    have hread : (lone "p.c").read "p.c" = .ok "1".toUTF8 := by with_unfolding_all rfl
    have hcompiles : ((lone "p.c").host fun _ => none).Compiles ["-i", "p.c"] o text :=
      host_compiles haccepted hread hsource hcompile
    have hname : o.intermediateName = "p.c" := by decide
    have hkept : o.intermediate? text = some ("p.c", text) :=
      Options.intermediate?_eq_some_iff.mpr ⟨rfl, hname.symm, rfl⟩
    have htarget : (lone "p.c").target? "p.c" = some ["p.c"] := by decide +kernel
    have hwrite : ((lone "p.c").host fun _ => none).canWrite o.intermediateName = true := by
      rw [host_canWrite, hname, canWrite, htarget]
      rfl
    refine ⟨_, Host.perform_of_compiles (by decide) hcompiles rfl (fun _ => hwrite),
      by with_unfolding_all rfl, fun hsame => hsize ?_⟩
    rw [after_of_calls (Host.calls_build _ _ _ _), Option.map_none, Option.getD_none, afterWriting,
      Host.written_build, hkept] at hsame
    rw [FileNode.file.inj (Option.some.inj ((node?_write_self htarget _).symm.trans hsame))]

end FileTree

end NumScript
