import NumScript.CommandLine.Run
import NumScript.Proofs.CommandLine.FileTree
import NumScript.Proofs.Compile

/-!
# NumScript.Proofs.CommandLine.Conduct

What the command does, for all arguments and surroundings (`Host.perform_conduct`). It always ends
with a report, and the report is orderly: a failure prints nothing but a complaint, a success prints
no complaint. It starts a compiler, and writes a file, only after everything that can fail before
has succeeded.

The one case distinction is in `Host.run_of_builds` and `Host.run_of_not_builds`: either the options
lead up to a compiler (`Host.Builds`), and then the report is that of the compiler, or the command
prints something, or complains, and leaves everything as it is.
-/

namespace NumScript

/-! ### Errors are reported -/

theorem SourceError.exists_complaint {e : SourceError}
    (h : (CompileError.source e).blamesText = true) :
    ∃ message, e.complaint = .ok (.complain 1 message) := by
  cases e with
  | lexical e => exact ⟨_, rfl⟩
  | grammatical e =>
    obtain ⟨cause, found, pos⟩ := e
    cases cause with
    | unresolved error => cases h
    | _ => exact ⟨_, rfl⟩

theorem CodegenError.exists_complaint {e : CodegenError} (h : e.blamesProgram = true) :
    ∃ message, e.complaint = .ok (.complain 1 message) := by
  cases e with
  | redefined => exact ⟨_, rfl⟩
  | undefined => exact ⟨_, rfl⟩
  | arity => exact ⟨_, rfl⟩
  | _ => cases h

/-! ### Runs -/

section Run

variable {host : Host} {o : Options}

/-- The options lead up to a compiler, which is given the text. -/
structure Host.Builds (host : Host) (o : Options) (text : String) : Prop where
  compiles : ∃ source, host.readSource o.inputFile = .ok source ∧ compile source = .ok text
  toTheEnd : o.stopAt = none
  canWrite : o.keepIntermediate = true → host.canWrite o.intermediateName = true

/-- The file that is written for the text. -/
def Options.intermediate? (o : Options) (text : String) : Option (String × String) :=
  if o.keepIntermediate then some (o.intermediateName, text) else none

theorem Options.intermediate?_eq_some_iff {text text' name : String} :
    o.intermediate? text = some (name, text') ↔
      o.keepIntermediate = true ∧ name = o.intermediateName ∧ text' = text := by
  rw [Options.intermediate?]
  cases o.keepIntermediate with
  | false => simp
  | true => simp [eq_comm]

theorem Host.Builds.unique {text text' : String} (h : host.Builds o text)
    (h' : host.Builds o text') : text = text' := by
  obtain ⟨source, hread, hcompile⟩ := h.compiles
  obtain ⟨source', hread', hcompile'⟩ := h'.compiles
  obtain rfl := Except.ok.inj (hread.symm.trans hread')
  exact Except.ok.inj (hcompile.symm.trans hcompile')

/-- Where the options lead up to a compiler, it is started. -/
theorem Host.run_of_builds {text : String} (hpath : canBePath o.inputFile = true)
    (h : host.Builds o text) :
    host.run o = .ok (host.build o text (o.intermediate? text)) := by
  obtain ⟨source, hread, hcompile⟩ := h.compiles
  obtain ⟨program, hparse, hc⟩ := compile_eq_ok_iff.mp hcompile
  have hstop := h.toTheEnd
  rw [Host.run, if_pos hpath]
  simp only [hread, hparse]
  rw [Host.compileProgram, if_neg (by simp [hstop])]
  simp only [hc]
  rw [if_neg (by simp [hstop]), Options.intermediate?]
  cases hkeep : o.keepIntermediate with
  | false => rfl
  | true => rw [if_pos rfl, if_pos (h.canWrite hkeep), if_pos rfl]

/-- Where they do not, the command prints something, or complains. -/
theorem Host.run_of_not_builds (hpath : canBePath o.inputFile = true)
    (h : ∀ text, ¬ host.Builds o text) :
    (∃ text, host.run o = .ok (.print text)) ∨
      ∃ message, host.run o = .ok (.complain 1 message) := by
  rw [Host.run, if_pos hpath]
  cases hread : host.readSource o.inputFile with
  | error message => exact .inr ⟨message, rfl⟩
  | ok source =>
    cases hparse : parse source with
    | error e =>
      simp only [hparse]
      exact .inr (SourceError.exists_complaint (parse_blamesText hparse))
    | ok program =>
      simp only [hparse]
      rw [Host.compileProgram]
      by_cases hstop : o.stopAt = some .parse
      · rw [if_pos hstop]
        exact .inl ⟨_, rfl⟩
      · rw [if_neg hstop]
        cases hc : program.toC (.empty NameTable.counting) with
        | error e =>
          exact .inr (CodegenError.exists_complaint
            (Program.toC_faultless _ (completeStmts_of_parse hparse) e hc))
        | ok text =>
          by_cases hstop' : o.stopAt = some .codegen
          · simp only [if_pos hstop']
            exact .inl ⟨_, rfl⟩
          · have hend : o.stopAt = none := by
              cases hphase : o.stopAt with
              | none => rfl
              | some phase => cases phase <;> contradiction
            have hcompiles : ∃ source, host.readSource o.inputFile = .ok source ∧
                compile source = .ok text :=
              ⟨source, hread, compile_eq_ok_iff.mpr ⟨program, hparse, hc⟩⟩
            simp only [if_neg hstop']
            -- all that is left to go wrong is the intermediate file
            by_cases hkeep : o.keepIntermediate = true
            · by_cases hwrite : host.canWrite o.intermediateName = true
              · exact absurd ⟨hcompiles, hend, fun _ => hwrite⟩ (h text)
              · rw [if_pos hkeep, if_neg hwrite]
                exact .inr ⟨_, rfl⟩
            · exact absurd ⟨hcompiles, hend, fun htrue => absurd htrue hkeep⟩ (h text)

end Run

/-! ### Reports -/

/-- A report with a sensible code, whose output fits the code. -/
structure Report.IsOrderly (r : Report) : Prop where
  code : r.code = 0 ∨ r.code = 1 ∨ r.code = 2
  failure : r.code ≠ 0 → r.stdout = "" ∧ ∃ rest, r.stderr = "numc: " ++ rest
  success : r.code = 0 → r.stderr = ""

theorem Report.print_isOrderly (text : String) : (Report.print text).IsOrderly :=
  ⟨.inl rfl, fun h => absurd rfl h, fun _ => rfl⟩

theorem Report.complain_isOrderly {code : Nat} (hcode : code = 1 ∨ code = 2) (message : String) :
    (Report.complain code message).IsOrderly := by
  refine ⟨.inr hcode, fun _ => ⟨rfl, message ++ "\n", ?_⟩, fun hzero => ?_⟩
  · rw [Report.complain, String.append_assoc]
  · rcases hcode with rfl | rfl <;> cases hzero

@[simp]
theorem Host.written_build (host : Host) (o : Options) (text : String)
    (written : Option (String × String)) : (host.build o text written).written = written := rfl

@[simp]
theorem Host.calls_build (host : Host) (o : Options) (text : String)
    (written : Option (String × String)) :
    (host.build o text written).calls = [⟨Toolchain.command o.cc o.outputName, text⟩] := rfl

/-- What a report says after a compiler was started: that it could not be, that it failed, or what
it printed. -/
theorem Host.build_isOrderly (host : Host) (o : Options) (text : String)
    (written : Option (String × String)) :
    (host.build o text written).IsOrderly ∧ (host.build o text written).code ≠ 2 := by
  rw [Host.build, Toolchain.build]
  cases host.toolchain o.cc with
  | none =>
    have h := Report.complain_isOrderly (.inl rfl) ("error: " ++ CompilerMissing.message ⟨o.cc⟩)
    exact ⟨⟨h.code, h.failure, h.success⟩, (by decide : 1 ≠ 2)⟩
  | some result =>
    by_cases hok : result.ok = true
    · simp only [if_pos hok]
      exact ⟨⟨.inl rfl, fun h => absurd rfl h, fun _ => rfl⟩, (by decide : 0 ≠ 2)⟩
    · simp only [if_neg hok]
      refine ⟨⟨.inr (.inl rfl), fun _ => ⟨rfl, ?_⟩, fun hzero => ?_⟩, (by decide : 1 ≠ 2)⟩
      · exact ⟨"program compilation failed" ++ "\n" ++ result.stderr, by
          simp only [Report.complain, String.append_assoc]⟩
      · cases hzero

/-! ### Files -/

theorem slash_not_mem_intermediateName (o : Options) : '/' ∉ o.intermediateName.toList := by
  rw [Options.intermediateName, String.toList_append, List.mem_append, not_or]
  exact ⟨slash_not_mem_pathStem o.inputFile, by decide⟩

namespace FileTree

theorem target?_of_canWrite {t : FileTree} {name : String} (hslash : '/' ∉ name.toList)
    (h : t.canWrite name = true) : t.target? name = some (t.cwd ++ [name]) := by
  rw [canWrite, t.target?_name hslash] at h
  rw [t.target?_name hslash]
  by_cases hholds : t.canHold t.cwd name = true
  · exact if_pos hholds
  · rw [if_neg hholds] at h
    cases h

/-- A report that writes a file of the working directory, if any, changes nothing else. -/
theorem node?_afterWriting (t : FileTree) {r : Report}
    (h : ∀ name text, r.written = some (name, text) → t.target? name = some (t.cwd ++ [name])) :
    (∀ name text, r.written = some (name, text) →
      (t.afterWriting r).node? (t.cwd ++ [name]) = some (.file text.toUTF8)) ∧
    ∀ path, (∀ name text, r.written = some (name, text) → path ≠ t.cwd ++ [name]) →
      (t.afterWriting r).node? path = t.node? path := by
  rw [afterWriting]
  cases hwritten : r.written with
  | none =>
    refine ⟨fun name text hnever => ?_, fun path _ => rfl⟩
    cases hnever
  | some file =>
    obtain ⟨name, text⟩ := file
    have htarget := h name text hwritten
    refine ⟨fun name' text' heq => ?_, fun path hpath => ?_⟩
    · obtain ⟨rfl, rfl⟩ := Prod.mk.inj (Option.some.inj heq)
      exact node?_write_self htarget text.toUTF8
    · refine node?_write_of_ne (fun heq => ?_) text.toUTF8
      exact hpath name text rfl (Option.some.inj (heq.symm.trans htarget))

end FileTree

/-! ### The command -/

namespace Host

variable {host : Host} {arguments : List String}

/-- The source text in the file at a path. -/
theorem readSource_eq_ok_iff {path source : String} :
    host.readSource path = .ok source ↔
      ∃ content, host.read path = .ok content ∧ String.fromUTF8? content = some source := by
  rw [readSource]
  cases host.read path with
  | error fault => simp
  | ok content => cases hutf : String.fromUTF8? content <;> simp [hutf]

/-- The arguments are accepted as the options `o`, and the file that these name can be read, is
valid and compiles to the text. -/
structure Compiles (host : Host) (arguments : List String) (o : Options) (text : String) :
    Prop where
  accepted : Request.ofArguments arguments = .ok (.compile o)
  compiled : ∃ content source, host.read o.inputFile = .ok content ∧
    String.fromUTF8? content = some source ∧ compile source = .ok text

theorem builds_iff {o : Options} {text : String}
    (h : Request.ofArguments arguments = .ok (.compile o)) :
    host.Builds o text ↔
      host.Compiles arguments o text ∧ o.stopAt = none ∧
        (o.keepIntermediate = true → host.canWrite o.intermediateName = true) := by
  constructor
  · intro hbuilds
    obtain ⟨source, hread, hcompile⟩ := hbuilds.compiles
    obtain ⟨content, hcontent, hsource⟩ := readSource_eq_ok_iff.mp hread
    exact ⟨⟨h, content, source, hcontent, hsource, hcompile⟩, hbuilds.toTheEnd, hbuilds.canWrite⟩
  · intro ⟨hcompiles, hend, hwrite⟩
    obtain ⟨content, source, hcontent, hsource, hcompile⟩ := hcompiles.compiled
    have hread := readSource_eq_ok_iff.mpr ⟨content, hcontent, hsource⟩
    exact ⟨⟨source, hread, hcompile⟩, hend, hwrite⟩

/-- Where all goes well up to there, a compiler is started. -/
theorem perform_of_compiles {o : Options} {text : String} (hpath : canBePath o.inputFile = true)
    (hcompiles : host.Compiles arguments o text) (hend : o.stopAt = none)
    (hwrite : o.keepIntermediate = true → host.canWrite o.intermediateName = true) :
    host.perform arguments = .ok (host.build o text (o.intermediate? text)) := by
  rw [perform, hcompiles.accepted, Request.settle]
  exact run_of_builds hpath ((builds_iff hcompiles.accepted).mpr ⟨hcompiles, hend, hwrite⟩)

/-- What a report does beyond printing: it starts a compiler if the arguments lead up to one, and
else nothing. -/
inductive Attempts (host : Host) (arguments : List String) (r : Report) : Prop
  | builds {o : Options} {text : String}
      (accepted : Request.ofArguments arguments = .ok (.compile o)) (builds : host.Builds o text)
      (written : r.written = o.intermediate? text)
      (calls : r.calls = [⟨Toolchain.command o.cc o.outputName, text⟩])
  | rests
      (never : ∀ o text, Request.ofArguments arguments = .ok (.compile o) → ¬ host.Builds o text)
      (written : r.written = none) (calls : r.calls = [])

/-- The command ends with an orderly report that does what it should. -/
theorem exists_attempts (host : Host)
    (hpath : ∀ o, Request.ofArguments arguments = .ok (.compile o) →
      canBePath o.inputFile = true) :
    ∃ r, host.perform arguments = .ok r ∧ r.IsOrderly ∧
      (r.code = 2 ↔ ∃ e, Request.ofArguments arguments = .error e) ∧
      host.Attempts arguments r := by
  rw [perform]
  cases harguments : Request.ofArguments arguments with
  | error e =>
    refine ⟨_, rfl, Report.complain_isOrderly (.inr rfl) _, ⟨fun _ => ⟨e, rfl⟩, fun _ => rfl⟩,
      .rests ?_ rfl rfl⟩
    intro o text hnever
    cases harguments.symm.trans hnever
  | ok request =>
    have hcode : ∀ {r : Report}, r.code ≠ 2 →
        (r.code = 2 ↔ ∃ e, Except.ok request = (Except.error e : Except UsageError Request)) := by
      intro r hr
      exact ⟨fun h => absurd h hr, fun ⟨e, he⟩ => by cases he⟩
    cases request with
    | help =>
      refine ⟨_, rfl, Report.print_isOrderly _, hcode (by decide), .rests ?_ rfl rfl⟩
      intro o text hnever
      cases harguments.symm.trans hnever
    | compile o =>
      simp only [Request.settle]
      have hpath' := hpath o harguments
      by_cases hbuilds : ∃ text, host.Builds o text
      · obtain ⟨text, htext⟩ := hbuilds
        obtain ⟨horderly, hne⟩ := host.build_isOrderly o text (o.intermediate? text)
        exact ⟨_, run_of_builds hpath' htext, horderly, hcode hne,
          .builds harguments htext rfl rfl⟩
      · have hnever : ∀ o' text, Request.ofArguments arguments = .ok (.compile o') →
            ¬ host.Builds o' text := by
          intro o' text heq htext
          obtain rfl := Request.compile.inj (Except.ok.inj (harguments.symm.trans heq))
          exact hbuilds ⟨text, htext⟩
        rcases run_of_not_builds hpath' (fun text h => hbuilds ⟨text, h⟩) with
          ⟨text, hrun⟩ | ⟨message, hrun⟩
        · exact ⟨_, hrun, Report.print_isOrderly _, hcode (by decide : 0 ≠ 2),
            .rests hnever rfl rfl⟩
        · exact ⟨_, hrun, Report.complain_isOrderly (.inl rfl) _, hcode (by decide : 1 ≠ 2),
            .rests hnever rfl rfl⟩

namespace Attempts

variable {r : Report}

theorem length_calls_le (h : host.Attempts arguments r) : r.calls.length ≤ 1 := by
  cases h with
  | builds _ _ _ hcalls => rw [hcalls]; exact Nat.le_refl 1
  | rests _ _ hcalls => rw [hcalls]; exact Nat.zero_le 1

/-- The compiler that is started, and on what conditions. -/
theorem mem_calls_iff (h : host.Attempts arguments r) (call : Invocation) :
    call ∈ r.calls ↔ ∃ o text, host.Compiles arguments o text ∧ o.stopAt = none ∧
      (o.keepIntermediate = true → host.canWrite o.intermediateName = true) ∧
      call = ⟨[o.cc, "-o", o.outputName, "-x", "c", "-O3", "-", "-lm"], text⟩ := by
  cases h with
  | @builds o text haccepted hbuilds _ hcalls =>
    rw [hcalls, List.mem_singleton]
    constructor
    · intro hcall
      obtain ⟨hcompiles, hend, hwrite⟩ := (builds_iff haccepted).mp hbuilds
      exact ⟨o, text, hcompiles, hend, hwrite, hcall⟩
    · intro ⟨o', text', hcompiles, hend, hwrite, hcall⟩
      -- the options and the text are those that the arguments and the file determine
      have hsame := hcompiles.accepted.symm.trans haccepted
      obtain rfl := Request.compile.inj (Except.ok.inj hsame)
      rw [hcall, ((builds_iff haccepted).mpr ⟨hcompiles, hend, hwrite⟩).unique hbuilds]
      rfl
  | rests hnever _ hcalls =>
    rw [hcalls]
    constructor
    · intro hmem
      cases hmem
    · intro ⟨o, text, hcompiles, hend, hwrite, _⟩
      exact absurd ((builds_iff hcompiles.accepted).mpr ⟨hcompiles, hend, hwrite⟩)
        (hnever o text hcompiles.accepted)

/-- The file that is written, and on what conditions. -/
theorem written_iff (h : host.Attempts arguments r) (name text : String) :
    r.written = some (name, text) ↔
      ∃ o, host.Compiles arguments o text ∧ o.stopAt = none ∧ o.keepIntermediate = true ∧
        name = o.intermediateName ∧ host.canWrite name = true := by
  cases h with
  | @builds o text' haccepted hbuilds hwritten _ =>
    rw [hwritten, Options.intermediate?_eq_some_iff]
    constructor
    · intro ⟨hkeep, hname, htext⟩
      subst hname htext
      obtain ⟨hcompiles, hend, hwrite⟩ := (builds_iff haccepted).mp hbuilds
      exact ⟨o, hcompiles, hend, hkeep, rfl, hwrite hkeep⟩
    · intro ⟨o', hcompiles, hend, hkeep, hname, hwrite⟩
      subst hname
      have hsame := hcompiles.accepted.symm.trans haccepted
      obtain rfl := Request.compile.inj (Except.ok.inj hsame)
      exact ⟨hkeep, rfl,
        ((builds_iff haccepted).mpr ⟨hcompiles, hend, fun _ => hwrite⟩).unique hbuilds⟩
  | rests hnever hwritten _ =>
    rw [hwritten]
    constructor
    · intro hnone
      cases hnone
    · intro ⟨o, hcompiles, hend, _, hname, hwrite⟩
      have hbuilds := (builds_iff hcompiles.accepted).mpr
        ⟨hcompiles, hend, fun _ => hname ▸ hwrite⟩
      exact absurd hbuilds (hnever o text hcompiles.accepted)

/-- What is written in a file tree goes to a name in the working directory. -/
theorem target?_of_written {t : FileTree} {toolchain : Toolchain}
    (h : (t.host toolchain).Attempts arguments r) {name text : String}
    (hwritten : r.written = some (name, text)) : t.target? name = some (t.cwd ++ [name]) := by
  obtain ⟨o, -, -, -, hname, hwrite⟩ := (h.written_iff name text).mp hwritten
  refine FileTree.target?_of_canWrite ?_ hwrite
  rw [hname]
  exact slash_not_mem_intermediateName o

end Attempts

/-- The command always ends with a report. Its code is 2 exactly if the arguments are refused; a
failure prints nothing but a complaint and a success no complaint. At most one compiler is started,
namely if all went well up to there, and it is given the C text. The only file that is written is
that for the C text, if it is asked for and can be. Where the surroundings are a file tree, this
file is in the working directory, and the command itself leaves everything else in the tree as it
is. -/
theorem perform_conduct (host : Host) (arguments : List String)
    (hpath : ∀ o, Request.ofArguments arguments = .ok (.compile o) →
      canBePath o.inputFile = true) :
    ∃ r, host.perform arguments = .ok r ∧
      (r.code = 0 ∨ r.code = 1 ∨ r.code = 2) ∧
      (r.code = 2 ↔ ∃ e, Request.ofArguments arguments = .error e) ∧
      (r.code ≠ 0 → r.stdout = "" ∧ ∃ rest, r.stderr = "numc: " ++ rest) ∧
      (r.code = 0 → r.stderr = "") ∧
      r.calls.length ≤ 1 ∧
      (∀ call, call ∈ r.calls ↔ ∃ o text, host.Compiles arguments o text ∧ o.stopAt = none ∧
        (o.keepIntermediate = true → host.canWrite o.intermediateName = true) ∧
        call = ⟨[o.cc, "-o", o.outputName, "-x", "c", "-O3", "-", "-lm"], text⟩) ∧
      (∀ name text, r.written = some (name, text) ↔
        ∃ o, host.Compiles arguments o text ∧ o.stopAt = none ∧ o.keepIntermediate = true ∧
          name = o.intermediateName ∧ host.canWrite name = true) ∧
      ∀ (t : FileTree) (toolchain : Toolchain), host = t.host toolchain →
        (∀ name text, r.written = some (name, text) →
          (t.afterWriting r).node? (t.cwd ++ [name]) = some (.file text.toUTF8)) ∧
        ∀ path, (∀ name text, r.written = some (name, text) → path ≠ t.cwd ++ [name]) →
          (t.afterWriting r).node? path = t.node? path := by
  obtain ⟨r, hperform, horderly, hcode, hattempts⟩ := host.exists_attempts hpath
  refine ⟨r, hperform, horderly.code, hcode, horderly.failure, horderly.success,
    hattempts.length_calls_le, hattempts.mem_calls_iff, hattempts.written_iff, ?_⟩
  intro t toolchain hhost
  subst hhost
  exact t.node?_afterWriting fun name text hwritten => hattempts.target?_of_written hwritten

end Host

theorem FileTree.host_canWrite (t : FileTree) (toolchain : Toolchain) :
    (t.host toolchain).canWrite = t.canWrite := rfl

theorem FileTree.host_compiles {t : FileTree} {toolchain : Toolchain} {arguments : List String}
    {o : Options} {content : ByteArray} {source text : String}
    (haccepted : Request.ofArguments arguments = .ok (.compile o))
    (hread : t.read o.inputFile = .ok content) (hsource : String.fromUTF8? content = some source)
    (hcompile : compile source = .ok text) : (t.host toolchain).Compiles arguments o text :=
  ⟨haccepted, content, source, hread, hsource, hcompile⟩

/-- A working directory with one program, below the root. -/
def FileTree.singleFile : FileTree := ⟨[(["w", "a.nc"], .file "x".toUTF8)], ["w"]⟩

/-- The program is named by its path from the root. A compiler is tried, even though there is none,
and the C text is kept in the working directory. -/
theorem FileTree.singleFile_perform_conduct :
    Request.ofArguments ["-i", "/w/a.nc"] = .ok (.compile ⟨"/w/a.nc", none, true, "gcc", none⟩) ∧
      ∃ r text, (singleFile.host fun _ => none).perform ["-i", "/w/a.nc"] = .ok r ∧
        compile "x" = .ok text ∧ r.code ≠ 2 ∧ r.calls.length ≤ 1 ∧
        ⟨["gcc", "-o", "a", "-x", "c", "-O3", "-", "-lm"], text⟩ ∈ r.calls ∧
        (singleFile.afterWriting r).node? ["w", "a.c"] = some (.file text.toUTF8) := by
  have haccepted : Request.ofArguments ["-i", "/w/a.nc"] =
      .ok (.compile ⟨"/w/a.nc", none, true, "gcc", none⟩) := by decide
  have hread : singleFile.read "/w/a.nc" = .ok "x".toUTF8 := by with_unfolding_all rfl
  have hsource : String.fromUTF8? "x".toUTF8 = some "x" := by decide +kernel
  obtain ⟨text, hcompile⟩ : ∃ text, compile "x" = .ok text := by
    have hsome : (compile "x").toOption.isSome = true := by decide +kernel
    cases hcompile : compile "x" with
    | ok text => exact ⟨text, rfl⟩
    | error e => rw [hcompile] at hsome; cases hsome
  have hcompiles : (singleFile.host fun _ => none).Compiles ["-i", "/w/a.nc"]
      ⟨"/w/a.nc", none, true, "gcc", none⟩ text :=
    host_compiles haccepted hread hsource hcompile
  have hwrite : singleFile.canWrite "a.c" = true := by decide
  obtain ⟨r, hperform, -, hcode, -, -, hone, hcalls, hwritten, hfiles⟩ :=
    (singleFile.host fun _ => none).perform_conduct ["-i", "/w/a.nc"] fun o ho => by
      obtain rfl := Request.compile.inj (Except.ok.inj (haccepted.symm.trans ho))
      decide
  refine ⟨haccepted, r, text, hperform, hcompile, ?_, hone, ?_, ?_⟩
  · intro htwo
    obtain ⟨e, he⟩ := hcode.mp htwo
    rw [haccepted] at he
    cases he
  · have hname : Options.outputName ⟨"/w/a.nc", none, true, "gcc", none⟩ = "a" := by decide
    exact (hcalls _).mpr ⟨_, text, hcompiles, rfl, fun _ => hwrite, by rw [hname]⟩
  · exact (hfiles singleFile _ rfl).1 _ _
      ((hwritten _ _).mpr ⟨_, hcompiles, rfl, rfl, by decide, hwrite⟩)

end NumScript
