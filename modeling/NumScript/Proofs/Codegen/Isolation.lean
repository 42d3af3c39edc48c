import NumScript.Proofs.Codegen.Script

/-!
# NumScript.Proofs.Codegen.Isolation

What surrounds a unit is not seen from within it. A unit is written into lines of its own, starting
at the left margin, and functions and prototypes are only ever added to. So the outcome of writing a
unit depends on the table of names and the current position alone (`Build.units_isolated`): the
lines, the level and what has been built before may differ, also because an earlier unit broke off.

The reason is a frame law for scripts: functions and prototypes in front of those of a builder stay
in front, whether the script succeeds or fails, and change nothing else (`Script.run_behind`).
-/

namespace NumScript

/-! ### Functions and prototypes in front -/

namespace Builder

/-- The builder with finished functions and prototypes in front of its own. -/
def behind (b : Builder) (functions prototypes : List String) : Builder :=
  { b with functions := functions ++ b.functions, prototypes := prototypes ++ b.prototypes }

/-- The builder without all that was built. -/
def cleared (b : Builder) : Builder :=
  { b with lines := [], indent := 0, functions := [], prototypes := [] }

theorem openFunction_behind (b : Builder) (functions prototypes : List String) (p : Pos)
    (names : NameTable) (head : String) :
    (b.behind functions prototypes).openFunction p names head =
      (b.openFunction p names head).behind functions prototypes := by
  simp only [openFunction, declare, moveTo, openUnit, behind, List.append_assoc]

theorem addFunction_behind (b : Builder) (functions prototypes : List String) (text : String) :
    (b.behind functions prototypes).addFunction text =
      (b.addFunction text).behind functions prototypes := by
  simp only [addFunction, behind, List.append_assoc]

/-- A new unit starts like one in a builder in which nothing was built, behind what there is. -/
theorem openUnit_eq_behind (b : Builder) (header : String) :
    b.openUnit header = (b.cleared.openUnit header).behind b.functions b.prototypes := by
  simp only [openUnit, cleared, behind, List.append_nil]

theorem cleared_eq {b c : Builder} (hnames : b.names = c.names) (hpos : b.pos = c.pos) :
    b.cleared = c.cleared := by
  simp only [cleared, hnames, hpos]

end Builder

/-- The result with functions and prototypes in front of those of its builder. -/
def resultBehind (functions prototypes : List String) :
    EStateM.Result CodegenError Builder Unit → EStateM.Result CodegenError Builder Unit
  | .ok _ b => .ok () (b.behind functions prototypes)
  | .error e b => .error e (b.behind functions prototypes)

/-- What stands in front of the functions and prototypes of a builder stays there. -/
theorem Script.Runs.behind {s : Script} {b : Builder}
    {r : EStateM.Result CodegenError Builder Unit} (h : Runs s b r)
    (functions prototypes : List String) :
    Runs s (b.behind functions prototypes) (resultBehind functions prototypes r) := by
  induction h with
  | skip b => exact .skip _
  | seq _ _ ihs iht => exact .seq ihs iht
  | seqFails t _ ih => exact .seqFails t ih
  | closing l b => exact .closing l _
  | statement htexts htext => exact .statement htexts htext
  | exprsFail form herror => exact .exprsFail form herror
  | formFails htexts herror => exact .formFails htexts herror
  | @indented s b b' _ ih => exact Runs.indented (b := b.behind functions prototypes) ih
  | @indentedFails s b b' e _ ih =>
    exact Runs.indentedFails (b := b.behind functions prototypes) ih
  | @define p name symbol head params body names b b' returnsZero hname hhead _ ih =>
    rw [← Builder.openFunction_behind] at ih
    have hruns := Runs.define (b := b.behind functions prototypes) returnsZero hname hhead ih
    -- the unit around the function has its own lines back, and the function is behind the others
    have hleft : (b'.behind functions prototypes).backTo (b.behind functions prototypes) =
        (b'.backTo b).behind functions prototypes := rfl
    rw [hleft, Builder.addFunction_behind] at hruns
    exact hruns
  | @defineFails p name symbol head params body names b b' e returnsZero hname hhead _ ih =>
    rw [← Builder.openFunction_behind] at ih
    exact Runs.defineFails (b := b.behind functions prototypes) returnsZero hname hhead ih
  | redefined returnsZero body hname => exact .redefined returnsZero body hname
  | hole p b => exact .hole p _

theorem Script.run_behind (s : Script) (b : Builder) (functions prototypes : List String) :
    s.run (b.behind functions prototypes) = resultBehind functions prototypes (s.run b) :=
  ((runs_run s b).behind functions prototypes).run_eq

/-! ### Two builders -/

/-- From `b` to `b'` the same functions and prototypes are added as from `c` to `c'`, and both end
with one table and one position. -/
structure SameAdditions (b b' c c' : Builder) : Prop where
  names : b'.names = c'.names
  pos : b'.pos = c'.pos
  functions : ∃ added, b'.functions = b.functions ++ added ∧ c'.functions = c.functions ++ added
  prototypes : ∃ added, b'.prototypes = b.prototypes ++ added ∧
    c'.prototypes = c.prototypes ++ added

/-- Two outcomes of writing a unit, on the builders `b` and `c`, that differ in nothing that was
written: the same text, with the lines and the level as they were, or the same error. -/
inductive SameOutcome (b c : Builder) :
    EStateM.Result CodegenError Builder String → EStateM.Result CodegenError Builder String → Prop
  | ok {text : String} {b' c' : Builder} (added : SameAdditions b b' c c')
      (lines : b'.lines = b.lines ∧ c'.lines = c.lines)
      (indent : b'.indent = b.indent ∧ c'.indent = c.indent) :
      SameOutcome b c (.ok text b') (.ok text c')
  | error {e : CodegenError} {b' c' : Builder} (added : SameAdditions b b' c c') :
      SameOutcome b c (.error e b') (.error e c')

section Isolation

variable {b c : Builder}

theorem SameAdditions.of_declare {b' c' : Builder} {names : NameTable} {head : String}
    (h : SameAdditions (b.declare names head) b' (c.declare names head) c') :
    SameAdditions b b' c c' := by
  obtain ⟨added, hb, hc⟩ := h.prototypes
  refine ⟨h.names, h.pos, h.functions, [head ++ ";"] ++ added, ?_, ?_⟩
  · rw [hb, ← List.append_assoc]
    rfl
  · rw [hc, ← List.append_assoc]
    rfl

/-- The prototype of a function is among what writing it adds. -/
theorem SameOutcome.of_declare {names : NameTable} {head : String}
    {r r' : EStateM.Result CodegenError Builder String}
    (h : SameOutcome (b.declare names head) (c.declare names head) r r') :
    SameOutcome b c r r' := by
  cases h with
  | ok added lines indent => exact .ok added.of_declare lines indent
  | error added => exact .error added.of_declare

namespace Build

/-- A unit is written in the same way wherever table and position are the same. -/
theorem unit_isolated (hnames : b.names = c.names) (hpos : b.pos = c.pos) (header : String)
    (returnsZero : Bool) (s : Script) :
    SameOutcome b c (unit header returnsZero s.run b) (unit header returnsZero s.run c) := by
  have hb : s.run (b.openUnit header) =
      resultBehind b.functions b.prototypes (s.run (b.cleared.openUnit header)) := by
    rw [b.openUnit_eq_behind, s.run_behind]
  have hc : s.run (c.openUnit header) =
      resultBehind c.functions c.prototypes (s.run (b.cleared.openUnit header)) := by
    rw [c.openUnit_eq_behind, s.run_behind, Builder.cleared_eq hnames hpos]
  cases hrun : s.run (b.cleared.openUnit header) with
  | ok u d =>
    rw [hrun] at hb hc
    have hadded : SameAdditions b ((d.behind b.functions b.prototypes).backTo b) c
        ((d.behind c.functions c.prototypes).backTo c) :=
      ⟨rfl, rfl, ⟨d.functions, rfl, rfl⟩, ⟨d.prototypes, rfl, rfl⟩⟩
    rw [unit_ok hb, unit_ok hc]
    exact .ok hadded ⟨rfl, rfl⟩ ⟨rfl, rfl⟩
  | error e d =>
    rw [hrun] at hb hc
    rw [unit_error hb, unit_error hc]
    exact .error ⟨rfl, rfl, ⟨d.functions, rfl, rfl⟩, ⟨d.prototypes, rfl, rfl⟩⟩

theorem function_isolated (hnames : b.names = c.names) (hpos : b.pos = c.pos) (pos? : Option Pos)
    (name : String) (params : List String) (returnsZero : Bool) (s : Script) :
    SameOutcome b c (function pos? name params returnsZero s.run b)
      (function pos? name params returnsZero s.run c) := by
  cases hname : b.names.define name params.length (pos?.getD b.pos) with
  | error e =>
    have hname' : c.names.define name params.length (pos?.getD c.pos) = .error e := by
      rw [← hnames, ← hpos, hname]
    rw [function_error hname, function_error hname']
    exact .error ⟨hnames, hpos, ⟨[], by simp⟩, ⟨[], by simp⟩⟩
  | ok defined =>
    obtain ⟨symbol, names⟩ := defined
    have hname' : c.names.define name params.length (pos?.getD c.pos) = .ok (symbol, names) := by
      rw [← hnames, ← hpos, hname]
    rw [function_eq_unit hname, function_eq_unit hname']
    -- both builders have the new table now, and the position is still the same
    have hunit := unit_isolated (b := b.declare names (signature symbol params))
      (c := c.declare names (signature symbol params)) rfl hpos (signature symbol params ++ " \x7b")
      returnsZero s
    exact hunit.of_declare

/-- Two builders with the same table of names, its suffixes included, and the same position may
differ in their lines, their level, their functions and their prototypes. Writing a unit, the entry
unit or that of a function, yields the same text or fails with the same error on both, leaves the
same table and position, and adds the same functions and prototypes. If it does not fail, the lines
and the level are what they were. -/
theorem units_isolated (hnames : b.names = c.names) (hpos : b.pos = c.pos) (body : List Stmt) :
    SameOutcome b c (entry body b) (entry body c) ∧
    ∀ (pos? : Option Pos) (name : String) (params : List String),
      SameOutcome b c (functionOf pos? name params body b)
        (functionOf pos? name params body c) := by
  constructor
  · rw [entry_eq_unit]
    exact unit_isolated hnames hpos _ true _
  · intro pos? name params
    rw [functionOf, stmts_eq_run]
    exact function_isolated hnames hpos pos? name params _ _

end Build

end Isolation

/-- What is left of a builder if a function breaks off within a loop. -/
def brokenOff : Builder :=
  match Build.functionOf none "g" [] [.loop ⟨1, 1⟩ (.ident "x") [.expr ⟨2, 1⟩ (.call "h" [])]]
      (.start (.empty NameTable.counting)) with
  | .ok _ b => b
  | .error _ b => b

/-- The next function is written as if nothing was left, also one that holds another. -/
theorem brokenOff_units_isolated :
    brokenOff.lines = ["double f1_g(void) \x7b", "    while (x) \x7b"] ∧ brokenOff.indent = 2 ∧
    brokenOff.names = brokenOff.cleared.names ∧ brokenOff.pos = brokenOff.cleared.pos ∧
    SameOutcome brokenOff brokenOff.cleared
      (Build.functionOf none "k" ["a"] [.define ⟨3, 1⟩ "m" [] [], .expr ⟨4, 1⟩ (.call "m" [])]
        brokenOff)
      (Build.functionOf none "k" ["a"] [.define ⟨3, 1⟩ "m" [] [], .expr ⟨4, 1⟩ (.call "m" [])]
        brokenOff.cleared) := by
  have hnames : brokenOff.names = brokenOff.cleared.names := rfl
  have hpos : brokenOff.pos = brokenOff.cleared.pos := rfl
  refine ⟨by decide +kernel, by decide +kernel, hnames, hpos, ?_⟩
  exact (Build.units_isolated hnames hpos _).2 none "k" ["a"]

end NumScript
