import Mathlib.Data.List.Forall2
import NumScript.Proofs.Codegen.Script

/-!
# NumScript.Proofs.Codegen.Growth

What code generation never takes back. A run of a script, whether it succeeds or fails and wherever
it fails, only adds definitions, prototypes and functions to a builder, each behind those that are
there (`Script.Runs.grows`), and it keeps the prototypes in step with the definitions
(`Script.Runs.matched`). With lines it is different: a unit that fails leaves its own lines in place
of those of the unit around it, and only one that is finished puts these back (`Script.Runs.lines`).
-/

namespace NumScript

theorem exists_of_bind_eq_ok {α β : Type} {x : Except CodegenError α}
    {f : α → Except CodegenError β} {b : β} (h : (x >>= f) = .ok b) :
    ∃ a, x = .ok a ∧ f a = .ok b := by
  cases x with
  | error e => cases h
  | ok a => exact ⟨a, rfl, h⟩

/-! ### Tables of names -/

namespace NameTable

/-- Every definition has the symbol that belongs to its name and its place, and no name is defined
twice. -/
structure IsRegular (t : NameTable) : Prop where
  symbol : ∀ (i : Nat) (d : Definition), t.definitions[i]? = some d →
    d.symbol = mangle (t.suffix i) d.name
  distinct : (t.definitions.map Definition.name).Nodup

/-- The table has the definitions of an earlier one and further ones behind them. -/
structure Extends (t t' : NameTable) : Prop where
  suffix : t'.suffix = t.suffix
  definitions : t.definitions <+: t'.definitions

theorem isRegular_empty (suffix : Nat → String) : (empty suffix).IsRegular :=
  ⟨fun _ _ h => absurd h (by simp [empty]), List.nodup_nil⟩

theorem Extends.refl (t : NameTable) : t.Extends t := ⟨rfl, List.prefix_refl _⟩

theorem Extends.trans {t t' t'' : NameTable} (h : t.Extends t') (h' : t'.Extends t'') :
    t.Extends t'' :=
  ⟨h'.suffix.trans h.suffix, h.definitions.trans h'.definitions⟩

theorem mem_of_find? {t : NameTable} {name : String} {d : Definition}
    (h : t.find? name = some d) : d ∈ t.definitions ∧ d.name = name :=
  ⟨List.mem_of_find?_eq_some h, by simpa using List.find?_some h⟩

theorem not_mem_of_find?_eq_none {t : NameTable} {name : String} (h : t.find? name = none) :
    name ∉ t.definitions.map Definition.name := by
  intro hmem
  obtain ⟨d, hd, rfl⟩ := List.mem_map.mp hmem
  exact absurd (List.find?_eq_none.mp h d hd) (by simp)

theorem extends_of_define {t t' : NameTable} {name symbol : String} {arity : Int} {p : Pos}
    (h : t.define name arity p = .ok (symbol, t')) : t.Extends t' := by
  obtain ⟨-, -, rfl⟩ := define_eq_ok_iff.mp h
  exact ⟨rfl, List.prefix_append _ _⟩

theorem IsRegular.define {t t' : NameTable} (ht : t.IsRegular) {name symbol : String} {arity : Int}
    {p : Pos} (h : t.define name arity p = .ok (symbol, t')) : t'.IsRegular := by
  obtain ⟨hnew, rfl, rfl⟩ := define_eq_ok_iff.mp h
  constructor
  · intro i d hd
    rcases Nat.lt_or_ge i t.definitions.length with hi | hi
    · rw [List.getElem?_append_left hi] at hd
      exact ht.symbol i d hd
    · rw [List.getElem?_append_right hi] at hd
      rw [List.getElem?_singleton] at hd
      split at hd
      · rename_i hzero
        have hsize : i = t.size := Nat.le_antisymm (Nat.sub_eq_zero_iff_le.mp hzero) hi
        cases hd
        rw [hsize]
      · cases hd
  · show ((t.definitions ++ [_]).map Definition.name).Nodup
    rw [List.map_append, List.nodup_append]
    refine ⟨ht.distinct, by simp, ?_⟩
    intro a ha b hb hab
    obtain rfl : b = name := List.mem_singleton.mp hb
    exact not_mem_of_find?_eq_none hnew (hab ▸ ha)

end NameTable

/-! ### Builders -/

/-- The prototype declares the symbol of the definition, with as many parameters as are on
record. -/
def Declares (d : Definition) (prototype : String) : Prop :=
  ∃ params : List String, d.arity = params.length ∧
    prototype = Build.signature d.symbol params ++ ";"

namespace Builder

/-- The builder has what an earlier one has, and more of it only at the end. -/
structure Grows (b b' : Builder) : Prop where
  names : b.names.Extends b'.names
  prototypes : b.prototypes <+: b'.prototypes
  functions : b.functions <+: b'.functions

theorem Grows.refl (b : Builder) : b.Grows b :=
  ⟨.refl _, List.prefix_refl _, List.prefix_refl _⟩

/-- Lines, level and position are free to change. -/
theorem Grows.same {b b' : Builder} (hnames : b'.names = b.names)
    (hprototypes : b'.prototypes = b.prototypes) (hfunctions : b'.functions = b.functions) :
    b.Grows b' :=
  ⟨hnames ▸ .refl _, hprototypes ▸ List.prefix_refl _, hfunctions ▸ List.prefix_refl _⟩

theorem Grows.declare {b : Builder} {name symbol : String} {arity : Int} {p : Pos}
    {names : NameTable} (h : b.names.define name arity p = .ok (symbol, names)) (head : String) :
    b.Grows (b.declare names head) :=
  ⟨NameTable.extends_of_define h, List.prefix_append _ _, List.prefix_refl _⟩

theorem Grows.openFunction {b : Builder} {name symbol : String} {arity : Int} {p : Pos}
    {names : NameTable} (h : b.names.define name arity p = .ok (symbol, names)) (head : String) :
    b.Grows (b.openFunction p names head) :=
  have hdeclared := Grows.declare h head
  ⟨hdeclared.names, hdeclared.prototypes, hdeclared.functions⟩

theorem Grows.trans {b b' b'' : Builder} (h : b.Grows b') (h' : b'.Grows b'') : b.Grows b'' :=
  ⟨h.names.trans h'.names, h.prototypes.trans h'.prototypes, h.functions.trans h'.functions⟩

/-- There is one prototype for each definition, in the order of the definitions. -/
structure Matched (b : Builder) : Prop where
  regular : b.names.IsRegular
  prototypes : List.Forall₂ Declares b.names.definitions b.prototypes

theorem Matched.declare {b : Builder} (hb : b.Matched) {name symbol : String}
    {params : List String} {p : Pos} {names : NameTable}
    (h : b.names.define name params.length p = .ok (symbol, names)) :
    (b.declare names (Build.signature symbol params)).Matched := by
  refine ⟨hb.regular.define h, ?_⟩
  obtain ⟨-, -, rfl⟩ := NameTable.define_eq_ok_iff.mp h
  exact List.rel_append hb.prototypes (.cons ⟨params, rfl, rfl⟩ .nil)

theorem Matched.openFunction {b : Builder} (hb : b.Matched) {name symbol : String}
    {params : List String} {p : Pos} {names : NameTable}
    (h : b.names.define name params.length p = .ok (symbol, names)) :
    (b.openFunction p names (Build.signature symbol params)).Matched :=
  have hdeclared := hb.declare h
  ⟨hdeclared.regular, hdeclared.prototypes⟩

end Builder

/-! ### Runs -/

/-- The builder that a run leaves. -/
def builderLeft : EStateM.Result CodegenError Builder Unit → Builder
  | .ok _ b => b
  | .error _ b => b

namespace Script.Runs

/-- A run only adds to a builder. -/
theorem grows {s : Script} {b : Builder} {r : EStateM.Result CodegenError Builder Unit}
    (h : Runs s b r) : b.Grows (builderLeft r) := by
  induction h with
  | skip b => exact .refl b
  | seq _ _ ihs iht => exact ihs.trans iht
  | seqFails t _ ih => exact ih
  | closing l b => exact .same rfl rfl rfl
  | statement _ _ => exact .same rfl rfl rfl
  | exprsFail _ _ => exact .same rfl rfl rfl
  | formFails _ _ => exact .same rfl rfl rfl
  | indented _ ih => exact ⟨ih.names, ih.prototypes, ih.functions⟩
  | indentedFails _ ih => exact ⟨ih.names, ih.prototypes, ih.functions⟩
  | define returnsZero hname _ _ ih =>
    have hbody := (Builder.Grows.openFunction hname _).trans ih
    exact ⟨hbody.names, hbody.prototypes, hbody.functions.trans (List.prefix_append _ _)⟩
  | defineFails returnsZero hname _ _ ih => exact (Builder.Grows.openFunction hname _).trans ih
  | redefined returnsZero body _ => exact .same rfl rfl rfl
  | hole p b => exact .same rfl rfl rfl

/-- A run keeps the prototypes in step with the definitions. -/
theorem matched {s : Script} {b : Builder} {r : EStateM.Result CodegenError Builder Unit}
    (h : Runs s b r) : b.Matched → (builderLeft r).Matched := by
  induction h with
  | seq _ _ ihs iht => exact fun hb => iht (ihs hb)
  | seqFails t _ ih => exact ih
  | indented _ ih =>
    intro hb
    have hbody := ih ⟨hb.regular, hb.prototypes⟩
    exact ⟨hbody.regular, hbody.prototypes⟩
  | indentedFails _ ih => exact fun hb => ih ⟨hb.regular, hb.prototypes⟩
  | define returnsZero hname hhead _ ih =>
    intro hb
    subst hhead
    have hbody := ih (hb.openFunction hname)
    exact ⟨hbody.regular, hbody.prototypes⟩
  | defineFails returnsZero hname hhead _ ih =>
    intro hb
    subst hhead
    exact ih (hb.openFunction hname)
  | _ => exact fun hb => ⟨hb.regular, hb.prototypes⟩

/-- A run that succeeds only adds lines to the unit, and ends at the level where it started. -/
theorem lines {s : Script} {b b' : Builder} (h : Runs s b (.ok () b')) :
    b.lines <+: b'.lines ∧ b'.indent = b.indent := by
  generalize hr : (EStateM.Result.ok () b' : EStateM.Result CodegenError Builder Unit) = r at h
  induction h generalizing b' with
  | skip b =>
    cases hr
    exact ⟨List.prefix_refl _, rfl⟩
  | seq _ _ ihs iht =>
    obtain ⟨hlines, hindent⟩ := ihs rfl
    obtain ⟨hlines', hindent'⟩ := iht hr
    exact ⟨hlines.trans hlines', hindent'.trans hindent⟩
  | closing l b =>
    cases hr
    exact ⟨List.prefix_append _ _, rfl⟩
  | statement _ _ =>
    cases hr
    exact ⟨List.prefix_append _ _, rfl⟩
  | indented _ ih =>
    cases hr
    obtain ⟨hlines, hindent⟩ := ih rfl
    refine ⟨hlines, ?_⟩
    show _ - 1 = _
    rw [hindent]
    rfl
  | define returnsZero _ _ _ _ =>
    cases hr
    exact ⟨List.prefix_refl _, rfl⟩
  | _ => cases hr

end Script.Runs

end NumScript
