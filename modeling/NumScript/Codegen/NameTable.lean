import NumScript.Codegen.Error

/-!
# NumScript.Codegen.NameTable

The functions defined so far. Every definition ends up at the top level of the C text, so each gets
a symbol of its own, made from its name and a suffix. A table only grows, and the suffix of a
definition is the one at its place in the order of definitions; an attempt to define a name twice
changes nothing and uses up no suffix. The table records an arity as it is given, whatever integer
it is, and a call has to match it.
-/

namespace NumScript

/-- A function that has been defined. -/
structure Definition where
  name : String
  symbol : String
  arity : Int
  pos : Pos
deriving DecidableEq, Repr

/-- The definitions in order, and the suffix for each place in that order. -/
structure NameTable where
  suffix : Nat → String
  definitions : List Definition

namespace NameTable

/-- The suffixes `1`, `2`, `3` and so on. -/
def counting (k : Nat) : String := toString (k + 1)

/-- The given suffixes, and after them `1`, `2`, `3` and so on. -/
def listed (given : List String) (k : Nat) : String :=
  match given[k]? with
  | some suffix => suffix
  | none => counting (k - given.length)

/-- The table without definitions. -/
def empty (suffix : Nat → String) : NameTable := ⟨suffix, []⟩

/-- The number of definitions. -/
def size (t : NameTable) : Nat := t.definitions.length

/-- The definition of a name. -/
def find? (t : NameTable) (name : String) : Option Definition :=
  t.definitions.find? (·.name == name)

/-- Whether a name is defined. -/
def contains (t : NameTable) (name : String) : Bool := (t.find? name).isSome

/-- The symbol of the function with a given name. -/
def symbol? (t : NameTable) (name : String) : Option String := (t.find? name).map Definition.symbol

/-- The arity on record for the function with a given name. -/
def arity? (t : NameTable) (name : String) : Option Int := (t.find? name).map Definition.arity

/-- The symbol made from a suffix and a name. -/
def mangle (suffix name : String) : String := "f" ++ suffix ++ "_" ++ name

/-- Defines a function, yielding its symbol and the table with it. -/
def define (t : NameTable) (name : String) (arity : Int) (pos : Pos) :
    Except CodegenError (String × NameTable) :=
  match t.find? name with
  | some first => .error (.redefined name first.pos pos)
  | none =>
    let symbol := mangle (t.suffix t.size) name
    .ok (symbol, { t with definitions := t.definitions ++ [⟨name, symbol, arity, pos⟩] })

@[simp]
theorem size_empty (suffix : Nat → String) : (empty suffix).size = 0 := rfl

/-- A successful definition adds one entry at the end. -/
theorem define_eq_ok_iff {t t' : NameTable} {name symbol : String} {arity : Int} {pos : Pos} :
    t.define name arity pos = .ok (symbol, t') ↔
      t.find? name = none ∧ symbol = mangle (t.suffix t.size) name ∧
        t' = { t with definitions := t.definitions ++ [⟨name, symbol, arity, pos⟩] } := by
  cases h : t.find? name with
  | some first => simp [define, h]
  | none =>
    simp only [define, h, Except.ok.injEq, Prod.mk.injEq, true_and]
    constructor <;> (rintro ⟨rfl, rfl⟩; exact ⟨rfl, rfl⟩)

/-- A definition fails exactly if the name is taken, and then reports where. -/
theorem define_eq_error_iff {t : NameTable} {name : String} {arity : Int} {pos : Pos}
    {e : CodegenError} :
    t.define name arity pos = .error e ↔
      ∃ first, t.find? name = some first ∧ e = .redefined name first.pos pos := by
  cases h : t.find? name with
  | some first => simp [define, h, eq_comm]
  | none => simp [define, h]

end NameTable

end NumScript
