import NumScript.Codegen.NameTable
import NumScript.Dictionary

/-!
# NumScript.Codegen.FunctionNames

The table of function names as it is kept: a dictionary for the symbols, one for the arities and one
for the places of the definitions, and a source that has a state of its own and yields the suffixes.
A definition asks the source for a suffix and then fills the dictionaries one after the other, and a
call reads first the symbol and then the arity. Where a dictionary lacks a key that it is asked for,
that is a fault of the table and not of the program.
-/

namespace NumScript

/-! ### Suffixes -/

/-- A source of suffixes: its state, and what it yields in a state together with the state
after. -/
structure SuffixSource (σ : Type) where
  state : σ
  next : σ → String × σ

namespace SuffixSource

variable {σ : Type}

/-- The suffix that comes next. -/
def peek (s : SuffixSource σ) : String := (s.next s.state).1

/-- The source after the next suffix was taken. -/
def advance (s : SuffixSource σ) : SuffixSource σ := { s with state := (s.next s.state).2 }

/-- Yields `1`, `2`, `3` and so on. The state is the number that was yielded last. -/
def counter : SuffixSource Nat := ⟨0, fun last => (toString (last + 1), last + 1)⟩

/-- Yields the given suffixes, and then those of another source. -/
def preceded (given : List String) (s : SuffixSource σ) : SuffixSource (List String × σ) where
  state := (given, s.state)
  next := fun (given, state) =>
    match given with
    | suffix :: given => (suffix, given, state)
    | [] => ((s.next state).1, [], (s.next state).2)

end SuffixSource

/-! ### The table -/

/-- Why a request to a table of names fails. -/
inductive NameFault where
  /-- The program is at fault. -/
  | codegen (e : CodegenError)
  /-- A dictionary lacks the key. -/
  | missing (key : String)
deriving DecidableEq, Repr

/-- The functions defined so far. -/
structure FunctionNames (σ : Type) where
  suffixes : SuffixSource σ
  /-- The symbols. -/
  mangled : Dictionary String
  /-- The numbers of parameters. -/
  arities : Dictionary Int
  /-- The places of the definitions. -/
  definedAt : Dictionary Pos

namespace FunctionNames

variable {σ : Type}

/-- The table without functions. -/
def start (suffixes : SuffixSource σ) : FunctionNames σ := ⟨suffixes, .empty, .empty, .empty⟩

/-- The number of functions. -/
def size (t : FunctionNames σ) : Nat := t.mangled.size

/-- Whether a function has the name. -/
def contains (t : FunctionNames σ) (name : String) : Bool := t.mangled.contains name

/-- The symbol of the function with a given name. -/
def lookup (t : FunctionNames σ) (name : String) : Option String := t.mangled.get? name

/-- The value under a key that has to be there. -/
def require {α : Type} (d : Dictionary α) (key : String) : Except NameFault α :=
  match d.get? key with
  | some value => .ok value
  | none => .error (.missing key)

/-- The number of parameters of the function with a given name. -/
def arity (t : FunctionNames σ) (name : String) : Except NameFault Int := require t.arities name

/-- Takes a suffix from the source. -/
def takeSuffix : EStateM NameFault (FunctionNames σ) String := do
  let t ← get
  set { t with suffixes := t.suffixes.advance }
  return t.suffixes.peek

/-- Enters a function under a new name. -/
def enter (name : String) (arity : Int) (pos : Pos) :
    EStateM NameFault (FunctionNames σ) String := do
  let symbol := NameTable.mangle (← takeSuffix) name
  modify fun t => { t with mangled := t.mangled.put name symbol }
  modify fun t => { t with arities := t.arities.put name arity }
  modify fun t => { t with definedAt := t.definedAt.put name pos }
  return symbol

/-- Refuses a function under a name that is taken, telling where. -/
def refuse (name : String) (pos : Pos) : EStateM NameFault (FunctionNames σ) String := do
  let first ← MonadExcept.ofExcept (require (← get).definedAt name)
  throw (.codegen (.redefined name first pos))

/-- Defines a function and yields its symbol. -/
def define (name : String) (arity : Int) (pos : Pos) :
    EStateM NameFault (FunctionNames σ) String := do
  if (← get).contains name then refuse name pos else enter name arity pos

/-- The symbol for a call of `name` with `given` arguments; errors blame the position `p`. -/
def callee (t : FunctionNames σ) (name : String) (given : Nat) (p : Pos) :
    Except NameFault String :=
  match t.lookup name with
  | none => .error (.codegen (.undefined name p))
  | some symbol => do
    let expected ← t.arity name
    if expected = given then return symbol
    else .error (.codegen (.arity name expected given p))

end FunctionNames

/-! ### Requests -/

/-- Something that is asked of a table of names. -/
inductive NameRequest where
  | define (name : String) (arity : Int) (pos : Pos)
  | lookup (name : String)
  | arity (name : String)
  | contains (name : String)

/-- What a table of names answers. -/
inductive NameAnswer where
  /-- The symbol of a function that was just defined. -/
  | defined (symbol : String)
  /-- The error of a definition that failed. -/
  | failed (e : CodegenError)
  /-- The symbol of a function, if there is one with the name. -/
  | symbol (symbol? : Option String)
  /-- The arity on record. -/
  | arity (arity : Int)
  /-- Nothing is on record for the name. -/
  | unknown (name : String)
  /-- Whether there is a function with the name. -/
  | contained (answer : Bool)
deriving DecidableEq

/-- A fault as an answer. -/
def NameFault.answer : NameFault → NameAnswer
  | .codegen e => .failed e
  | .missing key => .unknown key

namespace FunctionNames

variable {σ : Type}

/-- Answers a request. -/
def perform (t : FunctionNames σ) : NameRequest → NameAnswer × FunctionNames σ
  | .define name arity pos =>
    match (define name arity pos).run t with
    | .ok symbol t' => (.defined symbol, t')
    | .error fault t' => (fault.answer, t')
  | .lookup name => (.symbol (t.lookup name), t)
  | .arity name =>
    match t.arity name with
    | .ok arity => (.arity arity, t)
    | .error fault => (fault.answer, t)
  | .contains name => (.contained (t.contains name), t)

/-- The table after requests. -/
def after (t : FunctionNames σ) (requests : List NameRequest) : FunctionNames σ :=
  requests.foldl (fun t request => (t.perform request).2) t

/-- The answers to requests, each with the size that the table has then. -/
def replies (t : FunctionNames σ) : List NameRequest → List (NameAnswer × Nat)
  | [] => []
  | request :: requests =>
    ((t.perform request).1, (t.perform request).2.size) :: (t.perform request).2.replies requests

end FunctionNames

end NumScript
