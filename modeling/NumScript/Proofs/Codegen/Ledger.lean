import Mathlib.Data.List.Nodup
import NumScript.Codegen.FunctionNames

/-!
# NumScript.Proofs.Codegen.Ledger

A list of definitions in use as a table of names. Whatever is asked of it, in whatever order and
with whatever success, entries are only ever appended. The list is described by what it says about
its members (`Answers`), and a history of requests (`History`) threads the list and the suffixes to
come through them: a new entry takes the suffix that comes next, and nothing else takes one.

A single request is answered as the list says (`NameTable.Represents.perform`), so a whole sequence
of them is a history, and the entries stay (`NameTable.Represents.history`).
-/

namespace NumScript

/-! ### Requests -/

namespace NameTable

/-- Answers a request. Only a definition that succeeds changes the table. -/
def perform (t : NameTable) : NameRequest → NameAnswer × NameTable
  | .define name arity pos =>
    match t.define name arity pos with
    | .ok (symbol, t') => (.defined symbol, t')
    | .error e => (.failed e, t)
  | .lookup name => (.symbol (t.symbol? name), t)
  | .arity name =>
    match t.arity? name with
    | some arity => (.arity arity, t)
    | none => (.unknown name, t)
  | .contains name => (.contained (t.contains name), t)

/-- The table after requests. -/
def after (t : NameTable) (requests : List NameRequest) : NameTable :=
  requests.foldl (fun t request => (t.perform request).2) t

/-- The answers to requests, each with the size that the table has then. -/
def replies (t : NameTable) : List NameRequest → List (NameAnswer × Nat)
  | [] => []
  | request :: requests =>
    ((t.perform request).1, (t.perform request).2.size) :: (t.perform request).2.replies requests

theorem after_append (t : NameTable) (requests further : List NameRequest) :
    t.after (requests ++ further) = (t.after requests).after further := List.foldl_append

end NameTable

/-! ### Entries -/

/-- A definition that was made. -/
structure Entry where
  name : String
  suffix : String
  arity : Int
  pos : Pos

/-- The symbol of the function. -/
def Entry.symbol (e : Entry) : String := "f" ++ e.suffix ++ "_" ++ e.name

/-- The error of defining a function with the name of the entry again, at `pos`. -/
def Entry.redefined (e : Entry) (pos : Pos) : CodegenError := .redefined e.name e.pos pos

/-- The error blames the new definition and names the place of the first. -/
theorem Entry.redefined_blames (e : Entry) (pos : Pos) :
    (e.redefined pos).pos? = some pos ∧
      (e.redefined pos).message = "function '" ++ e.name ++ "' already defined at line " ++
        toString e.pos.line ++ " col " ++ toString e.pos.col := by
  have hplace : "' already defined at line " = "' already defined" ++ " at line " := by decide
  refine ⟨rfl, ?_⟩
  show "function '" ++ e.name ++ "' already defined" ++ e.pos.note = _
  rw [Pos.note, hplace]
  simp only [String.append_assoc]

/-- `Answers entries suffix request answer added`: asked for `request`, the list answers `answer`
and has the entries `added` appended. The suffix that comes next is `suffix`. -/
inductive Answers (entries : List Entry) (suffix : String) :
    NameRequest → NameAnswer → List Entry → Prop
  | redefine {e : Entry} (h : e ∈ entries) (arity : Int) (pos : Pos) :
      Answers entries suffix (.define e.name arity pos) (.failed (e.redefined pos)) []
  | define {name : String} (h : ∀ e ∈ entries, e.name ≠ name) (arity : Int) (pos : Pos) :
      Answers entries suffix (.define name arity pos) (.defined ("f" ++ suffix ++ "_" ++ name))
        [⟨name, suffix, arity, pos⟩]
  | lookup {e : Entry} (h : e ∈ entries) :
      Answers entries suffix (.lookup e.name) (.symbol (some e.symbol)) []
  | lookupFails {name : String} (h : ∀ e ∈ entries, e.name ≠ name) :
      Answers entries suffix (.lookup name) (.symbol none) []
  | arity {e : Entry} (h : e ∈ entries) :
      Answers entries suffix (.arity e.name) (.arity e.arity) []
  | arityFails {name : String} (h : ∀ e ∈ entries, e.name ≠ name) :
      Answers entries suffix (.arity name) (.unknown name) []
  | contains {e : Entry} (h : e ∈ entries) :
      Answers entries suffix (.contains e.name) (.contained true) []
  | containsNot {name : String} (h : ∀ e ∈ entries, e.name ≠ name) :
      Answers entries suffix (.contains name) (.contained false) []

/-- `History supply entries requests replies supply' entries'`: from the list `entries` on, with the
suffixes `supply` to come, the requests have the replies and lead to the list `entries'` with the
suffixes `supply'` to come. Each entry that is added takes one suffix. -/
inductive History : (Nat → String) → List Entry → List NameRequest → List (NameAnswer × Nat) →
    (Nat → String) → List Entry → Prop
  | done (supply : Nat → String) (entries : List Entry) :
      History supply entries [] [] supply entries
  | step {supply supply' : Nat → String} {entries added entries' : List Entry}
      {request : NameRequest} {requests : List NameRequest} {answer : NameAnswer}
      {replies : List (NameAnswer × Nat)}
      (answers : Answers entries (supply 0) request answer added)
      (rest : History (fun k => supply (added.length + k)) (entries ++ added) requests replies
        supply' entries') :
      History supply entries (request :: requests)
        ((answer, (entries ++ added).length) :: replies) supply' entries'

/-! ### Tables as lists of entries -/

namespace NameTable

/-- The table holds exactly these entries, which have distinct names. -/
structure Represents (t : NameTable) (entries : List Entry) : Prop where
  definitions : t.definitions = entries.map fun e => ⟨e.name, e.symbol, e.arity, e.pos⟩
  distinct : (entries.map Entry.name).Nodup

/-- The suffixes that a table has not used up. -/
def supply (t : NameTable) (k : Nat) : String := t.suffix (t.size + k)

namespace Represents

variable {t : NameTable} {entries : List Entry}

theorem size (h : t.Represents entries) : t.size = entries.length := by
  rw [NameTable.size, h.definitions, List.length_map]

/-- The name of an entry leads to it, since no other one has the same name. -/
theorem find?_of_mem (h : t.Represents entries) {e : Entry} (he : e ∈ entries) :
    t.find? e.name = some ⟨e.name, e.symbol, e.arity, e.pos⟩ := by
  have hfound : entries.find? (·.name == e.name) = some e := by
    cases hfind : entries.find? (·.name == e.name) with
    | none => exact absurd (List.find?_eq_none.mp hfind e he) (by simp)
    | some e' =>
      have hname : e'.name = e.name := by simpa using List.find?_some hfind
      rw [List.inj_on_of_nodup_map h.distinct (List.mem_of_find?_eq_some hfind) he hname]
  rw [find?, h.definitions, List.find?_map, Function.comp_def, hfound]
  rfl

theorem find?_eq_none (h : t.Represents entries) {name : String}
    (hname : ∀ e ∈ entries, e.name ≠ name) : t.find? name = none := by
  have hnone : entries.find? (·.name == name) = none := by
    rw [List.find?_eq_none]
    intro e he
    simpa using hname e he
  rw [find?, h.definitions, List.find?_map, Function.comp_def, hnone]
  rfl

/-- The table with one more entry, which has a new name. -/
theorem concat (h : t.Represents entries) {e : Entry} (hname : ∀ e' ∈ entries, e'.name ≠ e.name) :
    Represents { t with definitions := t.definitions ++ [⟨e.name, e.symbol, e.arity, e.pos⟩] }
      (entries ++ [e]) := by
  constructor
  · rw [h.definitions, List.map_append, List.map_singleton]
  · rw [List.map_append, List.map_singleton]
    refine h.distinct.append (List.nodup_singleton _) ?_
    rw [List.disjoint_singleton]
    intro hmem
    obtain ⟨e', he', heq⟩ := List.mem_map.mp hmem
    exact hname e' he' heq

/-- Names are those of entries, or new. -/
theorem name_cases (entries : List Entry) (name : String) :
    (∃ e ∈ entries, e.name = name) ∨ ∀ e ∈ entries, e.name ≠ name := by
  by_cases h : ∃ e ∈ entries, e.name = name
  · exact .inl h
  · exact .inr fun e he heq => h ⟨e, he, heq⟩

/-- A table answers a request as its list does. If an entry is added, it takes a suffix. -/
theorem perform (h : t.Represents entries) (request : NameRequest) :
    ∃ added, Answers entries (t.supply 0) request (t.perform request).1 added ∧
      (t.perform request).2.Represents (entries ++ added) ∧
      (t.perform request).2.supply = fun k => t.supply (added.length + k) := by
  -- all requests but a new definition leave the table as it is
  have hsame : t.Represents (entries ++ []) ∧
      t.supply = fun k => t.supply (([] : List Entry).length + k) := by
    rw [List.append_nil]
    refine ⟨h, ?_⟩
    funext k
    rw [List.length_nil, Nat.zero_add]
  cases request with
  | define name arity pos =>
    rcases name_cases entries name with ⟨e, he, rfl⟩ | hnew
    · have hdefine : t.define e.name arity pos = .error (e.redefined pos) :=
        define_eq_error_iff.mpr ⟨_, h.find?_of_mem he, rfl⟩
      rw [NameTable.perform, hdefine]
      exact ⟨[], .redefine he arity pos, hsame⟩
    · have hdefine : t.define name arity pos = .ok _ :=
        define_eq_ok_iff.mpr ⟨h.find?_eq_none hnew, rfl, rfl⟩
      rw [NameTable.perform, hdefine]
      have hnext : t.supply 0 = t.suffix t.size := by rw [supply, Nat.add_zero]
      rw [hnext]
      refine ⟨[⟨name, t.suffix t.size, arity, pos⟩], .define hnew arity pos, ?_, ?_⟩
      · exact h.concat (e := ⟨name, t.suffix t.size, arity, pos⟩) hnew
      · funext k
        simp only [supply, NameTable.size, List.length_append, List.length_singleton,
          Nat.add_assoc]
  | lookup name =>
    rcases name_cases entries name with ⟨e, he, rfl⟩ | hnew
    · rw [NameTable.perform, symbol?, h.find?_of_mem he]
      exact ⟨[], .lookup he, hsame⟩
    · rw [NameTable.perform, symbol?, h.find?_eq_none hnew]
      exact ⟨[], .lookupFails hnew, hsame⟩
  | arity name =>
    rcases name_cases entries name with ⟨e, he, rfl⟩ | hnew
    · rw [NameTable.perform, arity?, h.find?_of_mem he]
      exact ⟨[], .arity he, hsame⟩
    · rw [NameTable.perform, arity?, h.find?_eq_none hnew]
      exact ⟨[], .arityFails hnew, hsame⟩
  | contains name =>
    rcases name_cases entries name with ⟨e, he, rfl⟩ | hnew
    · rw [NameTable.perform, NameTable.contains, h.find?_of_mem he]
      exact ⟨[], .contains he, hsame⟩
    · rw [NameTable.perform, NameTable.contains, h.find?_eq_none hnew]
      exact ⟨[], .containsNot hnew, hsame⟩

/-- Requests are a history of the list of a table, which keeps its entries. -/
theorem history (h : t.Represents entries) (requests : List NameRequest) :
    ∃ added, History t.supply entries requests (t.replies requests)
      (fun k => t.supply (added.length + k)) (entries ++ added) ∧
      (t.after requests).Represents (entries ++ added) := by
  induction requests generalizing t entries with
  | nil =>
    refine ⟨[], ?_, ?_⟩
    · simp only [List.append_nil, List.length_nil, Nat.zero_add]
      exact .done _ _
    · rwa [List.append_nil]
  | cons request requests ih =>
    obtain ⟨added, hanswers, hrepresents, hsupply⟩ := h.perform request
    obtain ⟨more, hhistory, hlater⟩ := ih hrepresents
    rw [hsupply] at hhistory
    have hstep := History.step hanswers hhistory
    rw [← hrepresents.size] at hstep
    refine ⟨added ++ more, ?_, ?_⟩
    · rw [← List.append_assoc]
      simp only [List.length_append, Nat.add_assoc]
      exact hstep
    · rw [← List.append_assoc]
      exact hlater

end Represents

theorem represents_empty (suffix : Nat → String) : (empty suffix).Represents [] :=
  ⟨rfl, List.nodup_nil⟩

theorem supply_empty (suffix : Nat → String) : (empty suffix).supply = suffix := by
  funext k
  rw [supply, size_empty, Nat.zero_add]
  rfl

end NameTable

end NumScript
