import NumScript.Codegen.Expr
import NumScript.Proofs.Codegen.Ledger

/-!
# NumScript.Proofs.Codegen.FunctionNames

The three dictionaries and the source of suffixes of a table of names stay in step. They are the
columns of one list of definitions, and the source has yielded one suffix for each of them
(`FunctionNames.Refines`). This holds at the start, and every request, successful or not, keeps it
and has the answer of the list (`FunctionNames.Refines.perform`). So does any sequence of requests,
and a table of names is an append-only list of entries (`FunctionNames.replies_history`).

In particular no key is ever missing in one dictionary that another one has, so a call is lowered as
the list says, and a known symbol comes with a known arity (`FunctionNames.Refines.lower_call`).
-/

namespace NumScript

/-! ### Suffixes -/

namespace SuffixSource

variable {σ : Type}

/-- The source after `n` suffixes were taken. -/
def skip (s : SuffixSource σ) : Nat → SuffixSource σ
  | 0 => s
  | n + 1 => (s.skip n).advance

/-- The suffix that is yielded after `n` others. -/
def stream (s : SuffixSource σ) (n : Nat) : String := (s.skip n).peek

theorem skip_skip (s : SuffixSource σ) (n k : Nat) : (s.skip n).skip k = s.skip (n + k) := by
  induction k with
  | zero => rfl
  | succ k ih => rw [skip, ih, ← Nat.add_assoc, skip]

theorem stream_skip (s : SuffixSource σ) (n : Nat) :
    (s.skip n).stream = fun k => s.stream (n + k) := by
  funext k
  rw [stream, skip_skip, stream]

/-- The counter yields the numbers in order. -/
theorem stream_counter : counter.stream = NameTable.counting := by
  have hskip : ∀ n, counter.skip n = { counter with state := n } := by
    intro n
    induction n with
    | zero => rfl
    | succ n ih => rw [skip, ih, advance]; rfl
  funext n
  rw [stream, hskip]
  rfl

end SuffixSource

/-! ### Dictionaries as columns -/

/-- The dictionary is a column of the table: it has one of the values of each definition under the
name of the definition, in order. -/
def Dictionary.IsColumn {α : Type} (d : Dictionary α) (value : Definition → α)
    (table : NameTable) : Prop :=
  d.entries = table.definitions.map fun entry => (entry.name, value entry)

namespace Dictionary.IsColumn

variable {α : Type} {d : Dictionary α} {value : Definition → α} {table : NameTable}

theorem get?_eq (h : d.IsColumn value table) (name : String) :
    d.get? name = (table.find? name).map value := by
  rw [Dictionary.get?, h, entryAt?, List.find?_map, Option.map_map]
  rfl

theorem contains_eq (h : d.IsColumn value table) (name : String) :
    d.contains name = table.contains name := by
  rw [Dictionary.contains, h.get?_eq, Option.isSome_map, NameTable.contains]

theorem size_eq (h : d.IsColumn value table) : d.size = table.size := by
  rw [Dictionary.size, h, List.length_map, NameTable.size]

/-- A value that is put under a new name continues the column. -/
theorem put (h : d.IsColumn value table) (entry : Definition)
    (hnew : table.find? entry.name = none) :
    (d.put entry.name (value entry)).IsColumn value
      { table with definitions := table.definitions ++ [entry] } := by
  have hget : d.get? entry.name = none := by rw [h.get?_eq, hnew, Option.map_none]
  rw [IsColumn, Dictionary.entries_put hget, h, List.map_append, List.map_singleton]

end Dictionary.IsColumn

namespace FunctionNames

variable {σ : Type} {names : FunctionNames σ} {source : SuffixSource σ} {table : NameTable}

/-! ### Definitions -/

theorem run_define (names : FunctionNames σ) (name : String) (arity : Int) (pos : Pos) :
    (define name arity pos).run names =
      if names.contains name then (refuse name pos).run names
      else (enter name arity pos).run names := by
  show (if names.contains name = true then refuse name pos else enter name arity pos).run names = _
  split <;> rfl

/-- A name that is taken is refused, and nothing changes. -/
theorem run_refuse {name : String} {first : Pos} (h : names.definedAt.get? name = some first)
    (pos : Pos) :
    (refuse name pos).run names = .error (.codegen (.redefined name first pos)) names := by
  have hrequire : require names.definedAt name = .ok first := by rw [require, h]
  show EStateM.run (MonadExcept.ofExcept (require names.definedAt name) >>= fun first =>
    throw (NameFault.codegen (.redefined name first pos))) names = _
  rw [hrequire]
  rfl

/-- A new name takes one suffix, and all dictionaries have it afterwards. -/
theorem run_enter (names : FunctionNames σ) (name : String) (arity : Int) (pos : Pos) :
    (enter name arity pos).run names =
      .ok (NameTable.mangle names.suffixes.peek name)
        { suffixes := names.suffixes.advance
          mangled := names.mangled.put name (NameTable.mangle names.suffixes.peek name)
          arities := names.arities.put name arity
          definedAt := names.definedAt.put name pos } := rfl

/-! ### The table that is refined -/

/-- The table of definitions that the dictionaries and the source stand for: the dictionaries are
its columns, its suffixes are those of `source`, and one has been taken for each definition. -/
structure Refines (names : FunctionNames σ) (source : SuffixSource σ) (table : NameTable) :
    Prop where
  stream : table.suffix = source.stream
  suffixes : names.suffixes = source.skip table.size
  mangled : names.mangled.IsColumn Definition.symbol table
  arities : names.arities.IsColumn Definition.arity table
  definedAt : names.definedAt.IsColumn Definition.pos table

theorem refines_start (source : SuffixSource σ) :
    (start source).Refines source (.empty source.stream) := ⟨rfl, rfl, rfl, rfl, rfl⟩

namespace Refines

variable (h : names.Refines source table)
include h

theorem size_eq : names.size = table.size := h.mangled.size_eq

theorem contains_eq (name : String) : names.contains name = table.contains name :=
  h.mangled.contains_eq name

theorem lookup_eq (name : String) : names.lookup name = table.symbol? name :=
  h.mangled.get?_eq name

theorem arity_eq (name : String) :
    names.arity name = match table.arity? name with
      | some arity => .ok arity
      | none => .error (.missing name) := by
  rw [FunctionNames.arity, require, h.arities.get?_eq, NameTable.arity?]
  cases table.find? name <;> rfl

/-- The suffix that comes next is that of the next definition. -/
theorem peek_eq : names.suffixes.peek = table.suffix table.size := by
  rw [h.suffixes, h.stream]
  rfl

/-- A name that is taken is refused as in the list. -/
theorem run_define_of_find? {name : String} {first : Definition}
    (hfind : table.find? name = some first) (arity : Int) (pos : Pos) :
    (define name arity pos).run names =
      .error (.codegen (.redefined name first.pos pos)) names := by
  have hcontains : names.contains name = true := by
    rw [h.contains_eq, NameTable.contains, hfind, Option.isSome_some]
  have hfirst : names.definedAt.get? name = some first.pos := by
    rw [h.definedAt.get?_eq, hfind, Option.map_some]
  rw [run_define, if_pos hcontains, run_refuse hfirst]

/-- A new name is entered as in the list. -/
theorem run_define_of_new {name : String} (hnew : table.find? name = none) (arity : Int)
    (pos : Pos) :
    ∃ names', (define name arity pos).run names =
        .ok (NameTable.mangle (table.suffix table.size) name) names' ∧
      names'.Refines source { table with definitions := table.definitions ++
        [⟨name, NameTable.mangle (table.suffix table.size) name, arity, pos⟩] } := by
  have hcontains : ¬ names.contains name = true := by
    rw [h.contains_eq, NameTable.contains, hnew]
    exact Bool.false_ne_true
  let entry : Definition := ⟨name, NameTable.mangle (table.suffix table.size) name, arity, pos⟩
  rw [run_define, if_neg hcontains, run_enter, h.peek_eq]
  refine ⟨_, rfl, h.stream, ?_, h.mangled.put entry hnew, h.arities.put entry hnew,
    h.definedAt.put entry hnew⟩
  show names.suffixes.advance = _
  rw [h.suffixes, NameTable.size, NameTable.size, List.length_append, List.length_singleton]
  rfl

/-- A request has the answer of the list, and the list goes on to be refined. -/
theorem perform (request : NameRequest) :
    (names.perform request).1 = (table.perform request).1 ∧
      (names.perform request).2.Refines source (table.perform request).2 := by
  cases request with
  | define name arity pos =>
    rw [FunctionNames.perform, NameTable.perform]
    cases hfind : table.find? name with
    | some first =>
      have hdefine : table.define name arity pos = .error (.redefined name first.pos pos) :=
        NameTable.define_eq_error_iff.mpr ⟨first, hfind, rfl⟩
      rw [h.run_define_of_find? hfind, hdefine]
      exact ⟨rfl, h⟩
    | none =>
      have hdefine : table.define name arity pos = .ok _ :=
        NameTable.define_eq_ok_iff.mpr ⟨hfind, rfl, rfl⟩
      obtain ⟨names', hrun, hrefines⟩ := h.run_define_of_new hfind arity pos
      rw [hrun, hdefine]
      exact ⟨rfl, hrefines⟩
  | lookup name => exact ⟨congrArg NameAnswer.symbol (h.lookup_eq name), h⟩
  | arity name =>
    rw [FunctionNames.perform, NameTable.perform, h.arity_eq]
    cases table.arity? name with
    | some arity => exact ⟨rfl, h⟩
    | none => exact ⟨rfl, h⟩
  | contains name => exact ⟨congrArg NameAnswer.contained (h.contains_eq name), h⟩

/-- A call is lowered with the symbol that is looked up for it, if its arity fits, and no arity is
missing where there is a symbol. -/
theorem lower_call (name : String) (args : List Expr) (p : Pos) :
    (∃ symbol, names.callee name args.length p = .ok symbol ∧
      (Expr.call name args).lower table p =
        (lowerArgs table p args).map fun texts =>
          symbol ++ "(" ++ ", ".intercalate texts ++ ")") ∨
    ∃ e, names.callee name args.length p = .error (.codegen e) ∧
      (Expr.call name args).lower table p = .error e := by
  rw [callee, h.lookup_eq, h.arity_eq, NameTable.symbol?, NameTable.arity?, Expr.lower]
  cases table.find? name with
  | none => exact .inr ⟨_, rfl, rfl⟩
  | some d =>
    by_cases hfits : d.arity = args.length
    · refine .inl ⟨d.symbol, if_pos hfits, (if_pos hfits).trans ?_⟩
      cases lowerArgs table p args <;> rfl
    · exact .inr ⟨_, if_neg hfits, if_neg hfits⟩

/-- Where there is a symbol, there is an arity. -/
theorem exists_arity {name symbol : String} (hsymbol : names.lookup name = some symbol) :
    ∃ arity, names.arity name = .ok arity := by
  rw [h.lookup_eq] at hsymbol
  obtain ⟨d, hd, -⟩ := Option.map_eq_some_iff.mp hsymbol
  exact ⟨d.arity, by rw [h.arity_eq, NameTable.arity?, hd]; rfl⟩

end Refines

/-! ### Histories -/

/-- Requests one after the other have the answers of the list. -/
theorem Refines.after (h : names.Refines source table) (requests : List NameRequest) :
    (names.after requests).Refines source (table.after requests) ∧
      names.replies requests = table.replies requests := by
  induction requests generalizing names table with
  | nil => exact ⟨h, rfl⟩
  | cons request requests ih =>
    obtain ⟨hanswer, hrefines⟩ := h.perform request
    obtain ⟨hafter, hreplies⟩ := ih hrefines
    refine ⟨hafter, ?_⟩
    rw [replies, NameTable.replies, hanswer, hrefines.size_eq, hreplies]

/-- After requests, a table refines the list of definitions after the same requests. -/
theorem refines_after (source : SuffixSource σ) (requests : List NameRequest) :
    ((start source).after requests).Refines source
      ((NameTable.empty source.stream).after requests) :=
  ((refines_start source).after requests).1

section Entries

variable {entries : List Entry}

/-- What a table says about an entry of the list that it refines. -/
theorem Refines.of_mem (h : names.Refines source table) (hentries : table.Represents entries)
    {e : Entry} (he : e ∈ entries) :
    names.lookup e.name = some e.symbol ∧ names.arity e.name = .ok e.arity ∧
      names.contains e.name = true ∧
      ∀ (arity : Int) (pos : Pos),
        (define e.name arity pos).run names = .error (.codegen (e.redefined pos)) names := by
  have hfind := hentries.find?_of_mem he
  refine ⟨?_, ?_, ?_, fun arity pos => h.run_define_of_find? hfind arity pos⟩
  · rw [h.lookup_eq, NameTable.symbol?, hfind, Option.map_some]
  · rw [h.arity_eq, NameTable.arity?, hfind, Option.map_some]
  · rw [h.contains_eq, NameTable.contains, hfind, Option.isSome_some]

/-- What a table says about a name that no entry has. -/
theorem Refines.of_not_mem (h : names.Refines source table) (hentries : table.Represents entries)
    {name : String} (hname : ∀ e ∈ entries, e.name ≠ name) :
    names.lookup name = none ∧ names.arity name = .error (.missing name) ∧
      names.contains name = false ∧
      ∀ (arity : Int) (pos : Pos), ∃ names', (define name arity pos).run names =
          .ok ("f" ++ source.stream entries.length ++ "_" ++ name) names' ∧
        names'.size = entries.length + 1 ∧
        names'.suffixes = source.skip (entries.length + 1) := by
  have hfind := hentries.find?_eq_none hname
  refine ⟨?_, ?_, ?_, fun arity pos => ?_⟩
  · rw [h.lookup_eq, NameTable.symbol?, hfind, Option.map_none]
  · rw [h.arity_eq, NameTable.arity?, hfind, Option.map_none]
  · rw [h.contains_eq, NameTable.contains, hfind, Option.isSome_none]
  · obtain ⟨names', hrun, hrefines⟩ := h.run_define_of_new hfind arity pos
    have hsize : ∀ entry, NameTable.size
        { table with definitions := table.definitions ++ [entry] } = entries.length + 1 := by
      intro entry
      rw [NameTable.size, List.length_append, ← hentries.size]
      rfl
    rw [hentries.size, h.stream] at hrun
    exact ⟨names', hrun, hrefines.size_eq.trans (hsize _), by rw [hrefines.suffixes, hsize]⟩

end Entries

/-- Whatever is asked of a table, successfully or not, there is a list of entries with distinct
names, as many as the size says, of which the requests are a history, and the source has yielded as
many suffixes. After any further requests an entry still has the symbol and the arity that it was
made with, and a definition of its name changes nothing and fails with an error that blames the new
definition and names the place of the first. Under any other name nothing is found, and a definition
takes one suffix for its symbol and adds one entry. -/
theorem replies_history (source : SuffixSource σ) (requests further : List NameRequest) :
    let t := (start source).after requests
    let t' := (start source).after (requests ++ further)
    ∃ entries : List Entry,
      (entries.map Entry.name).Nodup ∧ t.size = entries.length ∧
      t.suffixes = source.skip entries.length ∧
      History source.stream [] requests ((start source).replies requests)
        (source.skip entries.length).stream entries ∧
      (∀ e ∈ entries, t'.lookup e.name = some e.symbol ∧ t'.arity e.name = .ok e.arity ∧
        t'.contains e.name = true ∧
        ∀ (arity : Int) (pos : Pos),
          (define e.name arity pos).run t' = .error (.codegen (e.redefined pos)) t' ∧
          (e.redefined pos).pos? = some pos ∧
          (e.redefined pos).message = "function '" ++ e.name ++ "' already defined at line " ++
            toString e.pos.line ++ " col " ++ toString e.pos.col) ∧
      ∀ name, (∀ e ∈ entries, e.name ≠ name) →
        t.lookup name = none ∧ t.arity name = .error (.missing name) ∧ t.contains name = false ∧
        ∀ (arity : Int) (pos : Pos), ∃ t'', (define name arity pos).run t =
            .ok ("f" ++ source.stream entries.length ++ "_" ++ name) t'' ∧
          t''.size = entries.length + 1 ∧ t''.suffixes = source.skip (entries.length + 1) := by
  intro t t'
  obtain ⟨hnow, hreplies⟩ := (refines_start source).after requests
  have hlater := refines_after source (requests ++ further)
  rw [NameTable.after_append] at hlater
  obtain ⟨entries, hhistory, hentries⟩ :=
    (NameTable.represents_empty source.stream).history requests
  obtain ⟨more, -, hkept⟩ := hentries.history further
  rw [List.nil_append] at hhistory hentries hkept
  rw [NameTable.supply_empty, ← hreplies, ← SuffixSource.stream_skip] at hhistory
  have hsize := hentries.size
  refine ⟨entries, hentries.distinct, hnow.size_eq.trans hsize, hsize ▸ hnow.suffixes, hhistory,
    fun e he => ?_, fun name hname => hnow.of_not_mem hentries hname⟩
  obtain ⟨hlookup, harity, hcontains, hdefine⟩ :=
    hlater.of_mem hkept (List.mem_append_left more he)
  exact ⟨hlookup, harity, hcontains, fun arity pos => ⟨hdefine arity pos, e.redefined_blames pos⟩⟩

example : (start (SuffixSource.counter.preceded ["a"])).replies [.define "g" 1 ⟨1, 1⟩,
      .define "g" 2 ⟨2, 1⟩, .arity "g", .define "h" 0 ⟨3, 1⟩, .arity "f"] =
    [(.defined "fa_g", 1), (.failed (.redefined "g" ⟨1, 1⟩ ⟨2, 1⟩), 1), (.arity 1, 1),
      (.defined "f1_h", 2), (.unknown "f", 2)] := by decide +kernel

end FunctionNames

end NumScript
