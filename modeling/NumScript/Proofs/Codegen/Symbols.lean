import Mathlib.Data.List.Nodup
import NumScript.Proofs.Codegen.Growth
import NumScript.Proofs.Codegen.Name

/-!
# NumScript.Proofs.Codegen.Symbols

The names that a C text has for the functions and the variables of a program never collide. A table
that was filled by any definitions in a row has the symbols that these definitions handed out. They
are distinct as long as no suffix has an underscore, even if suffixes repeat, and with suffixes that
are numbers no symbol is the name of a variable or a reserved name (`NameTable.cNames_apart`).
-/

namespace NumScript

/-- A function to be defined. -/
structure DefineRequest where
  name : String
  arity : Int
  pos : Pos

namespace NameTable

/-- Defines functions one after another, yielding their symbols and the table with them. -/
def defineAll (t : NameTable) : List DefineRequest → Except CodegenError (List String × NameTable)
  | [] => .ok ([], t)
  | r :: rs => do
    let (symbol, t) ← t.define r.name r.arity r.pos
    let (symbols, t) ← t.defineAll rs
    return (symbol :: symbols, t)

/-- The first definition and those after it. -/
theorem defineAll_cons_eq_ok {t t' : NameTable} {r : DefineRequest} {rs : List DefineRequest}
    {symbols : List String} (h : t.defineAll (r :: rs) = .ok (symbols, t')) :
    ∃ symbol more mid, t.define r.name r.arity r.pos = .ok (symbol, mid) ∧
      mid.defineAll rs = .ok (more, t') ∧ symbols = symbol :: more := by
  obtain ⟨⟨symbol, mid⟩, hfirst, h⟩ := exists_of_bind_eq_ok h
  obtain ⟨⟨more, last⟩, hrest, h⟩ := exists_of_bind_eq_ok h
  cases h
  exact ⟨symbol, more, mid, hfirst, hrest, rfl⟩

/-- What definitions in a row add to a table: an entry for each, with the symbol it handed out. -/
theorem defineAll_eq_ok {t t' : NameTable} {requests : List DefineRequest} {symbols : List String}
    (h : t.defineAll requests = .ok (symbols, t')) (ht : t.IsRegular) :
    t'.IsRegular ∧ t.Extends t' ∧ ∃ new, t'.definitions = t.definitions ++ new ∧
      new.map Definition.name = requests.map DefineRequest.name ∧
      new.map Definition.symbol = symbols := by
  induction requests generalizing t symbols with
  | nil =>
    cases h
    exact ⟨ht, .refl _, [], by simp⟩
  | cons r rs ih =>
    obtain ⟨symbol, more, mid, hfirst, hrest, rfl⟩ := defineAll_cons_eq_ok h
    obtain ⟨hregular, hextends, new, hnew, hnames, hsymbols⟩ := ih hrest (ht.define hfirst)
    have hmid := extends_of_define hfirst
    obtain ⟨-, rfl, rfl⟩ := define_eq_ok_iff.mp hfirst
    refine ⟨hregular, hmid.trans hextends,
      ⟨r.name, mangle (t.suffix t.size) r.name, r.arity, r.pos⟩ :: new, ?_, ?_, ?_⟩
    · rw [hnew]
      exact List.append_assoc t.definitions [_] new
    · rw [List.map_cons, List.map_cons, hnames]
    · rw [List.map_cons, hsymbols]

namespace IsRegular

variable {t : NameTable} (ht : t.IsRegular)

include ht

/-- The definition of a name is the one that was made for it. -/
theorem find?_name {d : Definition} (hd : d ∈ t.definitions) : t.find? d.name = some d := by
  cases hfind : t.find? d.name with
  | none => exact absurd (List.mem_map_of_mem hd) (not_mem_of_find?_eq_none hfind)
  | some d' =>
    obtain ⟨hd', hname⟩ := mem_of_find? hfind
    rw [List.inj_on_of_nodup_map ht.distinct hd' hd hname]

/-- Every symbol is made from a suffix that was used up. -/
theorem exists_mangle {d : Definition} (hd : d ∈ t.definitions) :
    ∃ k < t.size, d.symbol = mangle (t.suffix k) d.name := by
  obtain ⟨k, hk⟩ := List.mem_iff_getElem?.mp hd
  exact ⟨k, (List.getElem?_eq_some_iff.mp hk).1, ht.symbol k d hk⟩

theorem name_eq_of_symbol_eq (hsuffix : ∀ k < t.size, '_' ∉ (t.suffix k).toList)
    {d d' : Definition} (hd : d ∈ t.definitions) (hd' : d' ∈ t.definitions)
    (h : d.symbol = d'.symbol) : d.name = d'.name := by
  obtain ⟨j, hj, hsymbol⟩ := ht.exists_mangle hd
  obtain ⟨k, hk, hsymbol'⟩ := ht.exists_mangle hd'
  rw [hsymbol, hsymbol'] at h
  exact (mangle_inj (hsuffix j hj) (hsuffix k hk) h).2

theorem symbols_nodup (hsuffix : ∀ k < t.size, '_' ∉ (t.suffix k).toList) :
    (t.definitions.map Definition.symbol).Nodup := by
  refine (List.Nodup.of_map Definition.name ht.distinct).map_on ?_
  intro d hd d' hd' h
  exact List.inj_on_of_nodup_map ht.distinct hd hd' (ht.name_eq_of_symbol_eq hsuffix hd hd' h)

end IsRegular

/-- Distinct variables have distinct names. After any definitions in a row every function has the
symbol that its definition handed out; distinct functions have distinct symbols if no suffix has an
underscore; and if all suffixes are numbers, as the default ones are, no symbol is the name of a
variable or reserved. -/
theorem cNames_apart :
    Function.Injective safeName ∧
    (∀ k, isNumeric (counting k) = true) ∧
    ∀ (suffix : Nat → String) (requests : List DefineRequest) (symbols : List String)
      (t : NameTable), (empty suffix).defineAll requests = .ok (symbols, t) →
      requests.map (fun r => t.symbol? r.name) = symbols.map some ∧
      ((∀ k < requests.length, '_' ∉ (suffix k).toList) →
        symbols.Nodup ∧
        ∀ x y symbol, t.symbol? x = some symbol → t.symbol? y = some symbol → x = y) ∧
      ((∀ k < requests.length, isNumeric (suffix k) = true) →
        ∀ symbol ∈ symbols, (∀ x, safeName x ≠ symbol) ∧ symbol ∉ reservedNames) := by
  refine ⟨fun _ _ h => safeName_injective h, isNumeric_counting, ?_⟩
  intro suffix requests symbols t h
  obtain ⟨hregular, hextends, new, hnew, hnames, hsymbols⟩ :=
    defineAll_eq_ok h (isRegular_empty suffix)
  have hdefinitions : t.definitions = new := hnew
  subst hdefinitions
  have hsize : t.size = requests.length := by
    rw [size, ← List.length_map, hnames, List.length_map]
  have hsuffix : t.suffix = suffix := hextends.suffix
  refine ⟨?_, ?_, ?_⟩
  · have hlookup : t.definitions.map (fun d => t.symbol? d.name) =
        t.definitions.map fun d => some d.symbol :=
      List.map_congr_left fun d hd => by rw [symbol?, hregular.find?_name hd]; rfl
    rw [← hsymbols, List.map_map]
    calc requests.map (fun r => t.symbol? r.name)
        = (requests.map DefineRequest.name).map t.symbol? := by rw [List.map_map]; rfl
      _ = t.definitions.map (fun d => t.symbol? d.name) := by rw [← hnames, List.map_map]; rfl
      _ = _ := hlookup
  · intro hplain
    rw [← hsize, ← hsuffix] at hplain
    refine ⟨hsymbols ▸ hregular.symbols_nodup hplain, ?_⟩
    intro x y symbol hx hy
    obtain ⟨d, hd, hdsymbol⟩ := Option.map_eq_some_iff.mp hx
    obtain ⟨d', hd', hdsymbol'⟩ := Option.map_eq_some_iff.mp hy
    obtain ⟨hmem, rfl⟩ := mem_of_find? hd
    obtain ⟨hmem', rfl⟩ := mem_of_find? hd'
    exact hregular.name_eq_of_symbol_eq hplain hmem hmem' (hdsymbol.trans hdsymbol'.symm)
  · intro hnumeric symbol hsymbol
    rw [← hsymbols] at hsymbol
    obtain ⟨d, hd, rfl⟩ := List.mem_map.mp hsymbol
    obtain ⟨k, hk, hmangle⟩ := hregular.exists_mangle hd
    rw [hsize] at hk
    rw [hsuffix] at hmangle
    rw [hmangle]
    exact ⟨fun x => safeName_ne_mangle (hnumeric k hk) x d.name,
      mangle_not_mem_reservedNames (hnumeric k hk) d.name⟩

/-- Two functions of which one looks like the other with another suffix. -/
def lookalikes : List DefineRequest := [⟨"1_x", 0, ⟨1, 1⟩⟩, ⟨"x", 2, ⟨2, 1⟩⟩, ⟨"f1_x", 0, ⟨3, 1⟩⟩]

/-- The symbols of functions that look alike, with a suffix used twice. -/
theorem lookalikes_cNames_apart :
    ∃ t, (empty (listed ["1", "11", "1"])).defineAll lookalikes =
        .ok (["f1_1_x", "f11_x", "f1_f1_x"], t) ∧
      (∀ k < lookalikes.length, '_' ∉ (listed ["1", "11", "1"] k).toList) ∧
      (∀ k < lookalikes.length, isNumeric (listed ["1", "11", "1"] k) = true) ∧
      ["f1_1_x", "f11_x", "f1_f1_x"].Nodup ∧
      (∀ x y symbol, t.symbol? x = some symbol → t.symbol? y = some symbol → x = y) ∧
      ∀ symbol ∈ ["f1_1_x", "f11_x", "f1_f1_x"],
        (∀ x, safeName x ≠ symbol) ∧ symbol ∉ reservedNames := by
  have hdefine : (empty (listed ["1", "11", "1"])).defineAll lookalikes =
      .ok (["f1_1_x", "f11_x", "f1_f1_x"], ⟨listed ["1", "11", "1"],
        [⟨"1_x", "f1_1_x", 0, ⟨1, 1⟩⟩, ⟨"x", "f11_x", 2, ⟨2, 1⟩⟩,
          ⟨"f1_x", "f1_f1_x", 0, ⟨3, 1⟩⟩]⟩) := by
    with_unfolding_all rfl
  have hplain : ∀ k < lookalikes.length, '_' ∉ (listed ["1", "11", "1"] k).toList := by decide
  have hnumeric : ∀ k < lookalikes.length, isNumeric (listed ["1", "11", "1"] k) = true := by decide
  obtain ⟨-, -, hall⟩ := cNames_apart
  obtain ⟨-, hdistinct, hreserved⟩ := hall _ _ _ _ hdefine
  exact ⟨_, hdefine, hplain, hnumeric, (hdistinct hplain).1, (hdistinct hplain).2,
    hreserved hnumeric⟩

end NameTable

end NumScript
