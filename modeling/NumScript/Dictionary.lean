/-!
# NumScript.Dictionary

Values under keys. A dictionary has its keys in the order in which they came, each of them once. A
value that is put under a key replaces the one that is there; a new key comes last.
-/

namespace NumScript

section Entries

variable {κ α : Type} [DecidableEq κ]

/-- Entries in which `key` has the given value: it keeps its place if it is there already and comes
last otherwise. -/
def putEntry (key : κ) (value : α) : List (κ × α) → List (κ × α)
  | [] => [(key, value)]
  | (key', value') :: entries =>
    if key' = key then (key, value) :: entries else (key', value') :: putEntry key value entries

/-- The value under a key, if there is one. -/
def entryAt? (key : κ) (entries : List (κ × α)) : Option α :=
  (entries.find? (·.1 == key)).map Prod.snd

theorem entryAt?_eq_none_iff {key : κ} {entries : List (κ × α)} :
    entryAt? key entries = none ↔ key ∉ entries.map Prod.fst := by
  rw [entryAt?, Option.map_eq_none_iff, List.find?_eq_none, List.mem_map]
  constructor
  · intro h ⟨entry, hentry, hkey⟩
    exact h entry hentry (by simp [hkey])
  · intro h entry hentry hkey
    exact h ⟨entry, hentry, by simpa using hkey⟩

/-- A new key comes last. -/
theorem putEntry_of_not_mem {key : κ} {entries : List (κ × α)} (value : α)
    (h : key ∉ entries.map Prod.fst) : putEntry key value entries = entries ++ [(key, value)] := by
  induction entries with
  | nil => rfl
  | cons entry entries ih =>
    rw [List.map_cons, List.mem_cons, not_or] at h
    rw [putEntry, if_neg (Ne.symm h.1), ih h.2, List.cons_append]

/-- A key that is there keeps its place. -/
theorem keys_putEntry_of_mem {key : κ} {entries : List (κ × α)} (value : α)
    (h : key ∈ entries.map Prod.fst) :
    (putEntry key value entries).map Prod.fst = entries.map Prod.fst := by
  induction entries with
  | nil => cases h
  | cons entry entries ih =>
    rw [putEntry]
    by_cases hkey : entry.1 = key
    · rw [if_pos hkey, List.map_cons, List.map_cons, hkey]
    · rw [if_neg hkey, List.map_cons, List.map_cons,
        ih ((List.mem_cons.mp h).resolve_left (Ne.symm hkey))]

theorem nodup_keys_putEntry {key : κ} {entries : List (κ × α)} (value : α)
    (h : (entries.map Prod.fst).Nodup) : ((putEntry key value entries).map Prod.fst).Nodup := by
  by_cases hmem : key ∈ entries.map Prod.fst
  · rw [keys_putEntry_of_mem value hmem]
    exact h
  · rw [putEntry_of_not_mem value hmem, List.map_append, List.nodup_append]
    refine ⟨h, List.nodup_cons.mpr ⟨List.not_mem_nil, List.nodup_nil⟩, ?_⟩
    intro other hother last hlast heq
    obtain rfl : last = key := List.mem_singleton.mp hlast
    exact hmem (heq ▸ hother)

end Entries

/-- Values under texts. -/
structure Dictionary (α : Type) where
  entries : List (String × α)
  /-- No key is there twice. -/
  distinct : (entries.map Prod.fst).Nodup

namespace Dictionary

variable {α : Type}

/-- The dictionary without keys. -/
def empty : Dictionary α := ⟨[], List.nodup_nil⟩

/-- The number of keys. -/
def size (d : Dictionary α) : Nat := d.entries.length

/-- The value under a key, if there is one. -/
def get? (d : Dictionary α) (key : String) : Option α := entryAt? key d.entries

/-- Whether there is a value under a key. -/
def contains (d : Dictionary α) (key : String) : Bool := (d.get? key).isSome

/-- Puts a value under a key. -/
def put (d : Dictionary α) (key : String) (value : α) : Dictionary α :=
  ⟨putEntry key value d.entries, nodup_keys_putEntry value d.distinct⟩

/-- A new key comes last. -/
theorem entries_put {d : Dictionary α} {key : String} (h : d.get? key = none) (value : α) :
    (d.put key value).entries = d.entries ++ [(key, value)] :=
  putEntry_of_not_mem value (entryAt?_eq_none_iff.mp h)

end Dictionary

end NumScript
