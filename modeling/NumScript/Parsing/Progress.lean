import NumScript.Parsing

/-!
# NumScript.Parsing.Progress

Productions only take tokens off the front: what an outcome leaves is a suffix of what was there,
and the productions that recursion relies on take at least one token when they succeed. With that,
`Outcome.andThen` goes on exactly as `Outcome.bind` does.
-/

namespace NumScript

namespace Outcome

variable {α β : Type}

/-- The outcome leaves a suffix of the tokens `ts`. -/
def Leaves (o : Outcome α) (ts : List Token) : Prop := o.rest <:+ ts

/-- The outcome leaves a suffix of the tokens `ts`, and not all of them if it is a success. -/
def Advances (o : Outcome α) (ts : List Token) : Prop :=
  o.Leaves ts ∧ ∀ a rest, o = .ok a rest → rest.length < ts.length

theorem Advances.leaves {o : Outcome α} {ts : List Token} (h : o.Advances ts) : o.Leaves ts := h.1

@[simp]
theorem leaves_ok {a : α} {rest ts : List Token} : (ok a rest).Leaves ts ↔ rest <:+ ts := Iff.rfl

@[simp]
theorem leaves_error {cause : ParseCause} {rest ts : List Token} :
    (error cause rest : Outcome α).Leaves ts ↔ rest <:+ ts := Iff.rfl

@[simp]
theorem advances_ok {a : α} {rest ts : List Token} :
    (ok a rest).Advances ts ↔ rest <:+ ts ∧ rest.length < ts.length := by
  simp [Advances]

@[simp]
theorem advances_error {cause : ParseCause} {rest ts : List Token} :
    (error cause rest : Outcome α).Advances ts ↔ rest <:+ ts := by
  simp [Advances]

/-- What leaves a suffix of the tail of a list advances on the list. -/
theorem Leaves.cons {o : Outcome α} {ts : List Token} (h : o.Leaves ts) (t : Token) :
    o.Advances (t :: ts) := by
  refine ⟨h.trans (List.suffix_cons t ts), ?_⟩
  rintro a rest rfl
  exact Nat.lt_succ_of_le (List.IsSuffix.length_le h)

theorem Leaves.map {o : Outcome α} {ts : List Token} (h : o.Leaves ts) (f : α → β) :
    (o.map f).Leaves ts := by
  cases o <;> exact h

theorem Advances.map {o : Outcome α} {ts : List Token} (h : o.Advances ts) (f : α → β) :
    (o.map f).Advances ts := by
  cases o with
  | ok a rest => simpa using h
  | error cause rest => simpa using h

theorem Leaves.bind {o : Outcome α} {ts : List Token} {next : α → List Token → Outcome β}
    (h : o.Leaves ts) (hnext : ∀ a rest, rest <:+ ts → (next a rest).Leaves rest) :
    (o.bind next).Leaves ts := by
  cases o with
  | ok a rest => exact (hnext a rest h).trans h
  | error cause rest => exact h

theorem Advances.bind {o : Outcome α} {ts : List Token} {next : α → List Token → Outcome β}
    (h : o.Advances ts)
    (hnext : ∀ a rest, rest <:+ ts → rest.length < ts.length → (next a rest).Leaves rest) :
    (o.bind next).Advances ts := by
  cases o with
  | ok a rest =>
    obtain ⟨hsuffix, hlt⟩ := advances_ok.1 h
    have hleaves := hnext a rest hsuffix hlt
    refine ⟨hleaves.trans hsuffix, ?_⟩
    intro b rest' heq
    rw [bind_ok] at heq
    rw [heq] at hleaves
    exact Nat.lt_of_le_of_lt (List.IsSuffix.length_le hleaves) hlt
  | error cause rest => exact ⟨h.1, nofun⟩

theorem Leaves.andThen {o : Outcome α} {ts : List Token} {limit : Nat}
    {next : α → (rest : List Token) → rest.length < limit → Outcome β} (h : o.Leaves ts)
    (hnext : ∀ a rest (hlt : rest.length < limit), (next a rest hlt).Leaves rest) :
    (o.andThen limit next).Leaves ts := by
  cases o with
  | ok a rest =>
    unfold Outcome.andThen
    dsimp only
    split
    · exact (hnext a rest _).trans h
    · exact h
  | error cause rest => exact h

theorem Advances.andThen {o : Outcome α} {ts : List Token}
    {next : α → (rest : List Token) → rest.length < ts.length → Outcome β} (h : o.Advances ts)
    (hnext : ∀ a rest (hlt : rest.length < ts.length), (next a rest hlt).Leaves rest) :
    (o.andThen ts.length next).Advances ts := by
  cases o with
  | ok a rest =>
    obtain ⟨hsuffix, hlt⟩ := advances_ok.1 h
    have hleaves := hnext a rest hlt
    rw [andThen_ok hlt]
    refine ⟨hleaves.trans hsuffix, ?_⟩
    intro b rest' heq
    rw [heq] at hleaves
    exact Nat.lt_of_le_of_lt (List.IsSuffix.length_le hleaves) hlt
  | error cause rest => exact ⟨h.1, nofun⟩

/-- After a production that advances, `andThen` is `bind`. -/
theorem Advances.andThen_eq_bind {o : Outcome α} {ts : List Token} (h : o.Advances ts)
    (next : α → List Token → Outcome β) :
    (o.andThen ts.length fun a rest _ => next a rest) = o.bind next := by
  cases o with
  | ok a rest => exact andThen_ok (advances_ok.1 h).2 _
  | error cause rest => rfl

/-- After a production that takes nothing back, `andThen` with room for all tokens is `bind`. -/
theorem Leaves.andThen_eq_bind {o : Outcome α} {ts : List Token} (h : o.Leaves ts)
    (next : α → List Token → Outcome β) :
    (o.andThen (ts.length + 1) fun a rest _ => next a rest) = o.bind next := by
  cases o with
  | ok a rest => exact andThen_ok (Nat.lt_succ_of_le (List.IsSuffix.length_le h)) _
  | error cause rest => rfl

end Outcome

open Outcome

/-! ### Single tokens -/

theorem expect_leaves (text : String) (ts : List Token) : (expect text ts).Leaves ts := by
  unfold expect
  split
  · exact List.tail_suffix ts
  · exact List.suffix_refl ts

theorem expectIdent_advances (ts : List Token) : (expectIdent ts).Advances ts := by
  unfold expectIdent
  split <;> simp

end NumScript
