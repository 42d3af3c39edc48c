import NumScript.Flat.Postfix
import NumScript.Token

/-!
# NumScript.Parsing

What a production of the grammar makes of a list of tokens. It either takes some of them off the
front and yields a value, or it is stuck; in both cases it says which tokens are left, and a stuck
production leaves the token it could not take at the front. The position of an error and the token
that it reports are therefore read off the tokens that are left.

A production that recurses on what another one left behind does so through `Outcome.andThen`, which
hands on the proof that fewer tokens are left.
-/

namespace NumScript

/-! ### Outcomes -/

/-- Why a production is stuck. -/
inductive ParseCause where
  /-- A token with one of these spellings was needed. -/
  | marks (texts : List String)
  /-- An identifier was needed. -/
  | identifier
  /-- An expression was needed. -/
  | expression
  /-- A counting loop has too many bounds. -/
  | tooManyBounds
  /-- A flat expression denotes no tree. -/
  | unresolved (error : ResolveError)
deriving DecidableEq, Repr

/-- A value, or the cause of an error, and the tokens that are left. -/
inductive Outcome (α : Type) where
  | ok (value : α) (rest : List Token)
  | error (cause : ParseCause) (rest : List Token)
deriving DecidableEq

namespace Outcome

variable {α β : Type}

/-- The tokens that are left. -/
def rest : Outcome α → List Token
  | .ok _ rest => rest
  | .error _ rest => rest

/-- Changes the value. -/
def map (f : α → β) : Outcome α → Outcome β
  | .ok a rest => .ok (f a) rest
  | .error cause rest => .error cause rest

/-- Goes on with the value and the tokens that are left. -/
def bind (o : Outcome α) (next : α → List Token → Outcome β) : Outcome β :=
  match o with
  | .ok a rest => next a rest
  | .error cause rest => .error cause rest

/-- Goes on if fewer than `limit` tokens are left. With `limit` the number of tokens that a
production was given this is `bind`, because a production that succeeds takes a token. -/
def andThen (o : Outcome α) (limit : Nat)
    (next : α → (rest : List Token) → rest.length < limit → Outcome β) : Outcome β :=
  match o with
  | .ok a rest => if h : rest.length < limit then next a rest h else .error .expression rest
  | .error cause rest => .error cause rest

@[simp]
theorem map_ok (f : α → β) (a : α) (rest : List Token) : (ok a rest).map f = .ok (f a) rest := rfl

@[simp]
theorem map_error (f : α → β) (cause : ParseCause) (rest : List Token) :
    (error cause rest).map f = .error cause rest := rfl

@[simp]
theorem bind_ok (a : α) (rest : List Token) (next : α → List Token → Outcome β) :
    (ok a rest).bind next = next a rest := rfl

@[simp]
theorem bind_error (cause : ParseCause) (rest : List Token)
    (next : α → List Token → Outcome β) : (error cause rest).bind next = .error cause rest := rfl

theorem map_eq_ok_iff {f : α → β} {o : Outcome α} {b : β} {rest : List Token} :
    o.map f = .ok b rest ↔ ∃ a, o = .ok a rest ∧ f a = b := by
  cases o with
  | ok a rest' =>
    constructor
    · intro h
      obtain ⟨rfl, rfl⟩ := Outcome.ok.inj h
      exact ⟨a, rfl, rfl⟩
    · rintro ⟨a', h, rfl⟩
      obtain ⟨rfl, rfl⟩ := Outcome.ok.inj h
      rfl
  | error cause rest' => simp

theorem bind_eq_ok_iff {o : Outcome α} {next : α → List Token → Outcome β} {b : β}
    {rest : List Token} :
    o.bind next = .ok b rest ↔ ∃ a mid, o = .ok a mid ∧ next a mid = .ok b rest := by
  cases o with
  | ok a rest' =>
    constructor
    · intro h
      exact ⟨a, rest', rfl, h⟩
    · rintro ⟨a', mid, h, hnext⟩
      obtain ⟨rfl, rfl⟩ := Outcome.ok.inj h
      exact hnext
  | error cause rest' => simp

theorem andThen_ok {a : α} {rest : List Token} {limit : Nat} (h : rest.length < limit)
    (next : α → (rest : List Token) → rest.length < limit → Outcome β) :
    (ok a rest).andThen limit next = next a rest h := by
  simp [andThen, h]

@[simp]
theorem andThen_error (cause : ParseCause) (rest : List Token) (limit : Nat)
    (next : α → (rest : List Token) → rest.length < limit → Outcome β) :
    (error cause rest).andThen limit next = .error cause rest := rfl

end Outcome

/-! ### Errors -/

/-- The cause of an error, the token that is in the way, if any, and its position. -/
structure ParseError where
  cause : ParseCause
  found : Option Lexeme
  pos : Pos
deriving DecidableEq, Repr

/-- A lexeme, or the end of the input, as an error message refers to it. -/
def describe : Option Lexeme → String
  | some lexeme => "'" ++ lexeme.text ++ "'"
  | none => "end of input"

/-- The wording of an error. -/
def ParseError.message (e : ParseError) : String :=
  match e.cause with
  | .marks texts =>
    "expected " ++ " or ".intercalate (texts.map fun text => "'" ++ text ++ "'") ++ ", got "
      ++ describe e.found
  | .identifier => "expected identifier, got " ++ describe e.found
  | .expression => "expected expression, got " ++ describe e.found
  | .tooManyBounds => "for loop takes at most 3 bounds"
  | .unresolved error => error.message

/-- What an outcome amounts to in a text that ends at `finish`: the value or the error, and the
stream that is left. -/
def Outcome.settle {α : Type} (finish : Pos) :
    Outcome α → Except ParseError α × TokenStream
  | .ok a rest => (.ok a, ⟨rest, finish⟩)
  | .error cause rest =>
    (.error ⟨cause, rest.head?.map Token.lexeme, TokenStream.pos ⟨rest, finish⟩⟩, ⟨rest, finish⟩)

/-! ### Single tokens -/

/-- Whether the next token is the keyword or symbol with the spelling `text`. The end of the input
has the empty spelling. -/
def atMark (text : String) : List Token → Bool
  | t :: _ => t.lexeme.mark? == some text
  | [] => text == ""

/-- Whether the next token is a binary operator. -/
def atOperator : List Token → Bool
  | ⟨.symbol (.op _), _⟩ :: _ => true
  | _ => false

/-- Takes the keyword or symbol with the spelling `text`. -/
def expect (text : String) (ts : List Token) : Outcome Unit :=
  if atMark text ts then .ok () ts.tail else .error (.marks [text]) ts

/-- Takes an identifier. -/
def expectIdent : List Token → Outcome String
  | ⟨.ident name, _⟩ :: rest => .ok name rest
  | ts => .error .identifier ts

theorem Lexeme.mark?_ne_empty (l : Lexeme) : l.mark? ≠ some "" := by
  cases l with
  | keyword k => cases k <;> decide
  | symbol s =>
    cases s with
    | op o => cases o <;> decide
    | _ => decide
  | _ => simp [mark?]

/-- The tokens are at the spelling of a mark exactly if the mark comes next. -/
theorem atMark_iff {m : Lexeme} {text : String} (hm : m.mark? = some text) {ts : List Token} :
    atMark text ts = true ↔ ∃ p rest, ts = ⟨m, p⟩ :: rest := by
  constructor
  · intro h
    cases ts with
    | nil =>
      rw [atMark, beq_iff_eq] at h
      exact absurd (h ▸ hm) m.mark?_ne_empty
    | cons t rest =>
      rw [atMark, beq_iff_eq] at h
      obtain rfl := Lexeme.eq_of_mark? h hm
      exact ⟨t.pos, rest, rfl⟩
  · rintro ⟨p, rest, rfl⟩
    rw [atMark, beq_iff_eq]
    exact hm

theorem atOperator_iff {ts : List Token} :
    atOperator ts = true ↔ ∃ o p rest, ts = ⟨.symbol (.op o), p⟩ :: rest := by
  constructor
  · intro h
    unfold atOperator at h
    split at h
    · exact ⟨_, _, _, rfl⟩
    · exact absurd h (by simp)
  · rintro ⟨o, p, rest, rfl⟩
    rfl

/-- Taking the mark `m` succeeds exactly if it comes next. -/
theorem expect_eq_ok_iff {m : Lexeme} {text : String} (hm : m.mark? = some text)
    {ts rest : List Token} {u : Unit} :
    expect text ts = .ok u rest ↔ ∃ p, ts = ⟨m, p⟩ :: rest := by
  constructor
  · intro h
    unfold expect at h
    split at h
    · rename_i hmark
      obtain ⟨p, rest', rfl⟩ := (atMark_iff hm).mp hmark
      obtain ⟨-, rfl⟩ := Outcome.ok.inj h
      exact ⟨p, rfl⟩
    · exact absurd h (by simp)
  · rintro ⟨p, rfl⟩
    rw [expect, if_pos ((atMark_iff hm).mpr ⟨p, rest, rfl⟩)]
    rfl

theorem expectIdent_eq_ok_iff {ts rest : List Token} {name : String} :
    expectIdent ts = .ok name rest ↔ ∃ p, ts = ⟨.ident name, p⟩ :: rest := by
  constructor
  · intro h
    unfold expectIdent at h
    split at h
    · rename_i p _
      obtain ⟨rfl, rfl⟩ := Outcome.ok.inj h
      exact ⟨p, rfl⟩
    · exact absurd h (by simp)
  · rintro ⟨p, rfl⟩
    rfl

end NumScript
