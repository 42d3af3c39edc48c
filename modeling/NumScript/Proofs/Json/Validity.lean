import NumScript.Json.Datum
import NumScript.Proofs.Json.Written

/-!
# NumScript.Proofs.Json.Validity

Which data have a text that is JSON. The grammar has no text with a control character other than the
three that are blanks (`DocumentText.all_isWritableChar`), but such a character is written into a
string as it is. So the text of a value without NaN is JSON exactly if no string and no key in it
has such a character (`exists_documentText_render_iff`), and then it is read as that value.

A value is laid out at a depth as long as the blanks of its deepest line can be counted
(`Datum.strict_ofJson_eq_ok_iff`).
-/

namespace NumScript

namespace Json

/-! ### The characters of a JSON text -/

theorem isWritableChar_of_le {c : Char} (h : ' ' ≤ c) : isWritableChar c = true := by
  simp [isWritableChar, h]

theorem isWritableChar_of_isDigit {c : Char} (h : c.isDigit = true) : isWritableChar c = true := by
  have hrange : (decide (c.val ≥ 48) && decide (c.val ≤ 57)) = true := h
  rw [Bool.and_eq_true, decide_eq_true_eq] at hrange
  exact isWritableChar_of_le (Nat.le_trans (by decide : ' '.toNat ≤ '0'.toNat) hrange.1)

theorem isWritableChar_of_isNumberChar {c : Char} (h : isNumberChar c = true) :
    isWritableChar c = true := by
  simp only [isNumberChar, Bool.or_eq_true, beq_iff_eq] at h
  obtain ((((hdigit | rfl) | rfl) | rfl) | rfl) | rfl := h
  · exact isWritableChar_of_isDigit hdigit
  all_goals rfl

theorem all_isWritableChar_of_isNumberChar {cs : List Char} (h : cs.all isNumberChar = true) :
    cs.all isWritableChar = true :=
  List.all_eq_true.mpr fun c hc => isWritableChar_of_isNumberChar (List.all_eq_true.mp h c hc)

theorem isWritableChar_of_isBlankChar {c : Char} (h : isBlankChar c = true) :
    isWritableChar c = true := by
  simp only [isBlankChar, Bool.or_eq_true, beq_iff_eq] at h
  obtain ((rfl | rfl) | rfl) | rfl := h <;> decide

theorem all_isWritableChar_of_isBlankChar {ws : List Char} (h : ws.all isBlankChar = true) :
    ws.all isWritableChar = true :=
  List.all_eq_true.mpr fun c hc => isWritableChar_of_isBlankChar (List.all_eq_true.mp h c hc)

theorem isWritableChar_of_hexValue? {c : Char} {n : Nat} (h : hexValue? c = some n) :
    isWritableChar c = true := by
  unfold hexValue? at h
  split at h
  · rename_i hdigit
    exact isWritableChar_of_isDigit hdigit
  · split at h
    · rename_i hlower
      exact isWritableChar_of_le (Nat.le_trans (by decide : ' '.toNat ≤ 'a'.toNat) hlower.1)
    · split at h
      · rename_i hupper
        exact isWritableChar_of_le (Nat.le_trans (by decide : ' '.toNat ≤ 'A'.toNat) hupper.1)
      · cases h

theorem all_isWritableChar_of_codeUnit? {a b c d : Char} {n : Nat}
    (h : codeUnit? a b c d = some n) : [a, b, c, d].all isWritableChar = true := by
  simp only [codeUnit?, Option.bind_eq_bind, Option.bind_eq_some_iff] at h
  obtain ⟨_, ha, _, hb, _, hc, _, hd, -⟩ := h
  simp [isWritableChar_of_hexValue? ha, isWritableChar_of_hexValue? hb,
    isWritableChar_of_hexValue? hc, isWritableChar_of_hexValue? hd]

theorem EscapeText.all_isWritableChar {c : Char} {es : List Char} (h : EscapeText c es) :
    es.all isWritableChar = true := by
  cases h with
  | @letter e c h =>
    unfold unescape? at h
    split at h
    case h_9 => cases h
    all_goals rfl
  | unit h =>
    have hunit := all_isWritableChar_of_codeUnit? h
    rw [List.all_cons, hunit]
    rfl
  | pair hn _ hm =>
    have hhigh := all_isWritableChar_of_codeUnit? hn
    have hlow := all_isWritableChar_of_codeUnit? hm
    simp_all [isWritableChar]

theorem StringText.all_isWritableChar {cs ts : List Char} (h : StringText cs ts) :
    ts.all isWritableChar = true := by
  induction h with
  | nil => rfl
  | plain hc _ ih =>
    simp only [isPlainChar, Bool.and_eq_true, decide_eq_true_eq] at hc
    rw [List.all_cons, isWritableChar_of_le hc.1.1, ih]
    rfl
  | escape he _ ih =>
    rw [List.all_cons, List.all_append, he.all_isWritableChar, ih]
    rfl

mutual

theorem ValueText.all_isWritableChar {j : Json} {ts : List Char} (h : ValueText j ts) :
    ts.all isWritableChar = true := by
  cases h with
  | null => rfl
  | boolTrue => rfl
  | boolFalse => rfl
  | int negative hw =>
    exact all_isWritableChar_of_isNumberChar (all_isNumberChar_int negative hw)
  | number negative hw hf he =>
    exact all_isWritableChar_of_isNumberChar (all_isNumberChar_number negative hw hf he)
  | str h => rw [List.all_cons, List.all_append, h.all_isWritableChar]; rfl
  | noItems hws => rw [List.all_cons, List.all_append, all_isWritableChar_of_isBlankChar hws]; rfl
  | arr h => rw [List.all_cons, List.all_append, h.all_isWritableChar]; rfl
  | noFields hws => rw [List.all_cons, List.all_append, all_isWritableChar_of_isBlankChar hws]; rfl
  | obj h => rw [List.all_cons, List.all_append, h.all_isWritableChar]; rfl

theorem ItemsText.all_isWritableChar {items : List Json} {ts : List Char}
    (h : ItemsText items ts) : ts.all isWritableChar = true := by
  cases h with
  | last hws h hvs =>
    rw [List.all_append, List.all_append, all_isWritableChar_of_isBlankChar hws,
      h.all_isWritableChar, all_isWritableChar_of_isBlankChar hvs]
    rfl
  | cons hws h hvs hs =>
    rw [List.all_append, List.all_append, List.all_append, List.all_cons,
      all_isWritableChar_of_isBlankChar hws, h.all_isWritableChar,
      all_isWritableChar_of_isBlankChar hvs, hs.all_isWritableChar]
    rfl

theorem MemberText.all_isWritableChar {field : String × Json} {ts : List Char}
    (h : MemberText field ts) : ts.all isWritableChar = true := by
  cases h with
  | mk hkey hws hvs h =>
    rw [List.all_cons, List.all_append, List.all_cons, List.all_append, List.all_cons,
      List.all_append, hkey.all_isWritableChar, all_isWritableChar_of_isBlankChar hws,
      all_isWritableChar_of_isBlankChar hvs, h.all_isWritableChar]
    rfl

theorem FieldsText.all_isWritableChar {fields : List (String × Json)} {ts : List Char}
    (h : FieldsText fields ts) : ts.all isWritableChar = true := by
  cases h with
  | last hws h hvs =>
    rw [List.all_append, List.all_append, all_isWritableChar_of_isBlankChar hws,
      h.all_isWritableChar, all_isWritableChar_of_isBlankChar hvs]
    rfl
  | cons hws h hvs hs =>
    rw [List.all_append, List.all_append, List.all_append, List.all_cons,
      all_isWritableChar_of_isBlankChar hws, h.all_isWritableChar,
      all_isWritableChar_of_isBlankChar hvs, hs.all_isWritableChar]
    rfl

end

/-- No JSON text has a control character other than the blanks. -/
theorem DocumentText.all_isWritableChar {j : Json} {ts : List Char} (h : DocumentText j ts) :
    ts.all isWritableChar = true := by
  cases h with
  | mk hws h hvs =>
    rw [List.all_append, List.all_append, all_isWritableChar_of_isBlankChar hws,
      h.all_isWritableChar, all_isWritableChar_of_isBlankChar hvs]
    rfl

/-! ### The characters of a written value -/

mutual

/-- Whether no number in the value is a NaN, so that the value is one that JSON knows. -/
def isNumeric : Json → Bool
  | .null => true
  | .bool _ => true
  | .int _ => true
  | .number value => !value.isNan
  | .str _ => true
  | .arr items => areNumeric items
  | .obj fields => areNumericFields fields

/-- Whether no number in the items is a NaN. -/
def areNumeric : List Json → Bool
  | [] => true
  | item :: items => item.isNumeric && areNumeric items

/-- Whether no number in the fields is a NaN. -/
def areNumericFields : List (String × Json) → Bool
  | [] => true
  | (_, value) :: fields => value.isNumeric && areNumericFields fields

end

/-- A character that cannot be written is not escaped. -/
theorem escapeChar_of_not_isWritableChar {c : Char} (h : isWritableChar c = false) :
    escapeChar c = [c] := by
  have hne : ∀ d : Char, isWritableChar d = true → c ≠ d := by
    rintro d hd rfl
    rw [h] at hd
    cases hd
  simp [escapeChar, hne '\\' rfl, hne '"' rfl, hne '\n' rfl, hne '\r' rfl, hne '\t' rfl]

/-- The text has a character that no JSON text has. -/
def HasControl (text : String) : Prop := ∃ c ∈ text.toList, isWritableChar c = false

theorem hasControl_stringText {text : String} (h : isWritableText text = false) :
    HasControl (stringText text) := by
  obtain ⟨c, hc, hcontrol⟩ := List.all_eq_false.mp h
  rw [Bool.not_eq_true] at hcontrol
  refine ⟨c, ?_, hcontrol⟩
  have hmem : c ∈ text.toList.flatMap escapeChar :=
    List.mem_flatMap.mpr ⟨c, hc, by simp [escapeChar_of_not_isWritableChar hcontrol]⟩
  rw [toList_stringText]
  simp [hmem]

theorem HasControl.append_left {text : String} (h : HasControl text) (more : String) :
    HasControl (text ++ more) := by
  obtain ⟨c, hc, hcontrol⟩ := h
  exact ⟨c, by simp [hc], hcontrol⟩

theorem HasControl.append_right {text : String} (h : HasControl text) (before : String) :
    HasControl (before ++ text) := by
  obtain ⟨c, hc, hcontrol⟩ := h
  exact ⟨c, by simp [hc], hcontrol⟩

theorem hasControl_bracketed {opening closing : String} {depth : Int} {text : String}
    {texts : List String} (htext : text ∈ texts) (h : HasControl text) :
    HasControl (bracketed opening closing depth texts) := by
  obtain ⟨c, hc, hcontrol⟩ := h
  exact ⟨c, (infix_bracketed htext opening closing depth).subset hc, hcontrol⟩

mutual

/-- A value without NaN that cannot be written has a text with a control character. -/
theorem hasControl_render (depth : Int) (j : Json) (hj : j.isNumeric = true)
    (h : j.isWritable = false) : HasControl (j.render depth) := by
  cases j with
  | null => cases h
  | bool value => cases h
  | int value => cases h
  | number value =>
    rw [isNumeric] at hj
    rw [isWritable, hj] at h
    cases h
  | str text => exact hasControl_stringText h
  | arr items =>
    obtain ⟨text, htext, hcontrol⟩ := exists_hasControl_items (depth + 1) items hj h
    exact hasControl_bracketed htext hcontrol
  | obj fields =>
    obtain ⟨text, htext, hcontrol⟩ := exists_hasControl_fields (depth + 1) fields hj h
    exact hasControl_bracketed htext hcontrol

theorem exists_hasControl_items (depth : Int) (items : List Json)
    (hitems : areNumeric items = true) (h : areWritable items = false) :
    ∃ text ∈ renderItems depth items, HasControl text := by
  cases items with
  | nil => cases h
  | cons item items =>
    rw [areNumeric, Bool.and_eq_true] at hitems
    rw [areWritable, Bool.and_eq_false_iff] at h
    obtain hitem | hmore := h
    · exact ⟨_, List.mem_cons_self, hasControl_render depth item hitems.1 hitem⟩
    · obtain ⟨text, htext, hcontrol⟩ := exists_hasControl_items depth items hitems.2 hmore
      exact ⟨text, List.mem_cons_of_mem _ htext, hcontrol⟩

theorem exists_hasControl_fields (depth : Int) (fields : List (String × Json))
    (hfields : areNumericFields fields = true) (h : areWritableFields fields = false) :
    ∃ text ∈ renderFields depth fields, HasControl text := by
  cases fields with
  | nil => cases h
  | cons field fields =>
    obtain ⟨key, value⟩ := field
    rw [areNumericFields, Bool.and_eq_true] at hfields
    rw [areWritableFields, Bool.and_eq_false_iff, Bool.and_eq_false_iff] at h
    obtain (hkey | hvalue) | hmore := h
    · exact ⟨_, List.mem_cons_self, ((hasControl_stringText hkey).append_left _).append_left _⟩
    · have hcontrol := hasControl_render depth value hfields.1 hvalue
      exact ⟨_, List.mem_cons_self, hcontrol.append_right _⟩
    · obtain ⟨text, htext, hcontrol⟩ := exists_hasControl_fields depth fields hfields.2 hmore
      exact ⟨text, List.mem_cons_of_mem _ htext, hcontrol⟩

end

/-- At every depth, the text of a value that can be written is a text of the grammar. -/
theorem render_documentText (depth : Int) {j : Json} (h : j.isWritable = true) :
    DocumentText j (j.render depth).toList := by
  have hdocument := DocumentText.mk (rfl : [].all isBlankChar = true) (render_valueText depth j h)
    (rfl : [].all isBlankChar = true)
  rwa [List.nil_append, List.append_nil] at hdocument

theorem exists_documentText_render_iff (depth : Int) {j : Json} (hj : j.isNumeric = true) :
    (∃ j', DocumentText j' (j.render depth).toList) ↔ j.isWritable = true := by
  constructor
  · rintro ⟨j', hdocument⟩
    by_contra h
    rw [Bool.not_eq_true] at h
    obtain ⟨c, hc, hcontrol⟩ := hasControl_render depth j hj h
    have hall := List.all_eq_true.mp hdocument.all_isWritableChar c hc
    rw [hcontrol] at hall
    cases hall
  · intro h
    exact ⟨j, render_documentText depth h⟩

end Json

/-! ### Data at a depth -/

namespace Datum

mutual

/-- A JSON value as a datum. -/
def ofJson : Json → Datum
  | .null => .null
  | .bool value => .bool value
  | .int value => .int value
  | .number value => .number value
  | .str text => .str text
  | .arr items => .list (ofItems items)
  | .obj fields => .record (ofFields fields)

/-- Items as data. -/
def ofItems : List Json → List Datum
  | [] => []
  | j :: js => ofJson j :: ofItems js

/-- Fields as data. -/
def ofFields : List (String × Json) → List (Key × Datum)
  | [] => []
  | (key, value) :: fields => (.text key, ofJson value) :: ofFields fields

end

end Datum

mutual

/-- How many levels deeper than its first line the deepest line of a value is. -/
def Json.levels : Json → Nat
  | .null => 0
  | .bool _ => 0
  | .int _ => 0
  | .number _ => 0
  | .str _ => 0
  | .arr items => if items.isEmpty then 0 else itemLevels items + 1
  | .obj fields => if fields.isEmpty then 0 else fieldLevels fields + 1

/-- How many levels the deepest of the items has. -/
def itemLevels : List Json → Nat
  | [] => 0
  | item :: items => max item.levels (itemLevels items)

/-- How many levels the deepest of the fields has. -/
def fieldLevels : List (String × Json) → Nat
  | [] => 0
  | (_, value) :: fields => max value.levels (fieldLevels fields)

end

namespace Datum

/-- The blanks of all lines can be counted, where there is more than one line: neither is the depth
too far below zero nor that of the deepest line too large. -/
def FitsAt (depth : Int) (levels : Nat) : Prop :=
  levels = 0 ∨ -wordLimit ≤ depth ∧ 2 * (depth + levels) < wordLimit

theorem checkDepth_eq_ok_iff {depth : Int} :
    checkDepth depth = .ok () ↔ -wordLimit ≤ depth ∧ 2 * depth < wordLimit := by
  unfold checkDepth wordLimit
  split
  · rename_i h
    simp only [Bool.or_eq_true, decide_eq_true_eq] at h
    constructor
    · intro hok
      cases hok
    · omega
  · rename_i h
    simp only [Bool.or_eq_true, decide_eq_true_eq] at h
    split
    · constructor
      · intro hok
        cases hok
      · omega
    · exact ⟨fun _ => by omega, fun _ => rfl⟩

theorem fitsAt_zero (depth : Int) : FitsAt depth 0 := .inl rfl

theorem fitsAt_max {depth : Int} {m n : Nat} :
    FitsAt depth (max m n) ↔ FitsAt depth m ∧ FitsAt depth n := by
  unfold FitsAt wordLimit
  omega

/-- A step and what follows it succeed together. -/
theorem bind_eq_ok_iff {α β : Type} {x : Except LayoutError α} {next : α → Except LayoutError β}
    {b : β} : (x >>= next) = .ok b ↔ ∃ a, x = .ok a ∧ next a = .ok b := by
  cases x with
  | ok a =>
    constructor
    · intro h
      exact ⟨a, rfl, h⟩
    · rintro ⟨a', h, hnext⟩
      cases h
      exact hnext
  | error e =>
    constructor
    · intro h
      cases h
    · rintro ⟨a, h, -⟩
      cases h

/-- Brackets fit if their members do, one level deeper, and the lines of the members and of the
closing bracket have a depth. -/
theorem fitsAt_brackets {α : Type} {members : List α} {depth : Int} {n : Nat}
    (hn : members = [] → n = 0) :
    FitsAt depth (if members.isEmpty then 0 else n + 1) ↔
      FitsAt (depth + 1) n ∧ checkBrackets depth members.isEmpty = .ok () := by
  cases members with
  | nil =>
    rw [hn rfl]
    exact ⟨fun _ => ⟨fitsAt_zero _, rfl⟩, fun _ => fitsAt_zero _⟩
  | cons m ms =>
    have hcheck : checkBrackets depth false = .ok () ↔
        checkDepth (depth + 1) = .ok () ∧ checkDepth depth = .ok () := by
      rw [checkBrackets, if_neg (by decide), bind_eq_ok_iff]
      constructor
      · rintro ⟨u, h⟩
        exact h
      · intro h
        exact ⟨(), h⟩
    rw [List.isEmpty_cons, if_neg (by decide), hcheck, checkDepth_eq_ok_iff, checkDepth_eq_ok_iff]
    unfold FitsAt wordLimit
    omega

/-- Brackets are accepted around members that are, at the depths that the lines of all fit at. -/
theorem brackets_eq_ok_iff {α : Type} {x : Except LayoutError (List α)} {members : List α}
    {depth : Int} {n : Nat} (wrap : List α → Json) {j : Json} (hn : members = [] → n = 0)
    (hx : ∀ {ms}, x = .ok ms ↔ FitsAt (depth + 1) n ∧ ms = members) :
    (do
      let ms ← x
      checkBrackets depth ms.isEmpty
      return wrap ms) = .ok j ↔
        FitsAt depth (if members.isEmpty then 0 else n + 1) ∧ j = wrap members := by
  rw [fitsAt_brackets hn]
  constructor
  · intro h
    obtain ⟨ms, hms, h⟩ := bind_eq_ok_iff.mp h
    obtain ⟨hfit, rfl⟩ := hx.mp hms
    obtain ⟨u, hcheck, hj⟩ := bind_eq_ok_iff.mp h
    cases hj
    exact ⟨⟨hfit, hcheck⟩, rfl⟩
  · rintro ⟨⟨hfit, hcheck⟩, rfl⟩
    exact bind_eq_ok_iff.mpr ⟨members, hx.mpr ⟨hfit, rfl⟩, bind_eq_ok_iff.mpr ⟨(), hcheck, rfl⟩⟩

mutual

/-- A JSON value is accepted at the depths that its lines fit at, and is left as it is. -/
theorem strict_ofJson_eq_ok_iff (depth : Int) (j : Json) {j' : Json} :
    (ofJson j).strict depth = .ok j' ↔ FitsAt depth j.levels ∧ j' = j := by
  have hscalar : ∀ {j : Json}, (Except.ok j : Except LayoutError Json) = .ok j' ↔
      FitsAt depth 0 ∧ j' = j := by
    intro j
    simp [fitsAt_zero, eq_comm]
  cases j with
  | null => exact hscalar
  | bool value => exact hscalar
  | int value => exact hscalar
  | number value => exact hscalar
  | str text => exact hscalar
  | arr items =>
    refine brackets_eq_ok_iff .arr ?_ (strictItems_ofItems_eq_ok_iff (depth + 1) items)
    rintro rfl
    rfl
  | obj fields =>
    refine brackets_eq_ok_iff .obj ?_ (strictFields_ofFields_eq_ok_iff (depth + 1) fields)
    rintro rfl
    rfl

theorem strictItems_ofItems_eq_ok_iff (depth : Int) (items : List Json) {js : List Json} :
    strictItems depth (ofItems items) = .ok js ↔ FitsAt depth (itemLevels items) ∧ js = items := by
  cases items with
  | nil => simp [ofItems, strictItems, itemLevels, fitsAt_zero, pure, Except.pure, eq_comm]
  | cons j items =>
    rw [ofItems, strictItems, itemLevels, fitsAt_max, bind_eq_ok_iff]
    simp only [bind_eq_ok_iff, strict_ofJson_eq_ok_iff depth j,
      strictItems_ofItems_eq_ok_iff depth items]
    constructor
    · rintro ⟨_, ⟨hj, rfl⟩, _, ⟨hitems, rfl⟩, h⟩
      cases h
      exact ⟨⟨hj, hitems⟩, rfl⟩
    · rintro ⟨⟨hj, hitems⟩, rfl⟩
      exact ⟨_, ⟨hj, rfl⟩, _, ⟨hitems, rfl⟩, rfl⟩

theorem strictFields_ofFields_eq_ok_iff (depth : Int) (fields : List (String × Json))
    {fs : List (String × Json)} :
    strictFields depth (ofFields fields) = .ok fs ↔
      FitsAt depth (fieldLevels fields) ∧ fs = fields := by
  cases fields with
  | nil => simp [ofFields, strictFields, fieldLevels, fitsAt_zero, pure, Except.pure, eq_comm]
  | cons field fields =>
    obtain ⟨key, j⟩ := field
    rw [ofFields, strictFields, fieldLevels, fitsAt_max, bind_eq_ok_iff]
    simp only [bind_eq_ok_iff, strict_ofJson_eq_ok_iff depth j,
      strictFields_ofFields_eq_ok_iff depth fields]
    constructor
    · rintro ⟨_, ⟨hj, rfl⟩, _, ⟨hfields, rfl⟩, h⟩
      cases h
      exact ⟨⟨hj, hfields⟩, rfl⟩
    · rintro ⟨⟨hj, hfields⟩, rfl⟩
      exact ⟨_, ⟨hj, rfl⟩, _, ⟨hfields, rfl⟩, rfl⟩

end

theorem render_ofJson_eq_ok_iff (depth : Int) (j : Json) {text : String} :
    (ofJson j).render depth = .ok text ↔ FitsAt depth j.levels ∧ text = j.render depth := by
  rw [render, bind_eq_ok_iff]
  simp only [strict_ofJson_eq_ok_iff]
  constructor
  · rintro ⟨_, ⟨hfit, rfl⟩, h⟩
    cases h
    exact ⟨hfit, rfl⟩
  · rintro ⟨hfit, rfl⟩
    exact ⟨j, ⟨hfit, rfl⟩, rfl⟩

/-- A JSON value without NaN has a text at every depth that its lines fit at. The text is JSON
exactly if no string and no key in the value has a control character other than the three that are
escaped, and then it is a text of this value and is read as it. -/
theorem render_isJson_iff (depth : Int) {j : Json} (hj : j.isNumeric = true) :
    ((∃ text, (ofJson j).render depth = .ok text) ↔ FitsAt depth j.levels) ∧
    ∀ text, (ofJson j).render depth = .ok text →
      ((∃ j', Json.DocumentText j' text.toList) ↔ j.isWritable = true) ∧
      (j.isWritable = true → Json.DocumentText j text.toList ∧ Json.read? text = some j) := by
  refine ⟨⟨?_, ?_⟩, fun text htext => ?_⟩
  · rintro ⟨text, htext⟩
    exact ((render_ofJson_eq_ok_iff depth j).mp htext).1
  · intro hfit
    exact ⟨_, (render_ofJson_eq_ok_iff depth j).mpr ⟨hfit, rfl⟩⟩
  · obtain ⟨-, rfl⟩ := (render_ofJson_eq_ok_iff depth j).mp htext
    refine ⟨Json.exists_documentText_render_iff depth hj, fun hwritable => ?_⟩
    have hdocument := Json.render_documentText depth hwritable
    exact ⟨hdocument, hdocument.read?_eq_some⟩

/-- A list in a record, with a line end in a key and a quote and an infinity in the list. -/
def listed : Json :=
  .obj [("a\nb", .arr [.str "\"", .number (.infinite true), .arr [], .null]), ("", .int (-7))]

theorem listed_render_isJson :
    listed.isNumeric = true ∧ listed.isWritable = true ∧
    ∃ text, (ofJson listed).render 3 = .ok text ∧ Json.DocumentText listed text.toList ∧
      Json.read? text = some listed := by
  have hnumeric : listed.isNumeric = true := by decide
  have hwritable : listed.isWritable = true := by decide
  obtain ⟨hfits, htexts⟩ := render_isJson_iff 3 hnumeric
  obtain ⟨text, htext⟩ := hfits.mpr (.inr (by decide))
  exact ⟨hnumeric, hwritable, text, htext, (htexts text htext).2 hwritable⟩

/-- A control character in a string is written as it is, and the text is not JSON. -/
theorem control_render_notJson :
    (ofJson (.str "\x01")).render 0 = .ok "\"\x01\"" ∧
      ¬ ∃ j, Json.DocumentText j "\"\x01\"".toList := by
  refine ⟨rfl, ?_⟩
  rintro ⟨j, hj⟩
  exact absurd hj.all_isWritableChar (by decide)

end Datum

end NumScript
