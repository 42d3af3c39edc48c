import NumScript.Proofs.Codegen.Calls

/-!
# NumScript.Proofs.Codegen.Session

One builder used again and again. A session starts without functions and answers any sequence of
requests: write a program, a function, an entry unit, a statement or an expression. A request that
fails is not taken back, so the next one starts from whatever it left.

What a request keeps (`BuildRequest.keeping`) gives what a session keeps: there is one prototype for
each function, definitions, prototypes and finished functions are only added to, and every call in
every text that the session has handed out or holds is a call of a function with a fitting prototype
(`Session.calls_declared`).
-/

namespace NumScript

/-- Something to be written. -/
inductive BuildRequest where
  | program (p : Program)
  | function (pos? : Option Pos) (name : String) (params : List String) (body : List Stmt)
  | entry (body : List Stmt)
  | stmt (returns : Bool) (s : Stmt)
  | expr (e : Expr)

namespace BuildRequest

/-- Writes what is requested. Only a statement is not handed out as a text. -/
def action : BuildRequest → Build (Option String)
  | .program p => some <$> Build.program p
  | .function pos? name params body => some <$> Build.functionOf pos? name params body
  | .entry body => some <$> Build.entry body
  | .stmt returns s => (fun _ => none) <$> Build.stmt returns s
  | .expr e => some <$> Build.expr e

/-- The names in a request. -/
def names : BuildRequest → List String
  | .program p => stmtsNames p
  | .function _ name params body => name :: (params ++ stmtsNames body)
  | .entry body => stmtsNames body
  | .stmt _ s => stmtsNames [s]
  | .expr e => e.names

end BuildRequest

/-- A builder in use, and the texts that have been handed out. -/
structure Session where
  builder : Builder
  returned : List String

namespace Session

/-- The session before the first request. -/
def start (suffix : Nat → String) : Session := ⟨.start (.empty suffix), []⟩

/-- Answers a request. -/
def perform (s : Session) (request : BuildRequest) : Session :=
  match request.action s.builder with
  | .ok text? b => ⟨b, s.returned ++ text?.toList⟩
  | .error _ b => ⟨b, s.returned⟩

/-- The session after requests. -/
def after (suffix : Nat → String) (requests : List BuildRequest) : Session :=
  requests.foldl perform (start suffix)

/-- All texts in a session. -/
def texts (s : Session) : List String :=
  s.builder.lines ++ s.builder.functions ++ s.builder.prototypes ++ s.returned

end Session

/-! ### Requests -/

/-- From the builder `b` to the builder `b'` with the text `text?` handed out, all that is kept by
writing is kept. -/
structure Keeps (isName : String → Prop) (b b' : Builder) (text? : Option String) : Prop where
  grows : b.Grows b'
  matched : b.Matched → b'.Matched
  written : b.IsWritten isName → b'.IsWritten isName ∧
    ∀ text ∈ text?, Written b'.names.definitions isName text

namespace Build

variable {isName : String → Prop} {b : Builder} {s : Script}

theorem map_ok {α β : Type} {x : Build α} {f : α → β} {b' : Builder} {a : α}
    (h : x b = .ok a b') : (f <$> x) b = .ok (f a) b' := by
  show EStateM.map f x b = _
  rw [EStateM.map, h]

theorem map_error {α β : Type} {x : Build α} {f : α → β} {b' : Builder} {e : CodegenError}
    (h : x b = .error e b') : (f <$> x) b = .error e b' := by
  show EStateM.map f x b = _
  rw [EStateM.map, h]

/-- A script keeps what is to be kept. -/
theorem keeps_of_runs {r : EStateM.Result CodegenError Builder Unit} (h : Script.Runs s b r)
    (hnames : ∀ x ∈ s.names, isName x) : Keeps isName b (builderLeft r) none :=
  ⟨h.grows, h.matched, fun hb => ⟨h.written hnames hb, by simp⟩⟩

/-- So does a unit, whether it is finished or not. -/
theorem keeps_of_openUnit {header : String} {r : EStateM.Result CodegenError Builder Unit}
    (h : Script.Runs s (b.openUnit header) r) (hnames : ∀ x ∈ s.names, isName x)
    (hheader : LineText b.names.definitions isName header) :
    Keeps isName b (builderLeft r) none := by
  have hkeeps := keeps_of_runs h hnames
  have hopen : b.Grows (b.openUnit header) := .same rfl rfl rfl
  refine ⟨hopen.trans hkeeps.grows, fun hb => hkeeps.matched ⟨hb.regular, hb.prototypes⟩, ?_⟩
  exact fun hb => hkeeps.written (hb.openUnit hheader)

theorem keeps_of_unit {header : String} {b' : Builder} (returnsZero : Bool)
    (h : Script.Runs s (b.openUnit header) (.ok () b')) (hnames : ∀ x ∈ s.names, isName x)
    (hheader : LineText b.names.definitions isName header) :
    Keeps isName b (b'.backTo b) (some (b'.unitText returnsZero)) := by
  have hkeeps := keeps_of_openUnit h hnames hheader
  refine ⟨⟨hkeeps.grows.names, hkeeps.grows.prototypes, hkeeps.grows.functions⟩, ?_, ?_⟩
  · intro hb
    have hmatched := hkeeps.matched hb
    exact ⟨hmatched.regular, hmatched.prototypes⟩
  · intro hb
    have hwritten := (hkeeps.written hb).1
    refine ⟨hwritten.backTo hb hkeeps.grows, ?_⟩
    intro text htext
    obtain rfl := Option.some.inj htext
    exact hwritten.unitText returnsZero

end Build

theorem Keeps.refl (isName : String → Prop) (b : Builder) : Keeps isName b b none :=
  ⟨.refl b, id, fun hb => ⟨hb, by simp⟩⟩

theorem Keeps.trans {isName : String → Prop} {b b' b'' : Builder} {text? : Option String}
    (h : Keeps isName b b' none) (h' : Keeps isName b' b'' text?) : Keeps isName b b'' text? :=
  ⟨h.grows.trans h'.grows, fun hb => h'.matched (h.matched hb),
    fun hb => h'.written (h.written hb).1⟩

/-- What an action leaves and hands out keeps what is to be kept. -/
def Build.Keeping (isName : String → Prop) (action : Build (Option String)) (b : Builder) : Prop :=
  match action b with
  | .ok text? b' => Keeps isName b b' text?
  | .error _ b' => Keeps isName b b' none

namespace Build.Keeping

variable {isName : String → Prop} {b b' : Builder}

theorem of_ok {action : Build (Option String)} {text? : Option String}
    (h : action b = .ok text? b') (hkeeps : Keeps isName b b' text?) :
    Keeping isName action b := by
  rw [Keeping, h]
  exact hkeeps

theorem of_error {action : Build (Option String)} {e : CodegenError}
    (h : action b = .error e b') (hkeeps : Keeps isName b b' none) : Keeping isName action b := by
  rw [Keeping, h]
  exact hkeeps

/-- A unit around a script. -/
theorem unit {header : String} (returnsZero : Bool) {s : Script} (hnames : ∀ x ∈ s.names, isName x)
    (hheader : LineText b.names.definitions isName header) :
    Keeping isName (some <$> Build.unit header returnsZero s.run) b := by
  have hrun := Script.runs_run s (b.openUnit header)
  cases h : s.run (b.openUnit header) with
  | ok u b' =>
    rw [h] at hrun
    exact of_ok (map_ok (unit_ok h)) (keeps_of_unit returnsZero hrun hnames hheader)
  | error e b' =>
    rw [h] at hrun
    exact of_error (map_error (unit_error h)) (keeps_of_openUnit hrun hnames hheader)

theorem program {p : Program} (hnames : ∀ x ∈ stmtsNames p, isName x) :
    Keeping isName (some <$> Build.program p) b := by
  rw [← stmtsScript_names false] at hnames
  have hrun := Script.runs_run (stmtsScript false p) (b.openUnit "int main(void) \x7b")
  cases h : (stmtsScript false p).run (b.openUnit "int main(void) \x7b") with
  | ok u b' =>
    rw [h] at hrun
    have hkeeps := keeps_of_unit true hrun hnames .main
    refine of_ok (map_ok (program_ok h)) ⟨hkeeps.grows, hkeeps.matched, ?_⟩
    intro hb
    obtain ⟨hwritten, hmain⟩ := hkeeps.written hb
    refine ⟨hwritten, ?_⟩
    intro text htext
    obtain rfl := Option.some.inj htext
    exact hwritten.fileText (hmain _ rfl)
  | error e b' =>
    rw [h] at hrun
    exact of_error (map_error (program_error h)) (keeps_of_openUnit hrun hnames .main)

theorem function (pos? : Option Pos) {name : String} {params : List String} (returnsZero : Bool)
    {s : Script} (hhead : ∀ x ∈ name :: params, isName x) (hnames : ∀ x ∈ s.names, isName x) :
    Keeping isName (some <$> Build.function pos? name params returnsZero s.run) b := by
  cases hname : b.names.define name params.length (pos?.getD b.pos) with
  | error e => exact of_error (map_error (function_error hname returnsZero s.run)) (.refl _ b)
  | ok defined =>
    obtain ⟨symbol, names⟩ := defined
    have hdeclare : Keeps isName b (b.declare names (signature symbol params)) none :=
      ⟨.declare hname _, fun hb => hb.declare hname,
        fun hb => ⟨hb.declare hhead hname, by simp⟩⟩
    have hheader : LineText names.definitions isName (signature symbol params ++ " \x7b") :=
      Builder.header_lineText (fun x hx => hhead x (List.mem_cons_of_mem _ hx)) hname
    have hunit := function_eq_unit hname returnsZero s.run
    -- from the declaration on, writing the function is writing its unit
    have hkeeping := unit (b := b.declare names (signature symbol params)) returnsZero hnames
      hheader
    unfold Keeping at hkeeping ⊢
    have haction : (some <$> Build.function pos? name params returnsZero s.run) b =
        (some <$> Build.unit (signature symbol params ++ " \x7b") returnsZero s.run)
          (b.declare names (signature symbol params)) := by
      show EStateM.map _ _ _ = EStateM.map _ _ _
      rw [EStateM.map, EStateM.map, hunit]
    rw [haction]
    split at hkeeping
    · exact hdeclare.trans hkeeping
    · exact hdeclare.trans hkeeping

end Build.Keeping

theorem Stmt.script_names (returns : Bool) (s : Stmt) :
    (s.script returns).names = stmtsNames [s] := by
  rw [Script.names, Stmt.script_pieces, List.flatMap_map, stmtsNames, listings, listings,
    List.append_nil]
  simp only [Stmt.piece_names]

/-- Answering a request keeps what is to be kept. -/
theorem BuildRequest.keeping {isName : String → Prop} (request : BuildRequest)
    (hnames : ∀ x ∈ request.names, isName x) (b : Builder) :
    Build.Keeping isName request.action b := by
  cases request with
  | program p => exact .program hnames
  | function pos? name params body =>
    have hbody : ∀ x ∈ (stmtsScript true body).names, isName x := by
      intro x hx
      rw [stmtsScript_names] at hx
      exact hnames x (by simp [names, hx])
    have hhead : ∀ x ∈ name :: params, isName x := by
      intro x hx
      rcases List.mem_cons.mp hx with rfl | hx
      · exact hnames x (by simp [names])
      · exact hnames x (by simp [names, hx])
    rw [action, Build.functionOf, Build.stmts_eq_run]
    exact .function pos? _ hhead hbody
  | entry body =>
    have hbody : ∀ x ∈ (stmtsScript false body).names, isName x := by
      rw [stmtsScript_names]
      exact hnames
    rw [action, Build.entry_eq_unit]
    exact .unit true hbody .main
  | stmt returns s =>
    have hscript : ∀ x ∈ (s.script returns).names, isName x := by
      rw [Stmt.script_names]
      exact hnames
    have hkeeps := Build.keeps_of_runs (Script.runs_run (s.script returns) b) hscript
    rw [action, Build.stmt_eq_run]
    cases h : (s.script returns).run b with
    | ok u b' =>
      rw [h] at hkeeps
      exact .of_ok (Build.map_ok h) hkeeps
    | error e b' =>
      rw [h] at hkeeps
      exact .of_error (Build.map_error h) hkeeps
  | expr e =>
    cases h : e.lower b.names b.pos with
    | ok text =>
      have hexpr : Build.expr e b = .ok text b := by
        show Build.ofExcept (e.lower b.names b.pos) b = _
        rw [h]
        rfl
      refine .of_ok (Build.map_ok hexpr) ⟨.refl b, id, fun hb => ⟨hb, ?_⟩⟩
      intro text' htext
      obtain rfl := Option.some.inj htext
      exact .expr (exprText_of_lower hnames h)
    | error err =>
      have hexpr : Build.expr e b = .error err b := by
        show Build.ofExcept (e.lower b.names b.pos) b = _
        rw [h]
        rfl
      exact .of_error (Build.map_error hexpr) (.refl _ b)

/-! ### Sessions -/

namespace Session

/-- What holds of a session at any time. -/
structure Sound (isName : String → Prop) (s : Session) : Prop where
  matched : s.builder.Matched
  written : s.builder.IsWritten isName
  returned : ∀ text ∈ s.returned, Written s.builder.names.definitions isName text

theorem start_sound (isName : String → Prop) (suffix : Nat → String) :
    (start suffix).Sound isName := by
  refine ⟨⟨NameTable.isRegular_empty suffix, .nil⟩, ⟨?_, ?_, ?_, ?_⟩, ?_⟩
  all_goals
    intro t ht
    exact absurd ht List.not_mem_nil

theorem perform_grows (s : Session) (request : BuildRequest) :
    s.builder.Grows (s.perform request).builder := by
  have hkeeping : Build.Keeping (fun _ => True) request.action s.builder :=
    request.keeping (fun _ _ => trivial) s.builder
  unfold Build.Keeping at hkeeping
  unfold perform
  split at hkeeping
  · exact hkeeping.grows
  · exact hkeeping.grows

/-- A request keeps a session sound. -/
theorem Sound.perform {isName : String → Prop} {s : Session} (hs : s.Sound isName)
    {request : BuildRequest} (hnames : ∀ x ∈ request.names, isName x) :
    (s.perform request).Sound isName := by
  have hkeeping := request.keeping hnames s.builder
  unfold Build.Keeping at hkeeping
  unfold Session.perform
  split at hkeeping
  · rename_i text? b' _
    obtain ⟨hwritten, htext⟩ := hkeeping.written hs.written
    refine ⟨hkeeping.matched hs.matched, hwritten, ?_⟩
    intro text hmem
    rcases List.mem_append.mp hmem with hmem | hmem
    · exact (hs.returned text hmem).mono hkeeping.grows.names.definitions.subset
    · exact htext text (Option.mem_toList.mp hmem)
  · rename_i e b' _
    refine ⟨hkeeping.matched hs.matched, (hkeeping.written hs.written).1, ?_⟩
    intro text hmem
    exact (hs.returned text hmem).mono hkeeping.grows.names.definitions.subset

/-- Requests keep a session sound. -/
theorem Sound.foldl_perform {isName : String → Prop} {s : Session} (hs : s.Sound isName)
    {requests : List BuildRequest} (hnames : ∀ request ∈ requests, ∀ x ∈ request.names, isName x) :
    (requests.foldl Session.perform s).Sound isName := by
  induction requests generalizing s with
  | nil => exact hs
  | cons request requests ih =>
    refine ih (hs.perform (hnames request List.mem_cons_self)) ?_
    intro r hr
    exact hnames r (List.mem_cons_of_mem _ hr)

/-- Requests only add to a builder. -/
theorem foldl_perform_grows (s : Session) (requests : List BuildRequest) :
    s.builder.Grows (requests.foldl perform s).builder := by
  induction requests generalizing s with
  | nil => exact .refl _
  | cons request requests ih => exact (s.perform_grows request).trans (ih (s.perform request))

theorem Sound.written_of_mem_texts {isName : String → Prop} {s : Session} (hs : s.Sound isName)
    {text : String} (h : text ∈ s.texts) : Written s.builder.names.definitions isName text := by
  rcases List.mem_append.mp h with h | h
  · rcases List.mem_append.mp h with h | h
    · rcases List.mem_append.mp h with h | h
      · exact hs.written.lines text h
      · exact hs.written.functions text h
    · exact hs.written.prototypes text h
  · exact hs.returned text h

/-- The symbols of functions are words if their names and the suffixes are. -/
theorem Sound.isWord_symbol {s : Session} (hs : s.Sound (isWord · = true))
    (hsuffix : ∀ k, (s.builder.names.suffix k).toList.all isWordChar = true) :
    ∀ d ∈ s.builder.names.definitions, isWord d.symbol = true := by
  intro d hd
  obtain ⟨i, hi⟩ := List.mem_iff_getElem?.mp hd
  rw [hs.matched.regular.symbol i d hi]
  exact mangle_isWord (hsuffix i) (hs.written.named d hd)

/-- After any requests there is one prototype for each function; later requests only add to
definitions, prototypes and functions; and all texts of the session are put together from calls of
functions that are defined, with as many arguments as their prototypes have parameters. Where names
and suffixes are words, these are all the calls that the texts have, apart from those of a few
routines. -/
theorem calls_declared (suffix : Nat → String) (requests further : List BuildRequest) :
    let s := after suffix requests
    let s' := after suffix (requests ++ further)
    s'.builder.Matched ∧ s.builder.Grows s'.builder ∧
    (∀ text ∈ s.texts, Written s'.builder.names.definitions
      (fun x => ∃ request ∈ requests, x ∈ request.names) text) ∧
    ((∀ k, (suffix k).toList.all isWordChar = true) →
      (∀ request ∈ requests, ∀ x ∈ request.names, isWord x = true) →
      ∀ text ∈ s.texts, isBracketed text = true ∧
        ∀ call ∈ callsIn text, Fits s'.builder.names.definitions call) := by
  intro s s'
  have hgrows : s.builder.Grows s'.builder := by
    have hafter : s' = further.foldl perform s := List.foldl_append
    rw [hafter]
    exact s.foldl_perform_grows further
  have hsub : s.builder.names.definitions ⊆ s'.builder.names.definitions :=
    hgrows.names.definitions.subset
  refine ⟨?_, hgrows, ?_, ?_⟩
  · have hsound : s'.Sound fun _ => True := (start_sound _ suffix).foldl_perform (by simp)
    exact hsound.matched
  · have hsound : s.Sound fun x => ∃ request ∈ requests, x ∈ request.names :=
      (start_sound _ suffix).foldl_perform fun request hrequest x hx => ⟨request, hrequest, hx⟩
    intro text htext
    exact (hsound.written_of_mem_texts htext).mono hsub
  · intro hsuffix hnames text htext
    have hsound : s.Sound (isWord · = true) := (start_sound _ suffix).foldl_perform hnames
    have hextends : (start suffix).builder.Grows s.builder :=
      (start suffix).foldl_perform_grows requests
    have hdefs := hsound.isWord_symbol fun k => by
      rw [hextends.names.suffix]
      exact hsuffix k
    have hcalls := (hsound.written_of_mem_texts htext).wellCalled hdefs
    exact ⟨hcalls.isBracketed, fun call hcall => (hcalls.fits call hcall).mono hsub⟩

end Session

/-- A function that calls itself, one whose body fails after it has been declared, and a call of the
latter. -/
def failedFunction : List BuildRequest :=
  [.function none "g" ["x"] [.expr ⟨1, 1⟩ (.call "g" [.ident "x"])],
   .function none "h" [] [.expr ⟨2, 1⟩ (.call "missing" [])],
   .expr (.call "h" [])]

theorem failedFunction_calls_declared :
    (Session.after NameTable.counting failedFunction).builder.prototypes =
      ["double f1_g(double x);", "double f2_h(void);"] ∧
    "f2_h()" ∈ (Session.after NameTable.counting failedFunction).texts ∧
    ∀ text ∈ (Session.after NameTable.counting failedFunction).texts,
      isBracketed text = true ∧ ∀ call ∈ callsIn text,
        Fits (Session.after NameTable.counting failedFunction).builder.names.definitions call := by
  refine ⟨by decide +kernel, by decide +kernel, ?_⟩
  obtain ⟨-, -, -, hcalls⟩ := Session.calls_declared NameTable.counting failedFunction []
  rw [List.append_nil] at hcalls
  exact hcalls NameTable.isWordChar_counting (by decide)

end NumScript
