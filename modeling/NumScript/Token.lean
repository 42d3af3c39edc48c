import NumScript.Lexeme
import NumScript.Pos
import NumScript.Text.Quoted

/-!
# NumScript.Token

Lexemes with their positions, and streams of them. A stream also knows where its text ends, so that
the end of the input has a position like any token.
-/

namespace NumScript

/-- A lexeme and where it starts. -/
structure Token where
  lexeme : Lexeme
  pos : Pos
deriving DecidableEq, Repr

/-- Tokens in the order of the text, and the position where the text ends. -/
structure TokenStream where
  tokens : List Token
  finish : Pos
deriving DecidableEq, Repr

namespace TokenStream

/-- The stream with one more token in front. -/
def cons (t : Token) (s : TokenStream) : TokenStream := { s with tokens := t :: s.tokens }

/-- The position of the next token, or of the end. -/
def pos (s : TokenStream) : Pos :=
  match s.tokens with
  | t :: _ => t.pos
  | [] => s.finish

end TokenStream

/-! ### Displays -/

/-- A token, or the end of a text, as it is shown: its class, its characters and its position. -/
structure TokenView where
  kind : String
  text : String
  pos : Pos
deriving DecidableEq, Repr

namespace TokenView

/-- The view of a token. -/
def ofToken (t : Token) : TokenView := ⟨t.lexeme.kind, t.lexeme.text, t.pos⟩

/-- The view of the end of a text. -/
def ofFinish (finish : Pos) : TokenView := ⟨"EOF", "", finish⟩

/-- A view as one line of text. -/
def display (v : TokenView) : String :=
  "Token(" ++ v.kind ++ ", " ++ quoted v.text ++ ", " ++ toString v.pos.line ++ ", "
    ++ toString v.pos.col ++ ")"

end TokenView

namespace TokenStream

/-- The view of the token `n` places ahead; past the last one it is the view of the end. -/
def peek (s : TokenStream) (n : Nat) : TokenView :=
  match s.tokens[n]? with
  | some t => .ofToken t
  | none => .ofFinish s.finish

/-- The view of the next token. -/
def current (s : TokenStream) : TokenView := s.peek 0

/-- The views of all tokens, and of the end. -/
def views (s : TokenStream) : List TokenView :=
  s.tokens.map .ofToken ++ [.ofFinish s.finish]

end TokenStream

end NumScript
