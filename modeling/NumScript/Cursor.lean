import NumScript.Stmt.Parser

/-!
# NumScript.Cursor

A parser in use. It holds the tokens of a text and the index of the next one, and its methods, the
helpers as well as the productions, can be called in any order and with any arguments. A call goes
on where the one before it left the parser, also after an error.

The end of the text counts as a token: it can be read, and no call goes past it.
-/

namespace NumScript

/-- A parser at work: the tokens of its text, and the index of the next one. -/
structure Parser where
  stream : TokenStream
  index : Int

/-- A call of one of the methods of a parser. -/
inductive ParserCall where
  | current
  | peek (offset : Int)
  | advance
  | isAt (text : String)
  | isAtKind (kind : String)
  | isAtOperator
  | expect (text : String)
  | expectIdent
  | error (message : String)
  | position
  | program
  | block (stops : List String)
  | stmt
  | declaration
  | assignment
  | definition
  | branch (keyword : String)
  | loop
  | count
  | exprStmt
  | expression
  | flatExpr
  | term
  | argList

/-- What a call gives back. -/
inductive ParserReply where
  | token (view : TokenView)
  | answer (holds : Bool)
  | report (text : String)
  | place (pos : Pos)
  | stmts (ss : List Stmt)
  | stmt (s : Stmt)
  | expr (e : Expr)
  | flat (f : Flat)
  | args (fs : List Flat)

/-- Why a call fails. -/
inductive ParserFault where
  | parse (e : ParseError)
  /-- The text has no token at this index. -/
  | noToken (index : Int)

namespace Parser

/-- The parser before any call. -/
def start (stream : TokenStream) : Parser := ⟨stream, 0⟩

/-! ### Tokens -/

/-- The tokens that are left. -/
def left (p : Parser) : List Token := p.stream.tokens.drop p.index.toNat

/-- The tokens that are left, with the end of the text. -/
def rest (p : Parser) : TokenStream := ⟨p.left, p.stream.finish⟩

/-- The view of the token at an index, if there is one. Negative indices count from the end. -/
def view? (p : Parser) (i : Int) : Option TokenView :=
  let views := p.stream.views
  if 0 ≤ i then views[i.toNat]?
  else if 0 ≤ views.length + i then views[(views.length + i).toNat]?
  else none

/-- The view of the next token. -/
def current? (p : Parser) : Option TokenView := p.view? p.index

/-- The view of the token at an offset from the next one, or of the end if that comes before. -/
def peek? (p : Parser) (offset : Int) : Option TokenView :=
  if p.stream.views.length ≤ p.index + offset then p.stream.views.getLast?
  else p.view? (p.index + offset)

/-- Goes on to the next token, unless the parser is at the end. -/
def advance (p : Parser) : Parser :=
  if p.current?.any fun view => view.kind != "EOF" then { p with index := p.index + 1 } else p

/-- Goes on by as many tokens as a production took, of which `rest` are left. -/
def moveTo (p : Parser) (rest : List Token) : Parser :=
  { p with index := p.index + (p.left.length - rest.length) }

/-! ### Calls -/

/-- The reply to a call that reads the token at an index. -/
def reading (i : Int) : Option TokenView → Except ParserFault ParserReply
  | some view => .ok (.token view)
  | none => .error (.noToken i)

/-- The parser and its reply after a production. -/
def settle {α : Type} (p : Parser) (reply : α → ParserReply) (o : Outcome α) :
    Except ParserFault ParserReply × Parser :=
  match o.settle p.stream.finish with
  | (.ok a, rest) => (.ok (reply a), p.moveTo rest.tokens)
  | (.error e, rest) => (.error (.parse e), p.moveTo rest.tokens)

/-- Answers a call. -/
def perform (p : Parser) : ParserCall → Except ParserFault ParserReply × Parser
  | .current => (reading p.index p.current?, p)
  | .peek offset => (reading (p.index + offset) (p.peek? offset), p)
  | .advance => (reading p.index p.current?, p.advance)
  | .isAt text => (.ok (.answer (atMark text p.left)), p)
  | .isAtKind kind => (.ok (.answer (p.rest.current.kind == kind)), p)
  | .isAtOperator => (.ok (.answer (atOperator p.left)), p)
  | .expect text => p.settle (fun _ => .token p.rest.current) (NumScript.expect text p.left)
  | .expectIdent => p.settle (fun _ => .token p.rest.current) (NumScript.expectIdent p.left)
  | .error message => (.ok (.report (message ++ p.rest.pos.note)), p)
  | .position => (.ok (.place p.rest.pos), p)
  | .program => p.settle .stmts (statements p.left)
  | .block stops => p.settle .stmts (NumScript.block stops p.left)
  | .stmt => p.settle .stmt (NumScript.stmt p.left)
  | .declaration => p.settle .stmt (announced "local" NumScript.declaration p.rest)
  | .assignment => p.settle .stmt (NumScript.assignment p.rest.pos p.left)
  | .definition => p.settle .stmt (announced "function" NumScript.definition p.rest)
  | .branch keyword => p.settle .stmt (announced keyword NumScript.branch p.rest)
  | .loop => p.settle .stmt (announced "while" NumScript.loop p.rest)
  | .count => p.settle .stmt (announced "for" NumScript.count p.rest)
  | .exprStmt => p.settle .stmt ((NumScript.expression p.left).map (.expr p.rest.pos ·))
  | .expression => p.settle .expr (NumScript.expression p.left)
  | .flatExpr => p.settle .flat (NumScript.flatExpr p.left)
  | .term => p.settle .flat (NumScript.term p.left)
  | .argList => p.settle .args (NumScript.argList p.left)

/-- The parser after calls. -/
def after (p : Parser) (calls : List ParserCall) : Parser :=
  calls.foldl (fun p call => (p.perform call).2) p

end Parser

end NumScript
