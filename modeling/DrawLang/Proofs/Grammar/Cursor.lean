import DrawLang.Syntax.Parser

/-!
# Reading with a cursor

Programs can also be read in place. A cursor stands on a token of the list and is moved forward; on
the last token it stays where it is, so a loop that took that token would go round for ever. Loops
are written as loops here, with the round that they repeat. Two ways to go wrong are kept apart from
a refused token: the cursor can stand outside the list, and a loop or a nested call can run out of
the rounds or levels that it is given.

* `Stop`, `Scan`: how reading stops, and readers that move a cursor.
* `rounds`: loops.
* `exprAt`, `stmtAt`, `program`: expressions, statements and programs.
-/

namespace DrawLang.Cursor

/-- Why reading stops without a result. -/
inductive Stop where
  | refused (place : Position)
  | outside
  | unfinished
  deriving DecidableEq, Repr

/-- A reader that moves a cursor through a list of tokens. -/
abbrev Scan := StateT Nat (Except Stop)

/-- What a round of a loop comes to. -/
inductive Turn (σ β : Type) where
  | again (state : σ)
  | leave (result : β)

/-- Goes round in a loop until a round leaves it, at most `n` times. -/
def rounds {σ β : Type} (round : σ → Scan (Turn σ β)) : Nat → σ → Scan β
  | 0, _ => throw .unfinished
  | n + 1, state => do
    match ← round state with
    | .again state => rounds round n state
    | .leave result => return result

section Scans

variable (tokens : List Token)

/-! ## Single tokens -/

/-- The token that the cursor stands on. -/
def current : Scan Token := fun pos =>
  match tokens[pos]? with
  | some t => .ok (t, pos)
  | none => .error .outside

def peek : Scan Kind := return (← current tokens).kind

def advance : Scan Token := do
  let t ← current tokens
  modify fun pos => if pos + 1 < tokens.length then pos + 1 else pos
  return t

def refuse {α : Type} : Scan α := do throw (.refused (← current tokens).start)

def expect (kind : Kind) : Scan Token := do
  if (← peek tokens) = kind then advance tokens else refuse tokens

def newlineRound (_ : Unit) : Scan (Turn Unit Unit) := do
  if (← peek tokens) = .newline then
    let _ ← advance tokens
    return .again ()
  else
    return .leave ()

def skipNewlines (n : Nat) : Scan Unit := rounds (newlineRound tokens) n ()

def nameRound (names : List String) : Scan (Turn (List String) (List String)) := do
  if (← peek tokens) = .name then
    let name ← advance tokens
    return .again (names ++ [name.text])
  else
    return .leave names

def names (n : Nat) : Scan (List String) := rounds (nameRound tokens) n []

/-! ## Expressions -/

def operatorRound (operator : Kind → Option Operator) (operand : Scan Expr) (left : Expr) :
    Scan (Turn Expr Expr) := do
  match operator (← peek tokens) with
  | none => return .leave left
  | some op =>
    let sign ← advance tokens
    let right ← operand
    return .again (.binary op left right sign.stop)

/-- Goes on from an operand with operators of one strength and their right operands. -/
def chain (operator : Kind → Option Operator) (operand : Scan Expr) (n : Nat) (left : Expr) :
    Scan Expr :=
  rounds (operatorRound tokens operator operand) n left

def argumentRound (expr : Scan Expr) (args : List Expr) :
    Scan (Turn (List Expr) (List Expr)) := do
  if (← peek tokens).startsExpr then
    let arg ← expr
    return .again (args ++ [arg])
  else
    return .leave args

def arguments (expr : Scan Expr) (n : Nat) : Scan (List Expr) :=
  rounds (argumentRound tokens expr) n []

def atom (expr : Scan Expr) (n : Nat) : Scan Expr := do
  match ← peek tokens with
  | .integer => return .literal (← advance tokens).text
  | .name => return .name (← advance tokens).word
  | .mark .openParen =>
    let _ ← advance tokens
    let inner ← expr
    let _ ← expect tokens (.mark .closeParen)
    return inner
  | .mark .openAngle =>
    let _ ← advance tokens
    let callee ← expect tokens .name
    let args ← arguments tokens expr n
    let _ ← expect tokens (.mark .closeAngle)
    return .call callee.word args
  | _ => refuse tokens

def term (expr : Scan Expr) (n : Nat) : Scan Expr := do
  chain tokens Reader.multiplicative (atom tokens expr n) n (← atom tokens expr n)

def exprAt : Nat → Scan Expr
  | 0 => throw .unfinished
  | n + 1 => do
    chain tokens Reader.additive (term tokens (exprAt n) n) n (← term tokens (exprAt n) n)

/-! ## Statements -/

def coordinates (expr : Scan Expr) : Scan (Expr × Expr) := do
  let _ ← expect tokens (.mark .openBracket)
  let x ← expr
  let y ← expr
  let _ ← expect tokens (.mark .closeBracket)
  return (x, y)

def statementRound (stmt : Scan Stmt) (close : Kind) (n : Nat) (stmts : List Stmt) :
    Scan (Turn (List Stmt) (List Stmt)) := do
  skipNewlines tokens n
  if (← peek tokens) = close then
    return .leave stmts
  let first ← stmt
  if (← peek tokens) = close then
    return .leave (stmts ++ [first])
  let _ ← expect tokens .newline
  return .again (stmts ++ [first])

/-- Statements up to the token that closes them. A round begins with the line ends in front. -/
def statements (stmt : Scan Stmt) (close : Kind) (n : Nat) : Scan (List Stmt) :=
  rounds (statementRound tokens stmt close n) n []

def block (stmt : Scan Stmt) (n : Nat) : Scan (List Stmt) := do
  let _ ← expect tokens (.mark .openBrace)
  let body ← statements tokens stmt (.mark .closeBrace) n
  let _ ← expect tokens (.mark .closeBrace)
  return body

def setting (expr : Scan Expr) : Scan Stmt := do
  if (← peek tokens) = .mark .openBracket then
    let (x, y) ← coordinates tokens expr
    return .setPixel x y (← expr)
  let target ← expect tokens .name
  if (← peek tokens) = .mark .openBracket then
    let (x, y) ← coordinates tokens expr
    return .readPixel target.text x y
  return .assign target.text (← expr)

def definition (role : Role) (body : Scan (List Stmt)) (n : Nat) : Scan Stmt := do
  let name ← expect tokens .name
  let params ← names tokens n
  return .define role name.text params (← body)

def afterKeyword (expr : Scan Expr) (body : Scan (List Stmt)) (n : Nat) : Keyword → Scan Stmt
  | .paper => return .paper (← expr)
  | .pen => return .pen (← expr)
  | .line => return .line (← expr) (← expr) (← expr) (← expr)
  | .set => setting tokens expr
  | .loop => do
    let counter ← expect tokens .name
    return .loop counter.text (← expr) (← expr) (← body)
  | .command => definition tokens .command body n
  | .number => definition tokens .number body n
  | .value => return .value (← expr)
  | .load => return .load (← expect tokens .quoted).word
  | .test relation => return .test relation (← expr) (← expr) (← body)

def stmtAt : Nat → Scan Stmt
  | 0 => throw .unfinished
  | n + 1 => do
    match ← peek tokens with
    | .keyword word =>
      let _ ← advance tokens
      afterKeyword tokens (exprAt tokens n) (block tokens (stmtAt n) n) n word
    | .mark .openBrace => return .block (← block tokens (stmtAt n) n)
    | .name =>
      let callee ← advance tokens
      return .call callee.word (← arguments tokens (exprAt tokens n) n)
    | _ => refuse tokens

/-- The program that the tokens spell, read from where the cursor stands. -/
def program (n : Nat) : Scan Program := statements tokens (stmtAt tokens n) .finish n

end Scans

end DrawLang.Cursor
