import DrawLang.Syntax
import DrawLang.Token.Lexer

/-!
# Reading programs

Programs are read from their tokens by looking one token ahead. A reader takes tokens from the front
of a list and hands on the rest; where no token fits, it stops and hands back the tokens it stopped
in front of, the first of which is to blame.

Readers of nested phrases are built level by level: `exprAt n` reads expressions nested less than `n`
deep, with the readers of level `n - 1` inside them. A list of fewer than `n` tokens nests less than
`n` deep, so `Program.ofTokens?` chooses the level by the number of tokens.

* `exprAt`, `stmtAt`: expressions and statements.
* `Program.ofTokens?`: the program of a list of tokens.
* `parse?`: the program of a text, or the position of the token that fits nothing.
-/

namespace DrawLang

/-- A reader of tokens. It fails with the tokens it stopped in front of. -/
abbrev Reader := StateT (List Token) (Except (List Token))

namespace Reader

/-! ## Single tokens -/

/-- The kind of the next token; behind the last one there is only `finish`. -/
def nextKind : List Token → Kind
  | [] => .finish
  | t :: _ => t.kind

def peek : Reader Kind := fun ts => .ok (nextKind ts, ts)

def refuse {α : Type} : Reader α := fun ts => .error ts

def expect (kind : Kind) : Reader Token
  | [] => .error []
  | t :: ts => if t.kind = kind then .ok (t, ts) else .error (t :: ts)

def skipNewlines : Reader Unit := fun ts => .ok ((), ts.dropWhile (·.kind = .newline))

def names : Reader (List String) := fun ts =>
  .ok ((ts.takeWhile (·.kind = .name)).map (·.text), ts.dropWhile (·.kind = .name))

/-! ## Expressions -/

def additive : Kind → Option Operator
  | .mark .plus => some .add
  | .mark .minus => some .sub
  | _ => none

def multiplicative : Kind → Option Operator
  | .mark .star => some .mul
  | .mark .slash => some .div
  | _ => none

/-- Goes on from an operand with operators of one strength and their right operands, fewer than `n`
of them, grouping to the left. -/
def chain (operator : Kind → Option Operator) (operand : Reader Expr) : Nat → Expr → Reader Expr
  | 0, _ => refuse
  | n + 1, left => do
    match operator (← peek) with
    | none => return left
    | some op =>
      let sign ← expect (← peek)
      let right ← operand
      chain operator operand n (.binary op left right sign.stop)

/-- As many expressions as follow, fewer than `n`. -/
def arguments (expr : Reader Expr) : Nat → Reader (List Expr)
  | 0 => refuse
  | n + 1 => do
    if (← peek).startsExpr then
      let arg ← expr
      return arg :: (← arguments expr n)
    else
      return []

/-- An expression that no operator can split: a numeral, a name, an expression in parentheses, or
the call of a number. -/
def atom (expr : Reader Expr) (n : Nat) : Reader Expr := do
  match ← peek with
  | .integer => return .literal (← expect .integer).text
  | .name => return .name (← expect .name).word
  | .mark .openParen =>
    let _ ← expect (.mark .openParen)
    let inner ← expr
    let _ ← expect (.mark .closeParen)
    return inner
  | .mark .openAngle =>
    let _ ← expect (.mark .openAngle)
    let callee ← expect .name
    let args ← arguments expr n
    let _ ← expect (.mark .closeAngle)
    return .call callee.word args
  | _ => refuse

def term (expr : Reader Expr) (n : Nat) : Reader Expr := do
  chain multiplicative (atom expr n) n (← atom expr n)

def exprAt : Nat → Reader Expr
  | 0 => refuse
  | n + 1 => do chain additive (term (exprAt n) n) n (← term (exprAt n) n)

/-! ## Statements -/

def coordinates (expr : Reader Expr) : Reader (Expr × Expr) := do
  let _ ← expect (.mark .openBracket)
  let x ← expr
  let y ← expr
  let _ ← expect (.mark .closeBracket)
  return (x, y)

/-- Statements up to the token that closes them, fewer than `n`. Line ends stand between them, and
may stand in front of the first and behind the last. -/
def statements (stmt : Reader Stmt) (close : Kind) : Nat → Reader (List Stmt)
  | 0 => refuse
  | n + 1 => do
    skipNewlines
    if (← peek) = close then
      return []
    let first ← stmt
    if (← peek) = close then
      return [first]
    let _ ← expect .newline
    return first :: (← statements stmt close n)

def block (stmt : Reader Stmt) (n : Nat) : Reader (List Stmt) := do
  let _ ← expect (.mark .openBrace)
  let body ← statements stmt (.mark .closeBrace) n
  let _ ← expect (.mark .closeBrace)
  return body

/-- What follows the word `Set`. Where the bracket stands tells the three forms apart. -/
def setting (expr : Reader Expr) : Reader Stmt := do
  if (← peek) = .mark .openBracket then
    let (x, y) ← coordinates expr
    return .setPixel x y (← expr)
  let target ← expect .name
  if (← peek) = .mark .openBracket then
    let (x, y) ← coordinates expr
    return .readPixel target.text x y
  return .assign target.text (← expr)

def definition (role : Role) (body : Reader (List Stmt)) : Reader Stmt := do
  let name ← expect .name
  let params ← names
  return .define role name.text params (← body)

def afterKeyword (expr : Reader Expr) (body : Reader (List Stmt)) : Keyword → Reader Stmt
  | .paper => return .paper (← expr)
  | .pen => return .pen (← expr)
  | .line => return .line (← expr) (← expr) (← expr) (← expr)
  | .set => setting expr
  | .loop => do
    let counter ← expect .name
    return .loop counter.text (← expr) (← expr) (← body)
  | .command => definition .command body
  | .number => definition .number body
  | .value => return .value (← expr)
  | .load => return .load (← expect .quoted).word
  | .test relation => return .test relation (← expr) (← expr) (← body)

def stmtAt : Nat → Reader Stmt
  | 0 => refuse
  | n + 1 => do
    match ← peek with
    | .keyword word =>
      let _ ← expect (.keyword word)
      afterKeyword (exprAt n) (block (stmtAt n) n) word
    | .mark .openBrace => return .block (← block (stmtAt n) n)
    | .name =>
      let callee ← expect .name
      return .call callee.word (← arguments (exprAt n) n)
    | _ => refuse

/-! ## Laws of readers -/

section Laws

variable {α β : Type} {ts rest : List Token}

theorem bind_ok_iff {r : Reader α} {f : α → Reader β} {b : β} :
    (r >>= f) ts = .ok (b, rest) ↔ ∃ a us, r ts = .ok (a, us) ∧ f a us = .ok (b, rest) := by
  simp only [bind, StateT.bind, Except.bind]
  cases h : r ts with
  | error us => simp
  | ok p =>
    constructor
    · intro hf
      exact ⟨p.1, p.2, rfl, hf⟩
    · rintro ⟨a, us, e, hf⟩
      cases e
      exact hf

theorem bind_of_ok {r : Reader α} {f : α → Reader β} {a : α} {us : List Token}
    (h : r ts = .ok (a, us)) : (r >>= f) ts = f a us := by
  simp only [bind, StateT.bind, Except.bind, h]

@[simp] theorem pure_apply (a : α) : (pure a : Reader α) ts = .ok (a, ts) := rfl

theorem pure_ok_iff {a b : α} : (pure a : Reader α) ts = .ok (b, rest) ↔ a = b ∧ ts = rest := by
  simp

@[simp] theorem peek_bind (f : Kind → Reader β) : (peek >>= f) ts = f (nextKind ts) ts := rfl

theorem skipNewlines_apply (ts : List Token) :
    skipNewlines ts = .ok ((), ts.dropWhile (·.kind = .newline)) := rfl

theorem names_apply (ts : List Token) : names ts =
    .ok ((ts.takeWhile (·.kind = .name)).map (·.text), ts.dropWhile (·.kind = .name)) := rfl

@[simp] theorem nextKind_cons (t : Token) : nextKind (t :: ts) = t.kind := rfl

theorem expect_cons {t : Token} {kind : Kind} (h : t.kind = kind) :
    expect kind (t :: ts) = .ok (t, ts) := by
  simp [expect, h]

theorem expect_ok_iff {t : Token} {kind : Kind} :
    expect kind ts = .ok (t, rest) ↔ ts = t :: rest ∧ t.kind = kind := by
  cases ts with
  | nil => simp [expect]
  | cons u us =>
    by_cases h : u.kind = kind
    · rw [expect_cons h]
      constructor
      · intro e
        cases e
        exact ⟨rfl, h⟩
      · rintro ⟨e, -⟩
        cases e
        rfl
    · simp only [expect, h, if_false]
      constructor
      · intro e
        cases e
      · rintro ⟨e, hk⟩
        cases e
        exact absurd hk h

/-- One step of a chain, with the sign named that it looks at. -/
theorem chain_succ (operator : Kind → Option Operator) (operand : Reader Expr) (n : Nat)
    (left : Expr) : chain operator operand (n + 1) left = (do
      let kind ← peek
      match operator kind with
      | none => return left
      | some op =>
        let sign ← expect kind
        let right ← operand
        chain operator operand n (.binary op left right sign.stop)) := by
  funext ts
  simp only [chain, peek_bind]
  cases operator (nextKind ts) <;> rfl

end Laws

end Reader

/-! ## Programs -/

/-- The program that a list of tokens spells, up to its `finish`; otherwise the tokens from the
first one that fits nothing. -/
def Program.ofTokens? (tokens : List Token) : Except (List Token) Program :=
  let n := tokens.length + 1
  (Reader.statements (Reader.stmtAt n) .finish n tokens).map (·.1)

/-- The start of the first token of a list. -/
def blamed : List Token → Position
  | [] => .start ""
  | t :: _ => t.start

/-- The program that a text spells; otherwise the start of the first token that fits nothing. -/
def parse? (name source : String) : Except Position Program :=
  (Program.ofTokens? (tokenize name source)).mapError blamed

end DrawLang
