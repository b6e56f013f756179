import DrawLang.Token

/-!
# Programs

A program is a list of statements. Expressions denote numbers, statements draw, bind names, steer or
call. Words keep the positions they were read at, since faults point at them.

* `Expr`, `Stmt`, `Program`: the trees.
* `Definition`: what a command or number definition binds its name to.
-/

namespace DrawLang

/-- A piece of text with the positions where it starts and has ended. -/
structure Word where
  text : String
  start : Position
  stop : Position
  deriving DecidableEq, Repr

def Token.word (t : Token) : Word := ⟨t.text, t.start, t.stop⟩

/-- Expressions. A literal keeps its digits as written; an operator keeps the position just past its
sign, where a division by zero is reported. -/
inductive Expr where
  | literal (digits : String)
  | name (word : Word)
  | binary (op : Operator) (left right : Expr) (place : Position)
  | call (word : Word) (args : List Expr)
  deriving Repr

/-- What a definition makes: a command is called as a statement, a number as an expression. -/
inductive Role where
  | command | number
  deriving DecidableEq, Repr

def Role.keyword : Role → Keyword
  | .command => .command
  | .number => .number

/-- Statements. The bodies of loops, conditionals and definitions are always blocks. -/
inductive Stmt where
  | paper (ink : Expr)
  | pen (ink : Expr)
  | line (x₁ y₁ x₂ y₂ : Expr)
  | assign (name : String) (result : Expr)
  | setPixel (x y ink : Expr)
  | readPixel (name : String) (x y : Expr)
  | block (body : List Stmt)
  | loop (name : String) (first last : Expr) (body : List Stmt)
  | test (relation : Relation) (left right : Expr) (body : List Stmt)
  | define (role : Role) (name : String) (params : List String) (body : List Stmt)
  | call (word : Word) (args : List Expr)
  | value (result : Expr)
  | load (path : Word)
  deriving Repr

abbrev Program := List Stmt

structure Definition where
  name : String
  params : List String
  body : List Stmt
  deriving Repr

end DrawLang
