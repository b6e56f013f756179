import DrawLang.Syntax

/-!
# Canonical text of programs

Every tree has one canonical text, which reads back as the same tree. Operators are written in
parentheses with spaces around the sign, a block as an opening brace, one statement a line, and a
closing brace.

* `Expr.render`, `Stmt.render`, `Program.render`, `Definition.render`.
-/

namespace DrawLang

mutual

/-- The canonical text of an expression. -/
def Expr.render : Expr → String
  | .literal digits => digits
  | .name word => word.text
  | .binary op left right _ => "(" ++ left.render ++ " " ++ op.symbol ++ " " ++ right.render ++ ")"
  | .call word args => "<" ++ word.text ++ Expr.renderArgs args ++ ">"

def Expr.renderArgs : List Expr → String
  | [] => ""
  | arg :: args => " " ++ arg.render ++ Expr.renderArgs args

end

def renderBlock (lines : String) : String := "\x7b\n" ++ lines ++ "\x7d"

def renderHeader (name : String) (params : List String) : String :=
  params.foldl (fun header param => header ++ " " ++ param) name

mutual

def Stmt.render : Stmt → String
  | .paper ink => Keyword.paper.spelling ++ " " ++ ink.render
  | .pen ink => Keyword.pen.spelling ++ " " ++ ink.render
  | .line x₁ y₁ x₂ y₂ => Keyword.line.spelling ++ Expr.renderArgs [x₁, y₁, x₂, y₂]
  | .assign name result => Keyword.set.spelling ++ " " ++ name ++ " " ++ result.render
  | .setPixel x y ink =>
    Keyword.set.spelling ++ " [" ++ x.render ++ " " ++ y.render ++ "] " ++ ink.render
  | .readPixel name x y =>
    Keyword.set.spelling ++ " " ++ name ++ " [" ++ x.render ++ " " ++ y.render ++ "]"
  | .block body => renderBlock (Stmt.renderLines body)
  | .loop name first last body =>
    Keyword.loop.spelling ++ " " ++ name ++ Expr.renderArgs [first, last] ++ " " ++
      renderBlock (Stmt.renderLines body)
  | .test relation left right body =>
    relation.spelling ++ Expr.renderArgs [left, right] ++ " " ++
      renderBlock (Stmt.renderLines body)
  | .define role name params body =>
    role.keyword.spelling ++ " " ++ renderHeader name params ++ " " ++
      renderBlock (Stmt.renderLines body)
  | .call word args => word.text ++ Expr.renderArgs args
  | .value result => Keyword.value.spelling ++ " " ++ result.render
  | .load path => Keyword.load.spelling ++ " \"" ++ path.text ++ "\""

def Stmt.renderLines : List Stmt → String
  | [] => ""
  | stmt :: stmts => stmt.render ++ "\n" ++ Stmt.renderLines stmts

end

def Program.render (program : Program) : String := Stmt.renderLines program

def Definition.render (d : Definition) : String :=
  renderHeader d.name d.params ++ " " ++ renderBlock (Stmt.renderLines d.body)

/-- The text of two programs in a row is the text of the first, then that of the second. -/
theorem Stmt.renderLines_append (ss ts : List Stmt) :
    Stmt.renderLines (ss ++ ts) = Stmt.renderLines ss ++ Stmt.renderLines ts := by
  induction ss with
  | nil => simp [Stmt.renderLines]
  | cons s ss ih => simp [Stmt.renderLines, ih, String.append_assoc]

end DrawLang
