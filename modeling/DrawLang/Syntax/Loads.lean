import DrawLang.Syntax

/-!
# What a program loads

A program names the texts that it loads literally, so that all of them can be found without running
it.

* `Program.loads`: the paths of a program, those in the bodies of definitions included.
-/

namespace DrawLang

mutual

/-- The paths that a statement can load. -/
def Stmt.loads : Stmt → List String
  | .load path => [path.text]
  | .block body | .loop _ _ _ body | .test _ _ _ body | .define _ _ _ body => Stmt.loadsOfAll body
  | _ => []

def Stmt.loadsOfAll : List Stmt → List String
  | [] => []
  | stmt :: stmts => stmt.loads ++ Stmt.loadsOfAll stmts

end

def Program.loads (program : Program) : List String := Stmt.loadsOfAll program

end DrawLang
