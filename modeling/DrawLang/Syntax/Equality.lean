import DrawLang.Syntax

/-!
# Equality of programs

Trees are compared part by part, so it can be decided whether two programs are the same, with all
their positions.
-/

namespace DrawLang

mutual

def Expr.same : Expr → Expr → Bool
  | .literal digits, .literal digits' => digits == digits'
  | .name word, .name word' => word == word'
  | .binary op l r place, .binary op' l' r' place' =>
    op == op' && l.same l' && r.same r' && place == place'
  | .call word args, .call word' args' => word == word' && Expr.sameAll args args'
  | _, _ => false

def Expr.sameAll : List Expr → List Expr → Bool
  | [], [] => true
  | e :: es, e' :: es' => e.same e' && Expr.sameAll es es'
  | _, _ => false

end

mutual

theorem Expr.same_iff : ∀ e e' : Expr, e.same e' = true ↔ e = e'
  | .literal _, e' | .name _, e' => by cases e' <;> simp [Expr.same]
  | .binary _ l r _, e' => by cases e' <;> simp [Expr.same, l.same_iff, r.same_iff, and_assoc]
  | .call _ args, e' => by cases e' <;> simp [Expr.same, Expr.sameAll_iff args]

theorem Expr.sameAll_iff : ∀ es es' : List Expr, Expr.sameAll es es' = true ↔ es = es'
  | [], es' => by cases es' <;> simp [Expr.sameAll]
  | e :: es, es' => by cases es' <;> simp [Expr.sameAll, e.same_iff, Expr.sameAll_iff es]

end

instance : DecidableEq Expr := fun e e' => decidable_of_iff _ (Expr.same_iff e e')

mutual

def Stmt.same : Stmt → Stmt → Bool
  | .paper ink, .paper ink' | .pen ink, .pen ink' => ink == ink'
  | .line x₁ y₁ x₂ y₂, .line x₁' y₁' x₂' y₂' =>
    x₁ == x₁' && y₁ == y₁' && x₂ == x₂' && y₂ == y₂'
  | .assign name result, .assign name' result' => name == name' && result == result'
  | .setPixel x y ink, .setPixel x' y' ink' => x == x' && y == y' && ink == ink'
  | .readPixel name x y, .readPixel name' x' y' => name == name' && x == x' && y == y'
  | .block body, .block body' => Stmt.sameAll body body'
  | .loop name first last body, .loop name' first' last' body' =>
    name == name' && first == first' && last == last' && Stmt.sameAll body body'
  | .test relation l r body, .test relation' l' r' body' =>
    relation == relation' && l == l' && r == r' && Stmt.sameAll body body'
  | .define role name params body, .define role' name' params' body' =>
    role == role' && name == name' && params == params' && Stmt.sameAll body body'
  | .call word args, .call word' args' => word == word' && args == args'
  | .value result, .value result' => result == result'
  | .load path, .load path' => path == path'
  | _, _ => false

def Stmt.sameAll : List Stmt → List Stmt → Bool
  | [], [] => true
  | s :: ss, s' :: ss' => s.same s' && Stmt.sameAll ss ss'
  | _, _ => false

end

mutual

theorem Stmt.same_iff : ∀ s s' : Stmt, s.same s' = true ↔ s = s'
  | .block body, s' => by cases s' <;> simp [Stmt.same, Stmt.sameAll_iff body]
  | .loop _ _ _ body, s' | .test _ _ _ body, s' | .define _ _ _ body, s' => by
    cases s' <;> simp [Stmt.same, Stmt.sameAll_iff body, and_assoc]
  | .paper _, s' | .pen _, s' | .line _ _ _ _, s' | .assign _ _, s' | .setPixel _ _ _, s'
  | .readPixel _ _ _, s' | .call _ _, s' | .value _, s' | .load _, s' => by
    cases s' <;> simp [Stmt.same, and_assoc]

theorem Stmt.sameAll_iff : ∀ ss ss' : List Stmt, Stmt.sameAll ss ss' = true ↔ ss = ss'
  | [], ss' => by cases ss' <;> simp [Stmt.sameAll]
  | s :: ss, ss' => by cases ss' <;> simp [Stmt.sameAll, s.same_iff, Stmt.sameAll_iff ss]

end

instance : DecidableEq Stmt := fun s s' => decidable_of_iff _ (Stmt.same_iff s s')

end DrawLang
