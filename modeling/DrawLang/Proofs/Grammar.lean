import DrawLang.Syntax.Parser

/-!
# The grammar

The grammar of programs, as rules over lists of tokens. A phrase is a nonterminal together with the
tree that it stands for; `Derives` says which tokens spell it. Repetitions are spelled out:
operators are added on the right, so that operators of one strength group to the left.

* `Phrase`, `Derives`: the nonterminals and the rules.
* `kind_ne_finish_of_mem`: below a program no rule has room for the end of the text.
* `starts_of_derives`: how expressions, statements and blocks begin.
-/

namespace DrawLang

def Operator.mark : Operator → Mark
  | add => .plus
  | sub => .minus
  | mul => .star
  | div => .slash

/-- Whether an operator binds more tightly than sums and differences. -/
def Operator.isTight : Operator → Bool
  | add | sub => false
  | mul | div => true

namespace Grammar

/-- A nonterminal with the tree that it stands for. -/
inductive Phrase where
  | atom (tree : Expr)
  | term (tree : Expr)
  | expr (tree : Expr)
  | exprs (trees : List Expr)
  | stmt (tree : Stmt)
  | lines (trees : List Stmt)
  | stmts (trees : List Stmt)
  | block (trees : List Stmt)

/-- Whether tokens are all of one kind. -/
def AllOf (kind : Kind) (ts : List Token) : Prop := ∀ t ∈ ts, t.kind = kind

/-- The rules: which tokens spell a phrase. -/
inductive Derives : Phrase → List Token → Prop where
  | literal {t : Token} : t.kind = .integer → Derives (.atom (.literal t.text)) [t]
  | name {t : Token} : t.kind = .name → Derives (.atom (.name t.word)) [t]
  | parens {o c : Token} {e : Expr} {ts : List Token} : o.kind = .mark .openParen →
      Derives (.expr e) ts → c.kind = .mark .closeParen → Derives (.atom e) (o :: (ts ++ [c]))
  | numberCall {o f c : Token} {es : List Expr} {ts : List Token} :
      o.kind = .mark .openAngle → f.kind = .name → Derives (.exprs es) ts →
      c.kind = .mark .closeAngle → Derives (.atom (.call f.word es)) (o :: f :: (ts ++ [c]))
  | factor {e : Expr} {ts : List Token} : Derives (.atom e) ts → Derives (.term e) ts
  | product {l r : Expr} {op : Operator} {sign : Token} {ts us : List Token} :
      Derives (.term l) ts → op.isTight = true → sign.kind = .mark op.mark →
      Derives (.atom r) us → Derives (.term (.binary op l r sign.stop)) (ts ++ sign :: us)
  | summand {e : Expr} {ts : List Token} : Derives (.term e) ts → Derives (.expr e) ts
  | sum {l r : Expr} {op : Operator} {sign : Token} {ts us : List Token} :
      Derives (.expr l) ts → op.isTight = false → sign.kind = .mark op.mark →
      Derives (.term r) us → Derives (.expr (.binary op l r sign.stop)) (ts ++ sign :: us)
  | noExprs : Derives (.exprs []) []
  | moreExprs {e : Expr} {es : List Expr} {ts us : List Token} :
      Derives (.expr e) ts → Derives (.exprs es) us → Derives (.exprs (e :: es)) (ts ++ us)
  | paper {k : Token} {e : Expr} {ts : List Token} : k.kind = .keyword .paper →
      Derives (.expr e) ts → Derives (.stmt (.paper e)) (k :: ts)
  | pen {k : Token} {e : Expr} {ts : List Token} : k.kind = .keyword .pen →
      Derives (.expr e) ts → Derives (.stmt (.pen e)) (k :: ts)
  | line {k : Token} {x₁ y₁ x₂ y₂ : Expr} {as bs cs ds : List Token} :
      k.kind = .keyword .line → Derives (.expr x₁) as → Derives (.expr y₁) bs →
      Derives (.expr x₂) cs → Derives (.expr y₂) ds →
      Derives (.stmt (.line x₁ y₁ x₂ y₂)) (k :: (as ++ (bs ++ (cs ++ ds))))
  | assign {k n : Token} {e : Expr} {ts : List Token} : k.kind = .keyword .set →
      n.kind = .name → Derives (.expr e) ts → Derives (.stmt (.assign n.text e)) (k :: n :: ts)
  | setPixel {k o c : Token} {x y e : Expr} {xs ys ts : List Token} :
      k.kind = .keyword .set → o.kind = .mark .openBracket → Derives (.expr x) xs →
      Derives (.expr y) ys → c.kind = .mark .closeBracket → Derives (.expr e) ts →
      Derives (.stmt (.setPixel x y e)) (k :: o :: (xs ++ (ys ++ c :: ts)))
  | readPixel {k n o c : Token} {x y : Expr} {xs ys : List Token} :
      k.kind = .keyword .set → n.kind = .name → o.kind = .mark .openBracket →
      Derives (.expr x) xs → Derives (.expr y) ys → c.kind = .mark .closeBracket →
      Derives (.stmt (.readPixel n.text x y)) (k :: n :: o :: (xs ++ (ys ++ [c])))
  | loop {k n : Token} {a b : Expr} {ss : List Stmt} {as bs ts : List Token} :
      k.kind = .keyword .loop → n.kind = .name → Derives (.expr a) as → Derives (.expr b) bs →
      Derives (.block ss) ts → Derives (.stmt (.loop n.text a b ss)) (k :: n :: (as ++ (bs ++ ts)))
  | test {k : Token} {r : Relation} {a b : Expr} {ss : List Stmt} {as bs ts : List Token} :
      k.kind = .keyword (.test r) → Derives (.expr a) as → Derives (.expr b) bs →
      Derives (.block ss) ts → Derives (.stmt (.test r a b ss)) (k :: (as ++ (bs ++ ts)))
  | define {k n : Token} {role : Role} {ps ts : List Token} {ss : List Stmt} :
      k.kind = .keyword role.keyword → n.kind = .name → AllOf .name ps → Derives (.block ss) ts →
      Derives (.stmt (.define role n.text (ps.map (·.text)) ss)) (k :: n :: (ps ++ ts))
  | value {k : Token} {e : Expr} {ts : List Token} : k.kind = .keyword .value →
      Derives (.expr e) ts → Derives (.stmt (.value e)) (k :: ts)
  | load {k p : Token} : k.kind = .keyword .load → p.kind = .quoted →
      Derives (.stmt (.load p.word)) [k, p]
  | commandCall {f : Token} {es : List Expr} {ts : List Token} : f.kind = .name →
      Derives (.exprs es) ts → Derives (.stmt (.call f.word es)) (f :: ts)
  | nested {ss : List Stmt} {ts : List Token} :
      Derives (.block ss) ts → Derives (.stmt (.block ss)) ts
  | oneLine {s : Stmt} {ts : List Token} : Derives (.stmt s) ts → Derives (.lines [s]) ts
  | moreLines {s : Stmt} {ss : List Stmt} {ts seps us : List Token} :
      Derives (.stmt s) ts → AllOf .newline seps → seps ≠ [] → Derives (.lines ss) us →
      Derives (.lines (s :: ss)) (ts ++ (seps ++ us))
  | noStmts {seps : List Token} : AllOf .newline seps → Derives (.stmts []) seps
  | someStmts {ss : List Stmt} {before ts after : List Token} : AllOf .newline before →
      Derives (.lines ss) ts → AllOf .newline after → Derives (.stmts ss) (before ++ (ts ++ after))
  | block {o c : Token} {ss : List Stmt} {ts : List Token} : o.kind = .mark .openBrace →
      Derives (.stmts ss) ts → c.kind = .mark .closeBrace → Derives (.block ss) (o :: (ts ++ [c]))

/-- The rule for whole programs. -/
inductive IsProgram (trees : Program) : List Token → Prop where
  | intro {eof : Token} {ts : List Token} : Derives (.stmts trees) ts → eof.kind = .finish →
      IsProgram trees (ts ++ [eof])

/-! ## Shape of derivations -/

/-- No rule for a part of a program has room for the end of the text. -/
theorem kind_ne_finish_of_mem {ph : Phrase} {ts : List Token} (h : Derives ph ts) :
    ∀ t ∈ ts, t.kind ≠ .finish := by
  induction h <;> simp_all [AllOf, or_imp]

def startsStmt : Kind → Bool
  | .keyword _ | .name | .mark .openBrace => true
  | _ => false

/-- How phrases that cannot be empty begin. -/
def Starts : Phrase → List Token → Prop
  | .atom _, ts | .term _, ts | .expr _, ts => (Reader.nextKind ts).startsExpr = true
  | .stmt _, ts | .lines _, ts => startsStmt (Reader.nextKind ts) = true
  | .block _, ts => Reader.nextKind ts = .mark .openBrace
  | .exprs _, _ | .stmts _, _ => True

theorem nextKind_append {ts : List Token} (h : Reader.nextKind ts ≠ .finish) (us : List Token) :
    Reader.nextKind (ts ++ us) = Reader.nextKind ts := by
  cases ts with
  | nil => exact absurd rfl h
  | cons t ts => rfl

theorem ne_finish_of_startsExpr {k : Kind} (h : k.startsExpr = true) : k ≠ .finish := by
  rintro rfl
  cases h

theorem ne_finish_of_startsStmt {k : Kind} (h : startsStmt k = true) : k ≠ .finish := by
  rintro rfl
  cases h

theorem starts_of_derives {ph : Phrase} {ts : List Token} (h : Derives ph ts) : Starts ph ts := by
  induction h with
  | literal h | name h | parens h | numberCall h =>
    simp only [Starts, Reader.nextKind_cons, h]
    rfl
  | factor _ ih | summand _ ih | oneLine _ ih => exact ih
  | product _ _ _ _ ih | sum _ _ _ _ ih =>
    simp only [Starts] at ih ⊢
    rw [nextKind_append (ne_finish_of_startsExpr ih)]
    exact ih
  | moreLines _ _ _ _ ih =>
    simp only [Starts] at ih ⊢
    rw [nextKind_append (ne_finish_of_startsStmt ih)]
    exact ih
  | nested _ ih =>
    simp only [Starts] at ih ⊢
    rw [ih]
    rfl
  | noExprs | moreExprs | noStmts | someStmts => trivial
  | block h => exact h
  | paper h | pen h | line h | assign h | setPixel h | readPixel h | loop h | test h | define h
  | value h | load h | commandCall h =>
    simp only [Starts, Reader.nextKind_cons, h]
    rfl

end Grammar

end DrawLang
