import DrawLang.Proofs.Grammar.Soundness

/-!
# Readers accept all that the grammar derives

On tokens that spell a phrase, followed by a token at which the phrase has to end, the reader of the
phrase takes exactly these tokens and returns the tree. The level of a reader, and the number of
rounds its loops may go, only have to exceed the number of tokens.

* `Accepted`: what is claimed of the readers of a phrase.
* `accepted_of_derives`: every derivation is followed by its reader.
* `ofTokens?_of_isProgram`: a program is accepted, with the tree that the rules give it.
-/

namespace DrawLang.Grammar

open Reader

variable {rest : List Token} {n k : Nat}

/-! ## Where phrases end -/

def endsExpr (kind : Kind) : Prop := additive kind = none ∧ multiplicative kind = none

def endsExprs (kind : Kind) : Prop := endsExpr kind ∧ kind.startsExpr = false

/-- At such a token a statement has to end. -/
def endsStmt (kind : Kind) : Prop :=
  kind = .newline ∨ kind = .mark .closeBrace ∨ kind = .finish

theorem endsExpr_of_startsExpr {kind : Kind} (h : kind.startsExpr = true) : endsExpr kind := by
  unfold Kind.startsExpr at h
  split at h
  · exact ⟨rfl, rfl⟩
  · exact ⟨rfl, rfl⟩
  · exact ⟨rfl, rfl⟩
  · exact ⟨rfl, rfl⟩
  · cases h

theorem endsExprs_of_endsStmt {kind : Kind} (h : endsStmt kind) : endsExprs kind := by
  rcases h with rfl | rfl | rfl <;> exact ⟨⟨rfl, rfl⟩, rfl⟩

theorem not_startsStmt_of_endsStmt {kind : Kind} (h : endsStmt kind) : startsStmt kind = false := by
  rcases h with rfl | rfl | rfl <;> rfl

section Followed

variable {e : Expr} {s : Stmt} {ss : List Stmt} {ts : List Token}

theorem length_pos_of_starts {kind : Kind} (h : nextKind ts = kind) (hk : kind ≠ .finish) :
    0 < ts.length := by
  cases ts with
  | nil => exact absurd h.symm hk
  | cons t ts => exact Nat.succ_pos _

theorem startsExpr_append (h : Derives (.expr e) ts) (us : List Token) :
    (nextKind (ts ++ us)).startsExpr = true := by
  have hs : (nextKind ts).startsExpr = true := starts_of_derives h
  rwa [nextKind_append (ne_finish_of_startsExpr hs)]

theorem endsExpr_expr (h : Derives (.expr e) ts) (us : List Token) :
    endsExpr (nextKind (ts ++ us)) :=
  endsExpr_of_startsExpr (startsExpr_append h us)

theorem endsExpr_block (h : Derives (.block ss) ts) (us : List Token) :
    endsExpr (nextKind (ts ++ us)) := by
  have hb : nextKind ts = .mark .openBrace := starts_of_derives h
  rw [nextKind_append (by simp [hb]), hb]
  exact ⟨rfl, rfl⟩

end Followed

/-! ## Steps of readers -/

section Steps

variable {operator : Kind → Option Operator} {operand : Reader Expr} {l r : Expr} {op : Operator}
  {t sign : Token} {ts us : List Token}

theorem chain_stop (h : operator (nextKind rest) = none) (hk : rest.length < k) :
    chain operator operand k l rest = .ok (l, rest) := by
  cases k with
  | zero => omega
  | succ k => simp only [chain_succ, peek_bind, h, pure_apply]

theorem chain_step (hop : operator sign.kind = some op) (hr : operand us = .ok (r, rest)) :
    chain operator operand (k + 1) l (sign :: us) =
      chain operator operand k (.binary op l r sign.stop) rest := by
  simp only [chain_succ, peek_bind, nextKind_cons, hop]
  rw [bind_of_ok (expect_cons rfl), bind_of_ok hr]

theorem additive_mark (h : op.isTight = false) : additive (.mark op.mark) = some op := by
  cases op <;> first | rfl | cases h

theorem multiplicative_mark (h : op.isTight = true) :
    multiplicative (.mark op.mark) = some op := by
  cases op <;> first | rfl | cases h

theorem multiplicative_mark_of_loose (h : op.isTight = false) :
    multiplicative (.mark op.mark) = none := by
  cases op <;> first | rfl | cases h

theorem stmtAt_keyword {word : Keyword} (h : t.kind = .keyword word) :
    stmtAt (n + 1) (t :: ts) = afterKeyword (exprAt n) (block (stmtAt n) n) word ts := by
  simp only [stmtAt, peek_bind, nextKind_cons, h]
  rw [bind_of_ok (expect_cons h)]

theorem dropWhile_eq_self {kind : Kind} (h : nextKind ts ≠ kind) :
    ts.dropWhile (·.kind = kind) = ts := by
  cases ts with
  | nil => rfl
  | cons t ts => rw [List.dropWhile_cons, if_neg (by simpa using h)]

theorem statements_newlines {stmt : Reader Stmt} {close : Kind} {seps : List Token}
    (h : AllOf .newline seps) :
    statements stmt close (k + 1) (seps ++ us) = statements stmt close (k + 1) us := by
  have hskip : (seps ++ us).dropWhile (·.kind = .newline) = us.dropWhile (·.kind = .newline) :=
    List.dropWhile_append_of_pos fun t ht => by simpa using h t ht
  simp only [statements]
  rw [bind_of_ok (skipNewlines_apply _), bind_of_ok (skipNewlines_apply _), hskip]

end Steps

/-! ## Acceptance -/

/-- What the readers of a phrase do with tokens that spell it. Operators are read from the left
while the rules add them on the right, so for terms and expressions it is about the moment at which
the chain has come to the end of these tokens, with rounds left for what follows. -/
def Accepted : Phrase → List Token → Prop
  | .atom e, ts => ∀ n rest, (ts ++ rest).length ≤ n →
      atom (exprAt n) n (ts ++ rest) = .ok (e, rest)
  | .term e, ts => ∀ n rest, (ts ++ rest).length ≤ n → ∃ k, rest.length < k ∧
      term (exprAt n) n (ts ++ rest) = chain multiplicative (atom (exprAt n) n) k e rest
  | .expr e, ts => ∀ n rest, (ts ++ rest).length ≤ n → multiplicative (nextKind rest) = none →
      ∃ k, rest.length < k ∧
        exprAt (n + 1) (ts ++ rest) = chain additive (term (exprAt n) n) k e rest
  | .exprs es, ts => ∀ n k rest, (ts ++ rest).length < n → (ts ++ rest).length < k →
      endsExprs (nextKind rest) → arguments (exprAt n) k (ts ++ rest) = .ok (es, rest)
  | .stmt s, ts => ∀ n rest, (ts ++ rest).length ≤ n → endsStmt (nextKind rest) →
      stmtAt (n + 1) (ts ++ rest) = .ok (s, rest)
  | .lines ss, ts => ∀ n k after rest, (ts ++ (after ++ rest)).length < n →
      (ts ++ (after ++ rest)).length < k → AllOf .newline after → endsStmt (nextKind rest) →
      nextKind rest ≠ .newline →
      statements (stmtAt n) (nextKind rest) k (ts ++ (after ++ rest)) = .ok (ss, rest)
  | .stmts ss, ts => ∀ n k rest, (ts ++ rest).length < n → (ts ++ rest).length < k →
      endsStmt (nextKind rest) → nextKind rest ≠ .newline →
      statements (stmtAt n) (nextKind rest) k (ts ++ rest) = .ok (ss, rest)
  | .block ss, ts => ∀ n rest, (ts ++ rest).length ≤ n →
      block (stmtAt n) n (ts ++ rest) = .ok (ss, rest)

section Uses

variable {e : Expr} {ts : List Token}

theorem term_of_accepted (h : Accepted (.term e) ts) (hn : (ts ++ rest).length ≤ n)
    (hrest : multiplicative (nextKind rest) = none) :
    term (exprAt n) n (ts ++ rest) = .ok (e, rest) := by
  obtain ⟨k, hk, hterm⟩ := h n rest hn
  rw [hterm, chain_stop hrest hk]

theorem exprAt_of_accepted (h : Accepted (.expr e) ts) (hn : (ts ++ rest).length < n)
    (hrest : endsExpr (nextKind rest)) : exprAt n (ts ++ rest) = .ok (e, rest) := by
  cases n with
  | zero => omega
  | succ n =>
    obtain ⟨k, hk, hexpr⟩ := h n rest (by omega) hrest.2
    rw [hexpr, chain_stop hrest.1 hk]

end Uses

/-! ### Expressions -/

section Expressions

variable {e l r : Expr} {es : List Expr} {op : Operator} {t o f c sign : Token} {ts us : List Token}

theorem accepted_literal (h : t.kind = .integer) : Accepted (.atom (.literal t.text)) [t] := by
  intro n rest _
  simp only [List.cons_append, List.nil_append, atom, peek_bind, nextKind_cons, h]
  rw [bind_of_ok (expect_cons h), pure_apply]

theorem accepted_name (h : t.kind = .name) : Accepted (.atom (.name t.word)) [t] := by
  intro n rest _
  simp only [List.cons_append, List.nil_append, atom, peek_bind, nextKind_cons, h]
  rw [bind_of_ok (expect_cons h), pure_apply]

theorem accepted_parens (ho : o.kind = .mark .openParen) (hc : c.kind = .mark .closeParen)
    (ih : Accepted (.expr e) ts) : Accepted (.atom e) (o :: (ts ++ [c])) := by
  intro n rest hn
  have hinner : exprAt n (ts ++ c :: rest) = .ok (e, c :: rest) := by
    refine exprAt_of_accepted ih ?_ ?_
    · simp only [List.length_append, List.length_cons, List.length_nil] at hn ⊢
      omega
    · rw [nextKind_cons, hc]
      exact ⟨rfl, rfl⟩
  simp only [List.cons_append, List.append_assoc, List.nil_append, atom, peek_bind,
    nextKind_cons, ho]
  rw [bind_of_ok (expect_cons ho), bind_of_ok hinner, bind_of_ok (expect_cons hc), pure_apply]

theorem accepted_numberCall (ho : o.kind = .mark .openAngle) (hf : f.kind = .name)
    (hc : c.kind = .mark .closeAngle) (ih : Accepted (.exprs es) ts) :
    Accepted (.atom (.call f.word es)) (o :: f :: (ts ++ [c])) := by
  intro n rest hn
  have hargs : arguments (exprAt n) n (ts ++ c :: rest) = .ok (es, c :: rest) := by
    have hlen : (ts ++ c :: rest).length < n := by
      simp only [List.length_append, List.length_cons, List.length_nil] at hn ⊢
      omega
    apply ih n n _ hlen hlen
    rw [nextKind_cons, hc]
    exact ⟨⟨rfl, rfl⟩, rfl⟩
  simp only [List.cons_append, List.append_assoc, List.nil_append, atom, peek_bind,
    nextKind_cons, ho]
  rw [bind_of_ok (expect_cons ho), bind_of_ok (expect_cons hf), bind_of_ok hargs,
    bind_of_ok (expect_cons hc), pure_apply]

theorem accepted_factor (hd : Derives (.atom e) ts) (ih : Accepted (.atom e) ts) :
    Accepted (.term e) ts := by
  intro n rest hn
  have hs : (nextKind ts).startsExpr = true := starts_of_derives hd
  have hpos := length_pos_of_starts rfl (ne_finish_of_startsExpr hs)
  refine ⟨n, ?_, bind_of_ok (ih n rest hn)⟩
  rw [List.length_append] at hn
  omega

theorem accepted_product (hop : op.isTight = true) (hsign : sign.kind = .mark op.mark)
    (ihl : Accepted (.term l) ts) (ihr : Accepted (.atom r) us) :
    Accepted (.term (.binary op l r sign.stop)) (ts ++ sign :: us) := by
  intro n rest hn
  rw [List.append_assoc, List.cons_append] at hn ⊢
  obtain ⟨k, hk, hterm⟩ := ihl n (sign :: (us ++ rest)) hn
  have hstep : multiplicative sign.kind = some op := by rw [hsign, multiplicative_mark hop]
  have hr : atom (exprAt n) n (us ++ rest) = .ok (r, rest) := by
    apply ihr n rest
    simp only [List.length_append, List.length_cons] at hn ⊢
    omega
  rw [List.length_cons, List.length_append] at hk
  obtain _ | k := k
  · omega
  exact ⟨k, by omega, hterm.trans (chain_step hstep hr)⟩

theorem accepted_summand (hd : Derives (.term e) ts) (ih : Accepted (.term e) ts) :
    Accepted (.expr e) ts := by
  intro n rest hn hrest
  have hs : (nextKind ts).startsExpr = true := starts_of_derives hd
  have hpos := length_pos_of_starts rfl (ne_finish_of_startsExpr hs)
  refine ⟨n, ?_, bind_of_ok (term_of_accepted ih hn hrest)⟩
  rw [List.length_append] at hn
  omega

theorem accepted_sum (hop : op.isTight = false) (hsign : sign.kind = .mark op.mark)
    (ihl : Accepted (.expr l) ts) (ihr : Accepted (.term r) us) :
    Accepted (.expr (.binary op l r sign.stop)) (ts ++ sign :: us) := by
  intro n rest hn hrest
  rw [List.append_assoc, List.cons_append] at hn ⊢
  obtain ⟨k, hk, hexpr⟩ := ihl n (sign :: (us ++ rest)) hn
    (by rw [nextKind_cons, hsign, multiplicative_mark_of_loose hop])
  have hstep : additive sign.kind = some op := by rw [hsign, additive_mark hop]
  have hr : term (exprAt n) n (us ++ rest) = .ok (r, rest) := by
    refine term_of_accepted ihr ?_ hrest
    simp only [List.length_append, List.length_cons] at hn ⊢
    omega
  rw [List.length_cons, List.length_append] at hk
  obtain _ | k := k
  · omega
  exact ⟨k, by omega, hexpr.trans (chain_step hstep hr)⟩

theorem accepted_noExprs : Accepted (.exprs []) [] := by
  intro n k rest _ hk hrest
  obtain _ | k := k
  · omega
  rw [List.nil_append]
  simp only [arguments, peek_bind, hrest.2]
  rfl

/-- After an expression comes either the next one or a token at which expressions end; no operator
can come in either case. -/
theorem endsExpr_exprs (h : Derives (.exprs es) us) (hrest : endsExprs (nextKind rest)) :
    endsExpr (nextKind (us ++ rest)) := by
  cases h with
  | noExprs => exact hrest.1
  | moreExprs he _ =>
    rw [List.append_assoc]
    exact endsExpr_expr he _

theorem accepted_moreExprs (he : Derives (.expr e) ts) (hes : Derives (.exprs es) us)
    (ihe : Accepted (.expr e) ts) (ihes : Accepted (.exprs es) us) :
    Accepted (.exprs (e :: es)) (ts ++ us) := by
  intro n k rest hn hk hrest
  have hs : (nextKind ts).startsExpr = true := starts_of_derives he
  have hpos := length_pos_of_starts rfl (ne_finish_of_startsExpr hs)
  rw [List.append_assoc] at hn hk ⊢
  have hfirst := exprAt_of_accepted ihe hn (endsExpr_exprs hes hrest)
  simp only [List.length_append] at hn hk
  obtain _ | k := k
  · omega
  have hmore := ihes n k rest (by rw [List.length_append]; omega)
    (by rw [List.length_append]; omega) hrest
  simp only [arguments, peek_bind, startsExpr_append he, if_true]
  rw [bind_of_ok hfirst, bind_of_ok hmore, pure_apply]

end Expressions

/-! ### Statements -/

section Statements

variable {e a b x y x₁ y₁ x₂ y₂ : Expr} {es : List Expr} {s : Stmt} {ss : List Stmt}
  {word f o c t : Token} {as bs cs ds xs ys ts us : List Token}

theorem accepted_inked {keyword : Keyword} {form : Expr → Stmt}
    (hform : ∀ expr body, afterKeyword expr body keyword = expr >>= fun e => pure (form e))
    (hw : word.kind = .keyword keyword) (ih : Accepted (.expr e) ts) :
    Accepted (.stmt (form e)) (word :: ts) := by
  intro n rest hn hrest
  rw [List.cons_append, stmtAt_keyword hw, hform]
  exact bind_of_ok (exprAt_of_accepted ih hn (endsExprs_of_endsStmt hrest).1)

theorem accepted_line (hw : word.kind = .keyword .line) (hb : Derives (.expr y₁) bs)
    (hc : Derives (.expr x₂) cs) (hd : Derives (.expr y₂) ds) (iha : Accepted (.expr x₁) as)
    (ihb : Accepted (.expr y₁) bs) (ihc : Accepted (.expr x₂) cs) (ihd : Accepted (.expr y₂) ds) :
    Accepted (.stmt (.line x₁ y₁ x₂ y₂)) (word :: (as ++ (bs ++ (cs ++ ds)))) := by
  intro n rest hn hrest
  simp only [List.cons_append, List.append_assoc, List.length_cons, List.length_append] at hn ⊢
  have h₁ : exprAt n (as ++ (bs ++ (cs ++ (ds ++ rest)))) = _ :=
    exprAt_of_accepted iha (by simp only [List.length_append]; omega) (endsExpr_expr hb _)
  have h₂ : exprAt n (bs ++ (cs ++ (ds ++ rest))) = _ :=
    exprAt_of_accepted ihb (by simp only [List.length_append]; omega) (endsExpr_expr hc _)
  have h₃ : exprAt n (cs ++ (ds ++ rest)) = _ :=
    exprAt_of_accepted ihc (by simp only [List.length_append]; omega) (endsExpr_expr hd _)
  have h₄ : exprAt n (ds ++ rest) = _ :=
    exprAt_of_accepted ihd (by simp only [List.length_append]; omega)
      (endsExprs_of_endsStmt hrest).1
  rw [stmtAt_keyword hw]
  simp only [afterKeyword]
  rw [bind_of_ok h₁, bind_of_ok h₂, bind_of_ok h₃, bind_of_ok h₄, pure_apply]

theorem accepted_assign (hw : word.kind = .keyword .set) (hf : f.kind = .name)
    (hd : Derives (.expr e) ts) (ih : Accepted (.expr e) ts) :
    Accepted (.stmt (.assign f.text e)) (word :: f :: ts) := by
  intro n rest hn hrest
  simp only [List.cons_append, List.length_cons, List.length_append] at hn ⊢
  have he : exprAt n (ts ++ rest) = _ :=
    exprAt_of_accepted ih (by rw [List.length_append]; omega) (endsExprs_of_endsStmt hrest).1
  have hnext : nextKind (ts ++ rest) ≠ .mark .openBracket := by
    intro h
    have hs := startsExpr_append hd rest
    rw [h] at hs
    cases hs
  rw [stmtAt_keyword hw]
  simp only [afterKeyword, setting, peek_bind, nextKind_cons, hf, reduceCtorEq, if_false]
  rw [bind_of_ok (expect_cons hf), peek_bind, if_neg hnext, bind_of_ok he, pure_apply]

theorem coordinates_of_accepted (ho : o.kind = .mark .openBracket)
    (hc : c.kind = .mark .closeBracket) (hy : Derives (.expr y) ys)
    (ihx : Accepted (.expr x) xs) (ihy : Accepted (.expr y) ys)
    (hn : (o :: (xs ++ (ys ++ c :: rest))).length ≤ n) :
    coordinates (exprAt n) (o :: (xs ++ (ys ++ c :: rest))) = .ok ((x, y), rest) := by
  simp only [List.length_cons, List.length_append] at hn
  have hx' : exprAt n (xs ++ (ys ++ c :: rest)) = _ :=
    exprAt_of_accepted ihx (by simp only [List.length_append, List.length_cons]; omega)
      (endsExpr_expr hy _)
  have hy' : exprAt n (ys ++ c :: rest) = .ok (y, c :: rest) := by
    refine exprAt_of_accepted ihy ?_ ?_
    · simp only [List.length_append, List.length_cons]
      omega
    · rw [nextKind_cons, hc]
      exact ⟨rfl, rfl⟩
  simp only [coordinates]
  rw [bind_of_ok (expect_cons ho), bind_of_ok hx', bind_of_ok hy', bind_of_ok (expect_cons hc),
    pure_apply]

theorem accepted_setPixel (hw : word.kind = .keyword .set) (ho : o.kind = .mark .openBracket)
    (hc : c.kind = .mark .closeBracket) (hy : Derives (.expr y) ys)
    (ihx : Accepted (.expr x) xs) (ihy : Accepted (.expr y) ys) (ih : Accepted (.expr e) ts) :
    Accepted (.stmt (.setPixel x y e)) (word :: o :: (xs ++ (ys ++ c :: ts))) := by
  intro n rest hn hrest
  simp only [List.cons_append, List.append_assoc, List.length_cons, List.length_append] at hn ⊢
  have hxy : coordinates (exprAt n) (o :: (xs ++ (ys ++ c :: (ts ++ rest)))) = _ :=
    coordinates_of_accepted ho hc hy ihx ihy
      (by simp only [List.length_cons, List.length_append]; omega)
  have he : exprAt n (ts ++ rest) = _ :=
    exprAt_of_accepted ih (by rw [List.length_append]; omega) (endsExprs_of_endsStmt hrest).1
  rw [stmtAt_keyword hw]
  simp only [afterKeyword, setting, peek_bind, nextKind_cons, ho, if_true]
  rw [bind_of_ok hxy, bind_of_ok he, pure_apply]

theorem accepted_readPixel (hw : word.kind = .keyword .set) (hf : f.kind = .name)
    (ho : o.kind = .mark .openBracket) (hc : c.kind = .mark .closeBracket)
    (hy : Derives (.expr y) ys) (ihx : Accepted (.expr x) xs) (ihy : Accepted (.expr y) ys) :
    Accepted (.stmt (.readPixel f.text x y)) (word :: f :: o :: (xs ++ (ys ++ [c]))) := by
  intro n rest hn hrest
  simp only [List.cons_append, List.append_assoc, List.nil_append, List.length_cons,
    List.length_append] at hn ⊢
  have hxy : coordinates (exprAt n) (o :: (xs ++ (ys ++ c :: rest))) = _ :=
    coordinates_of_accepted ho hc hy ihx ihy
      (by simp only [List.length_cons, List.length_append]; omega)
  rw [stmtAt_keyword hw]
  simp only [afterKeyword, setting, peek_bind, nextKind_cons, hf, reduceCtorEq, if_false]
  rw [bind_of_ok (expect_cons hf), peek_bind, nextKind_cons, if_pos ho, bind_of_ok hxy, pure_apply]

theorem accepted_loop (hw : word.kind = .keyword .loop) (hf : f.kind = .name)
    (hb : Derives (.expr b) bs) (hss : Derives (.block ss) ts) (iha : Accepted (.expr a) as)
    (ihb : Accepted (.expr b) bs) (ihss : Accepted (.block ss) ts) :
    Accepted (.stmt (.loop f.text a b ss)) (word :: f :: (as ++ (bs ++ ts))) := by
  intro n rest hn hrest
  simp only [List.cons_append, List.append_assoc, List.length_cons, List.length_append] at hn ⊢
  have h₁ : exprAt n (as ++ (bs ++ (ts ++ rest))) = _ :=
    exprAt_of_accepted iha (by simp only [List.length_append]; omega) (endsExpr_expr hb _)
  have h₂ : exprAt n (bs ++ (ts ++ rest)) = _ :=
    exprAt_of_accepted ihb (by simp only [List.length_append]; omega) (endsExpr_block hss _)
  have h₃ := ihss n rest (by rw [List.length_append]; omega)
  rw [stmtAt_keyword hw]
  simp only [afterKeyword]
  rw [bind_of_ok (expect_cons hf), bind_of_ok h₁, bind_of_ok h₂, bind_of_ok h₃, pure_apply]

theorem accepted_test {r : Relation} (hw : word.kind = .keyword (.test r))
    (hb : Derives (.expr b) bs) (hss : Derives (.block ss) ts) (iha : Accepted (.expr a) as)
    (ihb : Accepted (.expr b) bs) (ihss : Accepted (.block ss) ts) :
    Accepted (.stmt (.test r a b ss)) (word :: (as ++ (bs ++ ts))) := by
  intro n rest hn hrest
  simp only [List.cons_append, List.append_assoc, List.length_cons, List.length_append] at hn ⊢
  have h₁ : exprAt n (as ++ (bs ++ (ts ++ rest))) = _ :=
    exprAt_of_accepted iha (by simp only [List.length_append]; omega) (endsExpr_expr hb _)
  have h₂ : exprAt n (bs ++ (ts ++ rest)) = _ :=
    exprAt_of_accepted ihb (by simp only [List.length_append]; omega) (endsExpr_block hss _)
  have h₃ := ihss n rest (by rw [List.length_append]; omega)
  rw [stmtAt_keyword hw]
  simp only [afterKeyword]
  rw [bind_of_ok h₁, bind_of_ok h₂, bind_of_ok h₃, pure_apply]

/-- The parameters of a definition end where its body begins. -/
theorem names_append (hps : AllOf .name as) (hnext : nextKind us ≠ .name) :
    names (as ++ us) = .ok (as.map (·.text), us) := by
  have hall : ∀ t ∈ as, decide (t.kind = .name) = true := fun t ht => decide_eq_true (hps t ht)
  rw [names_apply, List.takeWhile_append_of_pos hall, List.dropWhile_append_of_pos hall,
    dropWhile_eq_self hnext]
  cases us with
  | nil => simp
  | cons u us =>
    rw [nextKind_cons] at hnext
    simp [hnext]

theorem accepted_define {role : Role} (hw : word.kind = .keyword role.keyword)
    (hf : f.kind = .name) (hps : AllOf .name as) (hss : Derives (.block ss) ts)
    (ihss : Accepted (.block ss) ts) :
    Accepted (.stmt (.define role f.text (as.map (·.text)) ss)) (word :: f :: (as ++ ts)) := by
  intro n rest hn hrest
  simp only [List.cons_append, List.append_assoc, List.length_cons, List.length_append] at hn ⊢
  have hbody := ihss n rest (by rw [List.length_append]; omega)
  have hnext : nextKind (ts ++ rest) ≠ .name := by
    have hb : nextKind ts = .mark .openBrace := starts_of_derives hss
    rw [nextKind_append (by simp [hb]), hb]
    simp
  have hrole : afterKeyword (exprAt n) (block (stmtAt n) n) role.keyword =
      definition role (block (stmtAt n) n) := by
    cases role <;> rfl
  rw [stmtAt_keyword hw, hrole]
  simp only [definition]
  rw [bind_of_ok (expect_cons hf), bind_of_ok (names_append hps hnext), bind_of_ok hbody,
    pure_apply]

theorem accepted_load (hw : word.kind = .keyword .load) (ht : t.kind = .quoted) :
    Accepted (.stmt (.load t.word)) [word, t] := by
  intro n rest _ _
  simp only [List.cons_append, List.nil_append, stmtAt_keyword hw, afterKeyword]
  rw [bind_of_ok (expect_cons ht), pure_apply]

theorem accepted_commandCall (hf : f.kind = .name) (ih : Accepted (.exprs es) ts) :
    Accepted (.stmt (.call f.word es)) (f :: ts) := by
  intro n rest hn hrest
  rw [List.cons_append] at hn ⊢
  have hargs := ih n n rest hn hn (endsExprs_of_endsStmt hrest)
  simp only [stmtAt, peek_bind, nextKind_cons, hf]
  rw [bind_of_ok (expect_cons hf), bind_of_ok hargs, pure_apply]

theorem accepted_nested (hss : Derives (.block ss) ts) (ih : Accepted (.block ss) ts) :
    Accepted (.stmt (.block ss)) ts := by
  intro n rest hn hrest
  have hb : nextKind ts = .mark .openBrace := starts_of_derives hss
  have hnext : nextKind (ts ++ rest) = .mark .openBrace := by
    rw [nextKind_append (by simp [hb]), hb]
  simp only [stmtAt, peek_bind, hnext]
  rw [bind_of_ok (ih n rest hn), pure_apply]

end Statements

/-! ### Lists of statements -/

section Lists

variable {stmt : Reader Stmt} {close : Kind} {s : Stmt} {ss : List Stmt} {o c sep : Token}
  {seps before after ts us : List Token}

theorem statements_end (h : nextKind rest = close) (hclose : close ≠ .newline) (hk : 0 < k) :
    statements stmt close k rest = .ok ([], rest) := by
  obtain _ | k := k
  · omega
  have hskip : rest.dropWhile (·.kind = .newline) = rest := dropWhile_eq_self (h ▸ hclose)
  simp only [statements]
  rw [bind_of_ok (skipNewlines_apply _), hskip, peek_bind, if_pos h, pure_apply]

theorem statements_last (hclose : endsStmt close) (hs : startsStmt (nextKind us) = true)
    (hstmt : stmt us = .ok (s, rest)) (hrest : nextKind rest = close) :
    statements stmt close (k + 1) us = .ok ([s], rest) := by
  have hskip : us.dropWhile (·.kind = .newline) = us :=
    dropWhile_eq_self fun h => by rw [h] at hs; cases hs
  have hne : nextKind us ≠ close := by
    intro h
    rw [h, not_startsStmt_of_endsStmt hclose] at hs
    cases hs
  simp only [statements]
  rw [bind_of_ok (skipNewlines_apply _), hskip, peek_bind, if_neg hne, bind_of_ok hstmt,
    peek_bind, if_pos hrest, pure_apply]

theorem statements_more (hclose : endsStmt close) (hne' : close ≠ .newline)
    (hs : startsStmt (nextKind us) = true) (hstmt : stmt us = .ok (s, sep :: ts))
    (hsep : sep.kind = .newline) (hss : statements stmt close k ts = .ok (ss, rest)) :
    statements stmt close (k + 1) us = .ok (s :: ss, rest) := by
  have hskip : us.dropWhile (·.kind = .newline) = us :=
    dropWhile_eq_self fun h => by rw [h] at hs; cases hs
  have hne : nextKind us ≠ close := by
    intro h
    rw [h, not_startsStmt_of_endsStmt hclose] at hs
    cases hs
  have hnext : nextKind (sep :: ts) ≠ close := by
    rw [nextKind_cons, hsep]
    exact hne'.symm
  simp only [statements]
  rw [bind_of_ok (skipNewlines_apply _), hskip, peek_bind, if_neg hne, bind_of_ok hstmt,
    peek_bind, if_neg hnext, bind_of_ok (expect_cons hsep), bind_of_ok hss, pure_apply]

theorem startsStmt_append (h : Derives (.stmt s) ts) (us : List Token) :
    startsStmt (nextKind (ts ++ us)) = true := by
  have hs : startsStmt (nextKind ts) = true := starts_of_derives h
  rwa [nextKind_append (ne_finish_of_startsStmt hs)]

theorem stmtAt_of_accepted (h : Accepted (.stmt s) ts) (hn : (ts ++ rest).length < n)
    (hrest : endsStmt (nextKind rest)) : stmtAt n (ts ++ rest) = .ok (s, rest) := by
  obtain _ | n := n
  · omega
  exact h n rest (by omega) hrest

theorem accepted_oneLine (hd : Derives (.stmt s) ts) (ih : Accepted (.stmt s) ts) :
    Accepted (.lines [s]) ts := by
  intro n k after rest hn hk hafter hend hne
  obtain _ | k := k
  · omega
  cases after with
  | nil => exact statements_last hend (startsStmt_append hd _) (stmtAt_of_accepted ih hn hend) rfl
  | cons sep after =>
    have hsep : sep.kind = .newline := hafter sep (by simp)
    rw [List.cons_append] at hn hk ⊢
    have hstmt := stmtAt_of_accepted ih hn (.inl hsep)
    apply statements_more hend hne (startsStmt_append hd _) hstmt hsep
    simp only [List.length_append, List.length_cons] at hk
    obtain _ | k := k
    · omega
    rw [statements_newlines fun t ht => hafter t (by simp [ht])]
    exact statements_end rfl hne (Nat.succ_pos _)

theorem accepted_moreLines (hd : Derives (.stmt s) ts) (hseps : AllOf .newline seps)
    (hne : seps ≠ []) (ih : Accepted (.stmt s) ts) (ihs : Accepted (.lines ss) us) :
    Accepted (.lines (s :: ss)) (ts ++ (seps ++ us)) := by
  intro n k after rest hn hk hafter hend hnext
  obtain _ | k := k
  · omega
  cases seps with
  | nil => exact absurd rfl hne
  | cons sep seps =>
    have hsep : sep.kind = .newline := hseps sep (by simp)
    simp only [List.append_assoc, List.cons_append] at hn hk ⊢
    have hstmt := stmtAt_of_accepted ih hn (.inl hsep)
    apply statements_more hend hnext (startsStmt_append hd _) hstmt hsep
    simp only [List.length_append, List.length_cons] at hn hk
    obtain _ | k := k
    · omega
    rw [statements_newlines fun t ht => hseps t (by simp [ht])]
    exact ihs n _ after rest (by simp only [List.length_append]; omega)
      (by simp only [List.length_append]; omega) hafter hend hnext

theorem accepted_noStmts (hseps : AllOf .newline seps) : Accepted (.stmts []) seps := by
  intro n k rest _ hk _ hne
  obtain _ | k := k
  · omega
  rw [statements_newlines hseps]
  exact statements_end rfl hne (Nat.succ_pos _)

theorem accepted_someStmts (hbefore : AllOf .newline before) (hafter : AllOf .newline after)
    (ih : Accepted (.lines ss) ts) : Accepted (.stmts ss) (before ++ (ts ++ after)) := by
  intro n k rest hn hk hend hne
  obtain _ | k := k
  · omega
  simp only [List.append_assoc] at hn hk ⊢
  rw [statements_newlines hbefore]
  rw [List.length_append] at hn hk
  exact ih n _ after rest (by omega) (by omega) hafter hend hne

theorem accepted_block (ho : o.kind = .mark .openBrace) (hc : c.kind = .mark .closeBrace)
    (ih : Accepted (.stmts ss) ts) : Accepted (.block ss) (o :: (ts ++ [c])) := by
  intro n rest hn
  have hbody : statements (stmtAt n) (.mark .closeBrace) n (ts ++ c :: rest) =
      .ok (ss, c :: rest) := by
    have hlen : (ts ++ c :: rest).length < n := by
      simp only [List.length_append, List.length_cons, List.length_nil] at hn ⊢
      omega
    have h := ih n n (c :: rest) hlen hlen
    rw [nextKind_cons, hc] at h
    exact h (.inr (.inl rfl)) (by simp)
  simp only [List.cons_append, List.append_assoc, List.nil_append, Reader.block]
  rw [bind_of_ok (expect_cons ho), bind_of_ok hbody, bind_of_ok (expect_cons hc), pure_apply]

end Lists

/-- Every derivation is followed by the reader of its phrase. -/
theorem accepted_of_derives {ph : Phrase} {ts : List Token} (h : Derives ph ts) :
    Accepted ph ts := by
  induction h with
  | literal ht => exact accepted_literal ht
  | name ht => exact accepted_name ht
  | parens ho _ hc ih => exact accepted_parens ho hc ih
  | numberCall ho hf _ hc ih => exact accepted_numberCall ho hf hc ih
  | factor hd ih => exact accepted_factor hd ih
  | product _ hop hsign _ ihl ihr => exact accepted_product hop hsign ihl ihr
  | summand hd ih => exact accepted_summand hd ih
  | sum _ hop hsign _ ihl ihr => exact accepted_sum hop hsign ihl ihr
  | noExprs => exact accepted_noExprs
  | moreExprs he hes ihe ihes => exact accepted_moreExprs he hes ihe ihes
  | paper hw _ ih => exact accepted_inked (fun _ _ => rfl) hw ih
  | pen hw _ ih => exact accepted_inked (fun _ _ => rfl) hw ih
  | line hw _ hb hc hd iha ihb ihc ihd => exact accepted_line hw hb hc hd iha ihb ihc ihd
  | assign hw hf hd ih => exact accepted_assign hw hf hd ih
  | setPixel hw ho _ hy hc _ ihx ihy ih => exact accepted_setPixel hw ho hc hy ihx ihy ih
  | readPixel hw hf ho _ hy hc ihx ihy => exact accepted_readPixel hw hf ho hc hy ihx ihy
  | loop hw hf _ hb hss iha ihb ihss => exact accepted_loop hw hf hb hss iha ihb ihss
  | test hw _ hb hss iha ihb ihss => exact accepted_test hw hb hss iha ihb ihss
  | define hw hf hps hss ihss => exact accepted_define hw hf hps hss ihss
  | value hw _ ih => exact accepted_inked (fun _ _ => rfl) hw ih
  | load hw ht => exact accepted_load hw ht
  | commandCall hf _ ih => exact accepted_commandCall hf ih
  | nested hss ih => exact accepted_nested hss ih
  | oneLine hd ih => exact accepted_oneLine hd ih
  | moreLines hd hseps hne _ ih ihs => exact accepted_moreLines hd hseps hne ih ihs
  | noStmts hseps => exact accepted_noStmts hseps
  | someStmts hbefore _ hafter ih => exact accepted_someStmts hbefore hafter ih
  | block ho _ hc ih => exact accepted_block ho hc ih

/-! ## Programs -/

/-- A program is accepted, with the tree that the rules give it. -/
theorem ofTokens?_of_isProgram {p : Program} {tokens : List Token} (h : IsProgram p tokens) :
    Program.ofTokens? tokens = .ok p := by
  cases h with
  | @intro eof ts hd heof =>
    have hread : statements (stmtAt ((ts ++ [eof]).length + 1)) .finish
        ((ts ++ [eof]).length + 1) (ts ++ [eof]) = .ok (p, [eof]) := by
      have h := accepted_of_derives hd ((ts ++ [eof]).length + 1) ((ts ++ [eof]).length + 1) [eof]
        (Nat.lt_succ_self _) (Nat.lt_succ_self _)
      rw [nextKind_cons, heof] at h
      exact h (.inr (.inr rfl)) (by simp)
    simp only [Program.ofTokens?, hread]
    rfl

/-- The reader of programs accepts exactly the programs of the grammar, among the lists of tokens
that end in their only `finish`, and returns the tree that the rules give them. No list spells two
trees. -/
theorem accepts_exactly_programs (body : List Token) (eof : Token) (heof : eof.kind = .finish)
    (hbody : ∀ t ∈ body, t.kind ≠ .finish) :
    (∀ p, Program.ofTokens? (body ++ [eof]) = .ok p ↔ IsProgram p (body ++ [eof])) ∧
      ∀ p q, IsProgram p (body ++ [eof]) → IsProgram q (body ++ [eof]) → p = q := by
  refine ⟨fun p => ⟨isProgram_of_ofTokens? heof hbody, ofTokens?_of_isProgram⟩, ?_⟩
  intro p q hp hq
  have h := ofTokens?_of_isProgram hp
  rw [ofTokens?_of_isProgram hq] at h
  cases h
  rfl

/-- The tokens of `Paper 1 - 2 * 3 - 4`, up to the end of the text. -/
def differenceTokens : List Token :=
  [⟨.keyword .paper, "Paper", ⟨"", 1, 1⟩, ⟨"", 1, 6⟩⟩, ⟨.integer, "1", ⟨"", 1, 7⟩, ⟨"", 1, 8⟩⟩,
    ⟨.mark .minus, "-", ⟨"", 1, 9⟩, ⟨"", 1, 10⟩⟩, ⟨.integer, "2", ⟨"", 1, 11⟩, ⟨"", 1, 12⟩⟩,
    ⟨.mark .star, "*", ⟨"", 1, 13⟩, ⟨"", 1, 14⟩⟩, ⟨.integer, "3", ⟨"", 1, 15⟩, ⟨"", 1, 16⟩⟩,
    ⟨.mark .minus, "-", ⟨"", 1, 17⟩, ⟨"", 1, 18⟩⟩, ⟨.integer, "4", ⟨"", 1, 19⟩, ⟨"", 1, 20⟩⟩]

/-- Products go first, and differences group to the left. -/
theorem differences_group_left :
    (∀ t ∈ differenceTokens, t.kind ≠ .finish) ∧
      IsProgram [.paper (.binary .sub (.binary .sub (.literal "1")
          (.binary .mul (.literal "2") (.literal "3") ⟨"", 1, 14⟩) ⟨"", 1, 10⟩)
          (.literal "4") ⟨"", 1, 18⟩)]
        (differenceTokens ++ [⟨.finish, "", ⟨"", 1, 20⟩, ⟨"", 1, 20⟩⟩]) := by
  have h : ∀ t ∈ differenceTokens, t.kind ≠ .finish := by decide
  exact ⟨h, ((accepts_exactly_programs _ _ rfl h).1 _).1 rfl⟩

end DrawLang.Grammar
