import DrawLang.Proofs.Grammar

/-!
# Readers accept only what the grammar derives

Whatever a reader takes from the front of a list of tokens spells, by the rules of the grammar, the
tree that it returns. The levels of nesting play no part: this holds of readers at every level.

* `Sound`: what is claimed of a reader, with one lemma for each way to build readers.
* `exprAt_sound`, `stmtAt_sound`: the readers of expressions and statements.
* `isProgram_of_ofTokens?`: an accepted list of tokens is a program.
-/

namespace DrawLang.Grammar

open Reader

/-- What a reader takes spells what it returns. -/
def Sound {α : Type} (r : Reader α) (Spells : α → List Token → Prop) : Prop :=
  ∀ ⦃ts a rest⦄, r ts = .ok (a, rest) → ∃ used, ts = used ++ rest ∧ Spells a used

namespace Sound

variable {α β : Type} {P : α → List Token → Prop} {Q : β → List Token → Prop}

theorem peek {f : Kind → Reader α} (h : ∀ k, Sound (f k) P) : Sound (Reader.peek >>= f) P := by
  intro ts a rest hf
  exact h (nextKind ts) hf

theorem refuse : Sound Reader.refuse P := by
  intro ts a rest h
  cases h

theorem pure {a : α} (h : P a []) : Sound (Pure.pure a) P := by
  intro ts b rest hb
  obtain ⟨rfl, rfl⟩ := pure_ok_iff.1 hb
  exact ⟨[], rfl, h⟩

theorem expect (kind : Kind) : Sound (Reader.expect kind) fun t us => us = [t] ∧ t.kind = kind := by
  intro ts t rest h
  obtain ⟨rfl, hk⟩ := expect_ok_iff.1 h
  exact ⟨[t], rfl, rfl, hk⟩

theorem bind {r : Reader α} {f : α → Reader β} (hr : Sound r P)
    (hf : ∀ a us, P a us → Sound (f a) fun b vs => Q b (us ++ vs)) : Sound (r >>= f) Q := by
  intro ts b rest h
  obtain ⟨a, mid, ha, hb⟩ := bind_ok_iff.1 h
  obtain ⟨us, rfl, hP⟩ := hr ha
  obtain ⟨vs, rfl, hQ⟩ := hf a us hP hb
  exact ⟨us ++ vs, (List.append_assoc ..).symm, hQ⟩

/-- A reader whose last step only wraps up what has been read. -/
theorem wrap {r : Reader α} {f : α → β} (hr : Sound r P) (hf : ∀ a us, P a us → Q (f a) us) :
    Sound (r >>= fun a => Pure.pure (f a)) Q := by
  refine hr.bind fun a us hP => .pure ?_
  rw [List.append_nil]
  exact hf a us hP

theorem skipNewlines : Sound Reader.skipNewlines fun _ us => AllOf .newline us := by
  intro ts a rest h
  cases h
  refine ⟨ts.takeWhile (·.kind = .newline), List.takeWhile_append_dropWhile.symm, ?_⟩
  intro t ht
  exact of_decide_eq_true (List.all_eq_true.1 List.all_takeWhile t ht)

theorem names : Sound Reader.names fun params us => params = us.map (·.text) ∧ AllOf .name us := by
  intro ts a rest h
  cases h
  refine ⟨ts.takeWhile (·.kind = .name), List.takeWhile_append_dropWhile.symm, rfl, ?_⟩
  intro t ht
  exact of_decide_eq_true (List.all_eq_true.1 List.all_takeWhile t ht)

end Sound

/-! ## Expressions -/

theorem additive_eq_some {k : Kind} {op : Operator} (h : additive k = some op) :
    op.isTight = false ∧ k = .mark op.mark := by
  unfold additive at h
  split at h <;> cases h <;> exact ⟨rfl, rfl⟩

theorem multiplicative_eq_some {k : Kind} {op : Operator} (h : multiplicative k = some op) :
    op.isTight = true ∧ k = .mark op.mark := by
  unfold multiplicative at h
  split at h <;> cases h <;> exact ⟨rfl, rfl⟩

/-- A chain of operators extends what spells its left operand. The rule says how one operator and
its right operand are added. -/
theorem chain_sound {operator : Kind → Option Operator} {operand : Reader Expr}
    (level : Expr → Phrase) {inner : Expr → Phrase}
    (hoperand : Sound operand fun e => Derives (inner e))
    (rule : ∀ {l r : Expr} {op : Operator} {sign : Token} {ts us : List Token},
      Derives (level l) ts → operator sign.kind = some op → Derives (inner r) us →
      Derives (level (.binary op l r sign.stop)) (ts ++ sign :: us))
    (n : Nat) {left : Expr} {before : List Token} (hl : Derives (level left) before) :
    Sound (chain operator operand n left) fun e used => Derives (level e) (before ++ used) := by
  induction n generalizing left before with
  | zero => exact .refuse
  | succ n ih =>
    rw [chain_succ]
    refine .peek fun k => ?_
    split
    · exact .pure (by rwa [List.append_nil])
    · rename_i op hop
      refine (Sound.expect _).bind ?_
      rintro sign _ ⟨rfl, rfl⟩
      refine hoperand.bind fun r us hr => ?_
      have hb := ih (rule hl hop hr)
      simpa only [List.append_assoc, List.cons_append, List.nil_append] using hb

theorem arguments_sound {expr : Reader Expr} (hexpr : Sound expr fun e => Derives (.expr e))
    (n : Nat) : Sound (arguments expr n) fun es => Derives (.exprs es) := by
  induction n with
  | zero => exact .refuse
  | succ n ih =>
    refine .peek fun k => ?_
    split
    · refine hexpr.bind fun e us he => ?_
      exact ih.wrap fun es vs hes => .moreExprs he hes
    · exact .pure .noExprs

theorem atom_sound {expr : Reader Expr} (hexpr : Sound expr fun e => Derives (.expr e))
    (n : Nat) : Sound (atom expr n) fun e => Derives (.atom e) := by
  refine .peek fun k => ?_
  split
  · refine (Sound.expect _).wrap ?_
    rintro t _ ⟨rfl, hk⟩
    exact .literal hk
  · refine (Sound.expect _).wrap ?_
    rintro t _ ⟨rfl, hk⟩
    exact .name hk
  · refine (Sound.expect _).bind ?_
    rintro o _ ⟨rfl, ho⟩
    refine hexpr.bind fun e us he => ?_
    refine (Sound.expect _).wrap ?_
    rintro c _ ⟨rfl, hc⟩
    exact .parens ho he hc
  · refine (Sound.expect _).bind ?_
    rintro o _ ⟨rfl, ho⟩
    refine (Sound.expect _).bind ?_
    rintro f _ ⟨rfl, hf⟩
    refine (arguments_sound hexpr n).bind fun es us hes => ?_
    refine (Sound.expect _).wrap ?_
    rintro c _ ⟨rfl, hc⟩
    exact .numberCall ho hf hes hc
  · exact .refuse

theorem term_sound {expr : Reader Expr} (hexpr : Sound expr fun e => Derives (.expr e))
    (n : Nat) : Sound (term expr n) fun e => Derives (.term e) := by
  refine (atom_sound hexpr n).bind fun l us hl => ?_
  refine chain_sound .term (atom_sound hexpr n) ?_ n (.factor hl)
  intro l r op sign ts us hl hop hr
  obtain ⟨htight, hmark⟩ := multiplicative_eq_some hop
  exact .product hl htight hmark hr

theorem exprAt_sound (n : Nat) : Sound (exprAt n) fun e => Derives (.expr e) := by
  induction n with
  | zero => exact .refuse
  | succ n ih =>
    refine (term_sound ih n).bind fun l us hl => ?_
    refine chain_sound .expr (term_sound ih n) ?_ n (.summand hl)
    intro l r op sign ts us hl hop hr
    obtain ⟨htight, hmark⟩ := additive_eq_some hop
    exact .sum hl htight hmark hr

/-! ## Statements -/

theorem coordinates_sound {expr : Reader Expr} (hexpr : Sound expr fun e => Derives (.expr e)) :
    Sound (coordinates expr) fun p used => ∃ o c xs ys, o.kind = .mark .openBracket ∧
      Derives (.expr p.1) xs ∧ Derives (.expr p.2) ys ∧ c.kind = .mark .closeBracket ∧
      used = o :: (xs ++ (ys ++ [c])) := by
  refine (Sound.expect _).bind ?_
  rintro o _ ⟨rfl, ho⟩
  refine hexpr.bind fun x xs hx => ?_
  refine hexpr.bind fun y ys hy => ?_
  refine (Sound.expect _).wrap ?_
  rintro c _ ⟨rfl, hc⟩
  exact ⟨o, c, xs, ys, ho, hx, hy, hc, rfl⟩

/-- Statements up to a closing token, in the shape in which they are read: line ends in front, then
either nothing or a first statement, and after a line end again statements. -/
theorem stmts_cons {s : Stmt} {ss : List Stmt} {before ts us : List Token} {sep : Token}
    (hb : AllOf .newline before) (hs : Derives (.stmt s) ts) (hsep : sep.kind = .newline)
    (hss : Derives (.stmts ss) us) : Derives (.stmts (s :: ss)) (before ++ (ts ++ sep :: us)) := by
  cases hss with
  | noStmts hseps =>
    refine .someStmts hb (.oneLine hs) ?_
    exact List.forall_mem_cons.2 ⟨hsep, hseps⟩
  | someStmts hb' hlines ha =>
    have h := Derives.moreLines hs (List.forall_mem_cons.2 ⟨hsep, hb'⟩) (by simp) hlines
    simpa using Derives.someStmts hb h ha

theorem statements_sound {stmt : Reader Stmt} (hstmt : Sound stmt fun s => Derives (.stmt s))
    (close : Kind) (n : Nat) : Sound (statements stmt close n) fun ss => Derives (.stmts ss) := by
  induction n with
  | zero => exact .refuse
  | succ n ih =>
    refine Sound.skipNewlines.bind fun _ before hb => ?_
    refine .peek fun k => ?_
    split
    · refine .pure (.noStmts ?_)
      rwa [List.append_nil]
    · refine hstmt.bind fun s ts hs => ?_
      refine .peek fun k => ?_
      split
      · exact .pure (.someStmts hb (.oneLine hs) (by simp [AllOf]))
      · refine (Sound.expect _).bind ?_
        rintro sep _ ⟨rfl, hsep⟩
        exact ih.wrap fun ss us hss => stmts_cons hb hs hsep hss

theorem block_sound {stmt : Reader Stmt} (hstmt : Sound stmt fun s => Derives (.stmt s))
    (n : Nat) : Sound (block stmt n) fun ss => Derives (.block ss) := by
  refine (Sound.expect _).bind ?_
  rintro o _ ⟨rfl, ho⟩
  refine (statements_sound hstmt _ n).bind fun ss ts hss => ?_
  refine (Sound.expect _).wrap ?_
  rintro c _ ⟨rfl, hc⟩
  exact .block ho hss hc

theorem setting_sound {expr : Reader Expr} (hexpr : Sound expr fun e => Derives (.expr e))
    {k : Token} (hk : k.kind = .keyword .set) :
    Sound (setting expr) fun s ts => Derives (.stmt s) (k :: ts) := by
  refine .peek fun k' => ?_
  split
  · refine (coordinates_sound hexpr).bind ?_
    rintro ⟨x, y⟩ _ ⟨o, c, xs, ys, ho, hx, hy, hc, rfl⟩
    refine hexpr.wrap fun e ts he => ?_
    simpa using Derives.setPixel hk ho hx hy hc he
  · refine (Sound.expect _).bind ?_
    rintro n _ ⟨rfl, hn⟩
    refine .peek fun k' => ?_
    split
    · refine (coordinates_sound hexpr).wrap ?_
      rintro ⟨x, y⟩ _ ⟨o, c, xs, ys, ho, hx, hy, hc, rfl⟩
      exact .readPixel hk hn ho hx hy hc
    · exact hexpr.wrap fun e ts he => .assign hk hn he

theorem definition_sound {body : Reader (List Stmt)}
    (hbody : Sound body fun ss => Derives (.block ss)) {role : Role} {k : Token}
    (hk : k.kind = .keyword role.keyword) :
    Sound (definition role body) fun s ts => Derives (.stmt s) (k :: ts) := by
  refine (Sound.expect _).bind ?_
  rintro n _ ⟨rfl, hn⟩
  refine Sound.names.bind ?_
  rintro _ ps ⟨rfl, hps⟩
  exact hbody.wrap fun ss ts hss => .define hk hn hps hss

theorem afterKeyword_sound {expr : Reader Expr} {body : Reader (List Stmt)}
    (hexpr : Sound expr fun e => Derives (.expr e))
    (hbody : Sound body fun ss => Derives (.block ss)) {word : Keyword} {k : Token}
    (hk : k.kind = .keyword word) :
    Sound (afterKeyword expr body word) fun s ts => Derives (.stmt s) (k :: ts) := by
  cases word with
  | paper => exact hexpr.wrap fun e ts he => .paper hk he
  | pen => exact hexpr.wrap fun e ts he => .pen hk he
  | line =>
    refine hexpr.bind fun x₁ as ha => ?_
    refine hexpr.bind fun y₁ bs hb => ?_
    refine hexpr.bind fun x₂ cs hc => ?_
    exact hexpr.wrap fun y₂ ds hd => .line hk ha hb hc hd
  | set => exact setting_sound hexpr hk
  | loop =>
    refine (Sound.expect _).bind ?_
    rintro n _ ⟨rfl, hn⟩
    refine hexpr.bind fun a as ha => ?_
    refine hexpr.bind fun b bs hb => ?_
    refine hbody.wrap fun ss ts hss => ?_
    show Derives _ (k :: n :: (as ++ (bs ++ ts)))
    exact .loop hk hn ha hb hss
  | command => exact definition_sound hbody hk
  | number => exact definition_sound hbody hk
  | value => exact hexpr.wrap fun e ts he => .value hk he
  | load =>
    refine (Sound.expect _).wrap ?_
    rintro p _ ⟨rfl, hp⟩
    exact .load hk hp
  | test r =>
    refine hexpr.bind fun a as ha => ?_
    refine hexpr.bind fun b bs hb => ?_
    exact hbody.wrap fun ss ts hss => .test hk ha hb hss

theorem stmtAt_sound (n : Nat) : Sound (stmtAt n) fun s => Derives (.stmt s) := by
  induction n with
  | zero => exact .refuse
  | succ n ih =>
    refine .peek fun k => ?_
    split
    · refine (Sound.expect _).bind ?_
      rintro k _ ⟨rfl, hk⟩
      exact afterKeyword_sound (exprAt_sound n) (block_sound ih n) hk
    · exact (block_sound ih n).wrap fun ss ts hss => .nested hss
    · refine (Sound.expect _).bind ?_
      rintro f _ ⟨rfl, hf⟩
      exact (arguments_sound (exprAt_sound n) n).wrap fun es ts hes => .commandCall hf hes
    · exact .refuse

/-! ## Programs -/

/-- Statements read to the end of a text stop in front of a token that ends it. -/
theorem nextKind_of_statements {stmt : Reader Stmt} {close : Kind} {n : Nat}
    {ts rest : List Token} {ss : List Stmt} (h : statements stmt close n ts = .ok (ss, rest)) :
    nextKind rest = close := by
  induction n generalizing ts ss with
  | zero => cases h
  | succ n ih =>
    obtain ⟨_, us, -, h⟩ := bind_ok_iff.1 h
    rw [peek_bind] at h
    by_cases hk : nextKind us = close
    · rw [if_pos hk] at h
      obtain ⟨-, rfl⟩ := pure_ok_iff.1 h
      exact hk
    · rw [if_neg hk] at h
      obtain ⟨s, vs, -, h⟩ := bind_ok_iff.1 h
      rw [peek_bind] at h
      by_cases hk' : nextKind vs = close
      · rw [if_pos hk'] at h
        obtain ⟨-, rfl⟩ := pure_ok_iff.1 h
        exact hk'
      · rw [if_neg hk'] at h
        obtain ⟨sep, ws, -, h⟩ := bind_ok_iff.1 h
        obtain ⟨ss', xs, hss, h⟩ := bind_ok_iff.1 h
        obtain ⟨-, rfl⟩ := pure_ok_iff.1 h
        exact ih hss

/-- A list of tokens is accepted if its statements can be read. -/
theorem ofTokens?_ok_iff {tokens : List Token} {p : Program} :
    Program.ofTokens? tokens = .ok p ↔ ∃ rest, statements (stmtAt (tokens.length + 1)) .finish
      (tokens.length + 1) tokens = .ok (p, rest) := by
  simp only [Program.ofTokens?]
  cases statements (stmtAt (tokens.length + 1)) .finish (tokens.length + 1) tokens with
  | error e => simp [Except.map]
  | ok r => simp [Except.map, Prod.ext_iff]

/-- An accepted list of tokens that ends in its only `finish` is a program, and the tree is the one
that the rules give it. -/
theorem isProgram_of_ofTokens? {body : List Token} {eof : Token} {p : Program}
    (heof : eof.kind = .finish) (hbody : ∀ t ∈ body, t.kind ≠ .finish)
    (h : Program.ofTokens? (body ++ [eof]) = .ok p) : IsProgram p (body ++ [eof]) := by
  obtain ⟨rest, hr⟩ := ofTokens?_ok_iff.1 h
  obtain ⟨used, hts, hd⟩ := statements_sound (stmtAt_sound _) .finish _ hr
  have hused := kind_ne_finish_of_mem hd
  -- only the last token can end the text, so nothing but that token is left
  rcases List.append_eq_append_iff.1 hts with ⟨as, rfl, has⟩ | ⟨bs, rfl, hbs⟩
  · cases as with
    | nil => exact .intro (by simpa using hd) heof
    | cons a as =>
      obtain ⟨rfl, -⟩ := List.cons.inj has
      exact absurd heof (hused eof (by simp))
  · cases bs with
    | nil => exact .intro (by simpa using hd) heof
    | cons b bs =>
      have hb : nextKind rest = .finish := nextKind_of_statements hr
      rw [hbs] at hb
      exact absurd hb (hbody b (by simp))

end DrawLang.Grammar
