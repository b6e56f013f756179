import DrawLang.Proofs.Grammar.Completeness

/-!
# What a reader has taken can be completed

A reader that fails has taken nothing that no program could begin with: behind the tokens that it
took, others can be put so that all of them spell its phrase. This holds at every level of nesting
and after any number of rounds, since a reader that has run out of either stops in front of a token
that might have been of use to it.

* `Completable`: what is claimed of a reader, with one lemma for each way to build readers.
* `exprAt_completable`, `stmtAt_completable`: the readers of expressions and statements.
-/

namespace DrawLang.Grammar

open Reader

def sample (kind : Kind) : Token := ⟨kind, "", .start "", .start ""⟩

/-- Something spells what a reader reads, and what it has taken where it fails is the front of
something that does. -/
structure Completable {α : Type} (r : Reader α) (Spells : α → List Token → Prop) : Prop where
  inhabited : ∃ a us, Spells a us
  of_error : ∀ {ts rest}, r ts = .error rest →
    ∃ used more a, ts = used ++ rest ∧ Spells a (used ++ more)

namespace Completable

variable {α β : Type} {P : α → List Token → Prop} {Q : β → List Token → Prop}

theorem refuse {a : α} {us : List Token} (h : P a us) : Completable Reader.refuse P where
  inhabited := ⟨a, us, h⟩
  of_error := by
    intro ts rest hts
    cases hts
    exact ⟨[], us, a, rfl, h⟩

theorem pure {a : α} (h : P a []) : Completable (Pure.pure a) P where
  inhabited := ⟨a, [], h⟩
  of_error := by
    intro ts rest hts
    cases hts

theorem peek {f : Kind → Reader α} (h : ∀ k, Completable (f k) P) :
    Completable (Reader.peek >>= f) P where
  inhabited := (h .finish).inhabited
  of_error := fun {ts _} hf => (h (nextKind ts)).of_error hf

theorem expect (kind : Kind) :
    Completable (Reader.expect kind) fun t us => us = [t] ∧ t.kind = kind := by
  refine ⟨⟨sample kind, [sample kind], rfl, rfl⟩,
    fun {ts rest} hts => ⟨[], [sample kind], sample kind, ?_, rfl, rfl⟩⟩
  cases ts with
  | nil =>
    cases hts
    rfl
  | cons t ts =>
    simp only [Reader.expect] at hts
    split at hts
    · cases hts
    · cases hts
      rfl

theorem bind {r : Reader α} {f : α → Reader β} (hs : Sound r P) (hr : Completable r P)
    (hf : ∀ a us, P a us → Completable (f a) fun b vs => Q b (us ++ vs)) :
    Completable (r >>= f) Q where
  inhabited := by
    obtain ⟨a, us, ha⟩ := hr.inhabited
    obtain ⟨b, vs, hb⟩ := (hf a us ha).inhabited
    exact ⟨b, us ++ vs, hb⟩
  of_error := by
    intro ts rest h
    cases hts : r ts with
    | error us =>
      simp only [Bind.bind, StateT.bind, Except.bind, hts] at h
      cases h
      obtain ⟨used, more, a, rfl, ha⟩ := hr.of_error hts
      -- what is left of the first part is followed by any second part
      obtain ⟨b, vs, hb⟩ := (hf a _ ha).inhabited
      exact ⟨used, more ++ vs, b, rfl, by rwa [List.append_assoc] at hb⟩
    | ok p =>
      obtain ⟨a, mid⟩ := p
      rw [bind_of_ok hts] at h
      obtain ⟨us, rfl, ha⟩ := hs hts
      obtain ⟨used, more, b, rfl, hb⟩ := (hf a us ha).of_error h
      exact ⟨us ++ used, more, b, by rw [List.append_assoc], by rwa [List.append_assoc]⟩

/-- A reader whose last step only wraps up what has been read. -/
theorem wrap {r : Reader α} {f : α → β} (hs : Sound r P) (hr : Completable r P)
    (hf : ∀ a us, P a us → Q (f a) us) : Completable (r >>= fun a => Pure.pure (f a)) Q := by
  refine hr.bind hs fun a us ha => .pure ?_
  rw [List.append_nil]
  exact hf a us ha

/-- A reader that begins with a token of a kind. -/
theorem after_expect {kind : Kind} {f : Token → Reader β}
    (hf : ∀ t, t.kind = kind → Completable (f t) fun b vs => Q b (t :: vs)) :
    Completable (Reader.expect kind >>= f) Q := by
  refine (expect kind).bind (.expect kind) ?_
  rintro t _ ⟨rfl, ht⟩
  exact hf t ht

theorem skipNewlines : Completable Reader.skipNewlines fun _ us => AllOf .newline us where
  inhabited := ⟨(), [], by simp [AllOf]⟩
  of_error := by
    intro ts rest h
    cases h

theorem names :
    Completable Reader.names fun params us => params = us.map (·.text) ∧ AllOf .name us where
  inhabited := ⟨[], [], rfl, by simp [AllOf]⟩
  of_error := by
    intro ts rest h
    cases h

end Completable

section Readers

variable {expr : Reader Expr} {stmt : Reader Stmt} {body : Reader (List Stmt)}

/-! ## Expressions -/

theorem derives_sample_atom : Derives (.atom (.literal "")) [sample .integer] :=
  Derives.literal (t := sample .integer) rfl

theorem derives_sample_expr : Derives (.expr (.literal "")) [sample .integer] :=
  .summand (.factor derives_sample_atom)

theorem derives_nothing : Derives (.stmts []) [] := .noStmts (List.forall_mem_nil _)

theorem derives_sample_stmt : Derives (.stmt (.block []))
    [sample (.mark .openBrace), sample (.mark .closeBrace)] :=
  .nested (.block rfl derives_nothing rfl)

/-- Where a chain of operators stops, its left operand is already complete. -/
theorem chain_completable {operator : Kind → Option Operator} {operand : Reader Expr}
    (level : Expr → Phrase) {inner : Expr → Phrase}
    (hs : Sound operand fun e => Derives (inner e))
    (hoperand : Completable operand fun e => Derives (inner e))
    (rule : ∀ {l r : Expr} {op : Operator} {sign : Token} {ts us : List Token},
      Derives (level l) ts → operator sign.kind = some op → Derives (inner r) us →
      Derives (level (.binary op l r sign.stop)) (ts ++ sign :: us))
    (n : Nat) {left : Expr} {before : List Token} (hl : Derives (level left) before) :
    Completable (chain operator operand n left) fun e used =>
      Derives (level e) (before ++ used) := by
  have hleft : Derives (level left) (before ++ []) := by rwa [List.append_nil]
  induction n generalizing left before with
  | zero => exact .refuse hleft
  | succ n ih =>
    rw [chain_succ]
    refine .peek fun k => ?_
    split
    · exact .pure hleft
    · rename_i op hop
      refine .after_expect fun sign hsign => ?_
      refine hoperand.bind hs fun r us hr => ?_
      have hb := rule hl (hsign ▸ hop) hr
      have hc := ih hb (by rwa [List.append_nil])
      simpa only [List.append_assoc, List.cons_append, List.nil_append] using hc

theorem arguments_completable (hs : Sound expr fun e => Derives (.expr e))
    (hc : Completable expr fun e => Derives (.expr e)) (n : Nat) :
    Completable (arguments expr n) fun es => Derives (.exprs es) := by
  induction n with
  | zero => exact .refuse .noExprs
  | succ n ih =>
    refine .peek fun k => ?_
    split
    · refine hc.bind hs fun e us he => ?_
      exact ih.wrap (arguments_sound hs n) fun es vs hes => .moreExprs he hes
    · exact .pure .noExprs

theorem atom_completable (hs : Sound expr fun e => Derives (.expr e))
    (hc : Completable expr fun e => Derives (.expr e)) (n : Nat) :
    Completable (atom expr n) fun e => Derives (.atom e) := by
  refine .peek fun k => ?_
  split
  · exact .after_expect fun t ht => .pure (.literal ht)
  · exact .after_expect fun t ht => .pure (.name ht)
  · refine .after_expect fun o ho => ?_
    refine hc.bind hs fun e us he => ?_
    exact .after_expect fun c hclose => .pure (.parens ho he hclose)
  · refine .after_expect fun o ho => ?_
    refine .after_expect fun f hf => ?_
    refine (arguments_completable hs hc n).bind (arguments_sound hs n) fun es us hes => ?_
    exact .after_expect fun c hclose => .pure (.numberCall ho hf hes hclose)
  · exact .refuse derives_sample_atom

theorem term_completable (hs : Sound expr fun e => Derives (.expr e))
    (hc : Completable expr fun e => Derives (.expr e)) (n : Nat) :
    Completable (term expr n) fun e => Derives (.term e) := by
  have hsound := atom_sound hs n
  refine (atom_completable hs hc n).bind hsound fun l us hl => ?_
  refine chain_completable .term hsound (atom_completable hs hc n) ?_ n (.factor hl)
  intro l r op sign ts us hl hop hr
  obtain ⟨htight, hmark⟩ := multiplicative_eq_some hop
  exact .product hl htight hmark hr

theorem exprAt_completable (n : Nat) : Completable (exprAt n) fun e => Derives (.expr e) := by
  induction n with
  | zero => exact .refuse derives_sample_expr
  | succ n ih =>
    have hsound := term_sound (exprAt_sound n) n
    have hterm := term_completable (exprAt_sound n) ih n
    refine hterm.bind hsound fun l us hl => ?_
    refine chain_completable .expr hsound hterm ?_ n (.summand hl)
    intro l r op sign ts us hl hop hr
    obtain ⟨hloose, hmark⟩ := additive_eq_some hop
    exact .sum hl hloose hmark hr

/-! ## Statements -/

theorem coordinates_completable (hs : Sound expr fun e => Derives (.expr e))
    (hc : Completable expr fun e => Derives (.expr e)) :
    Completable (coordinates expr) fun p used => ∃ o c xs ys, o.kind = .mark .openBracket ∧
      Derives (.expr p.1) xs ∧ Derives (.expr p.2) ys ∧ c.kind = .mark .closeBracket ∧
      used = o :: (xs ++ (ys ++ [c])) := by
  refine .after_expect fun o ho => ?_
  refine hc.bind hs fun x xs hx => ?_
  refine hc.bind hs fun y ys hy => ?_
  exact .after_expect fun c hclose => .pure ⟨o, c, xs, ys, ho, hx, hy, hclose, rfl⟩

theorem statements_completable (hs : Sound stmt fun s => Derives (.stmt s))
    (hc : Completable stmt fun s => Derives (.stmt s)) (close : Kind) (n : Nat) :
    Completable (statements stmt close n) fun ss => Derives (.stmts ss) := by
  induction n with
  | zero => exact .refuse derives_nothing
  | succ n ih =>
    refine Completable.skipNewlines.bind .skipNewlines fun _ before hb => ?_
    refine .peek fun k => ?_
    split
    · refine .pure (.noStmts ?_)
      rwa [List.append_nil]
    · refine hc.bind hs fun s ts hstmt => ?_
      refine .peek fun k => ?_
      split
      · exact .pure (.someStmts hb (.oneLine hstmt) (by simp [AllOf]))
      · refine .after_expect fun sep hsep => ?_
        refine ih.wrap (statements_sound hs close n) fun ss us hss => ?_
        exact stmts_cons hb hstmt hsep hss

theorem block_completable (hs : Sound stmt fun s => Derives (.stmt s))
    (hc : Completable stmt fun s => Derives (.stmt s)) (n : Nat) :
    Completable (block stmt n) fun ss => Derives (.block ss) := by
  refine .after_expect fun o ho => ?_
  refine (statements_completable hs hc _ n).bind (statements_sound hs _ n) fun ss ts hss => ?_
  exact .after_expect fun c hclose => .pure (.block ho hss hclose)

theorem setting_completable (hs : Sound expr fun e => Derives (.expr e))
    (hc : Completable expr fun e => Derives (.expr e)) {k : Token} (hk : k.kind = .keyword .set) :
    Completable (setting expr) fun s ts => Derives (.stmt s) (k :: ts) := by
  refine .peek fun k' => ?_
  split
  · refine (coordinates_completable hs hc).bind (coordinates_sound hs) ?_
    rintro ⟨x, y⟩ _ ⟨o, c, xs, ys, ho, hx, hy, hclose, rfl⟩
    refine hc.wrap hs fun e ts he => ?_
    simpa using Derives.setPixel hk ho hx hy hclose he
  · refine .after_expect fun n hn => ?_
    refine .peek fun k' => ?_
    split
    · refine (coordinates_completable hs hc).wrap (coordinates_sound hs) ?_
      rintro ⟨x, y⟩ _ ⟨o, c, xs, ys, ho, hx, hy, hclose, rfl⟩
      exact .readPixel hk hn ho hx hy hclose
    · exact hc.wrap hs fun e ts he => .assign hk hn he

theorem definition_completable (hs : Sound body fun ss => Derives (.block ss))
    (hc : Completable body fun ss => Derives (.block ss)) {role : Role} {k : Token}
    (hk : k.kind = .keyword role.keyword) :
    Completable (definition role body) fun s ts => Derives (.stmt s) (k :: ts) := by
  refine .after_expect fun n hn => ?_
  refine Completable.names.bind .names ?_
  rintro _ ps ⟨rfl, hps⟩
  exact hc.wrap hs fun ss ts hss => .define hk hn hps hss

theorem afterKeyword_completable (hse : Sound expr fun e => Derives (.expr e))
    (hce : Completable expr fun e => Derives (.expr e))
    (hsb : Sound body fun ss => Derives (.block ss))
    (hcb : Completable body fun ss => Derives (.block ss)) {word : Keyword} {k : Token}
    (hk : k.kind = .keyword word) :
    Completable (afterKeyword expr body word) fun s ts => Derives (.stmt s) (k :: ts) := by
  cases word with
  | paper => exact hce.wrap hse fun e ts he => .paper hk he
  | pen => exact hce.wrap hse fun e ts he => .pen hk he
  | line =>
    refine hce.bind hse fun x₁ as ha => ?_
    refine hce.bind hse fun y₁ bs hb => ?_
    refine hce.bind hse fun x₂ cs hc => ?_
    exact hce.wrap hse fun y₂ ds hd => .line hk ha hb hc hd
  | set => exact setting_completable hse hce hk
  | loop =>
    refine .after_expect fun n hn => ?_
    refine hce.bind hse fun a as ha => ?_
    refine hce.bind hse fun b bs hb => ?_
    exact hcb.wrap hsb fun ss ts hss => .loop hk hn ha hb hss
  | command => exact definition_completable hsb hcb hk
  | number => exact definition_completable hsb hcb hk
  | value => exact hce.wrap hse fun e ts he => .value hk he
  | load => exact .after_expect fun p hp => .pure (.load hk hp)
  | test r =>
    refine hce.bind hse fun a as ha => ?_
    refine hce.bind hse fun b bs hb => ?_
    exact hcb.wrap hsb fun ss ts hss => .test hk ha hb hss

theorem stmtAt_completable (n : Nat) : Completable (stmtAt n) fun s => Derives (.stmt s) := by
  induction n with
  | zero => exact .refuse derives_sample_stmt
  | succ n ih =>
    have hbody := block_sound (stmtAt_sound n) n
    have hblock := block_completable (stmtAt_sound n) ih n
    refine .peek fun k => ?_
    split
    · refine .after_expect fun k hk => ?_
      exact afterKeyword_completable (exprAt_sound n) (exprAt_completable n) hbody hblock hk
    · exact hblock.wrap hbody fun ss ts hss => .nested hss
    · refine .after_expect fun f hf => ?_
      refine (arguments_completable (exprAt_sound n) (exprAt_completable n) n).wrap
        (arguments_sound (exprAt_sound n) n) fun es ts hes => ?_
      exact .commandCall hf hes
    · exact .refuse derives_sample_stmt

end Readers

end DrawLang.Grammar
