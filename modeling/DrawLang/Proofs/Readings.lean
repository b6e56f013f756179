import DrawLang.Proofs.Canonical
import DrawLang.Proofs.Unwinding

/-!
# Expressions without calls

An expression without calls whose names all stand for numbers reads as a number that depends on the
bindings only, and reading it has no effect. A body that is made of tests between such expressions
and of values comes to one of these values. Neither depends on places, so that what is said of a
tree made by hand goes for what has been parsed.

* `ReadsAs`: the number of an expression without calls; `ReadsAs.eval`.
* `Decides`: the result of a body of tests and values; `Decides.execAll`.
* `ReadsAs.of_outline`, `Decides.of_outline`: places make no difference.
-/

namespace DrawLang

/-! ## Trees with a given outline -/

section Outlines

variable {s : Stmt} {ss ts : List Stmt} {t : Stmt} {e l r x₁ y₁ x₂ y₂ : Expr}

theorem outlineAll_eq_nil (h : Stmt.outlineAll ss = []) : ss = [] := by
  cases ss with
  | nil => rfl
  | cons s ss => cases h

theorem outlineAll_eq_cons (h : Stmt.outlineAll ss = t :: ts) :
    ∃ s rest, ss = s :: rest ∧ s.outline = t ∧ Stmt.outlineAll rest = ts := by
  cases ss with
  | nil => cases h
  | cons s ss =>
    obtain ⟨hs, hss⟩ := List.cons.inj h
    exact ⟨s, ss, rfl, hs, hss⟩

theorem outline_eq_line (h : s.outline = .line x₁ y₁ x₂ y₂) :
    ∃ u₁ v₁ u₂ v₂, s = .line u₁ v₁ u₂ v₂ ∧ u₁.outline = x₁ ∧ v₁.outline = y₁ ∧
      u₂.outline = x₂ ∧ v₂.outline = y₂ := by
  cases s <;> cases h
  exact ⟨_, _, _, _, rfl, rfl, rfl, rfl, rfl⟩

theorem outline_eq_assign {name : String} (h : s.outline = .assign name e) :
    ∃ e', s = .assign name e' ∧ e'.outline = e := by
  cases s <;> cases h
  exact ⟨_, rfl, rfl⟩

theorem outline_eq_value (h : s.outline = .value e) : ∃ e', s = .value e' ∧ e'.outline = e := by
  cases s <;> cases h
  exact ⟨_, rfl, rfl⟩

theorem outline_eq_test {relation : Relation} (h : s.outline = .test relation l r ts) :
    ∃ l' r' body, s = .test relation l' r' body ∧ l'.outline = l ∧ r'.outline = r ∧
      Stmt.outlineAll body = ts := by
  cases s <;> cases h
  exact ⟨_, _, _, rfl, rfl, rfl, rfl⟩

theorem outline_eq_loop {name : String} (h : s.outline = .loop name l r ts) :
    ∃ l' r' body, s = .loop name l' r' body ∧ l'.outline = l ∧ r'.outline = r ∧
      Stmt.outlineAll body = ts := by
  cases s <;> cases h
  exact ⟨_, _, _, rfl, rfl, rfl, rfl⟩

end Outlines

/-! ## Expressions -/

/-- Whether an expression without calls reads as a number under some bindings. -/
inductive ReadsAs (s : Scope) : Expr → Int64 → Prop where
  | literal (digits : String) : ReadsAs s (.literal digits) (literalValue digits)
  | name {word v} : s.get? word.text = some (.value v) → ReadsAs s (.name word) v
  | binary {op l r place a b v} : ReadsAs s l a → ReadsAs s r b → op.apply a b = some v →
      ReadsAs s (.binary op l r place) v

section ReadsAs

variable {s : Scope} {e : Expr} {v : Int64} {run : BodyRunner} {m : Machine}

theorem readName_of_get? {word : Word} (h : m.scope.get? word.text = some (.value v)) :
    readName word m = some (v, m) := by
  have hget : (get : Exec Machine) m = some (m, m) := rfl
  rw [readName, bind_of_eq_some hget, h]
  rfl

theorem operate_of_apply {op : Operator} {a b : Int64} (h : op.apply a b = some v)
    (place : Position) : operate op a b place m = some (v, m) := by
  rw [operate, h]
  rfl

/-- Reading an expression gives its number and has no effect. -/
theorem ReadsAs.eval (h : ReadsAs s e v) (hs : m.scope = s) : e.eval run m = some (v, m) := by
  subst hs
  induction h with
  | literal digits => rfl
  | name hget => exact readName_of_get? hget
  | binary _ _ hop ihl ihr =>
    rw [Expr.eval, bind_of_eq_some ihl, bind_of_eq_some ihr]
    exact operate_of_apply hop _

theorem ReadsAs.outline (h : ReadsAs s e v) : ReadsAs s e.outline v := by
  induction h with
  | literal digits => exact .literal digits
  | name hget => exact .name hget
  | binary _ _ hop ihl ihr => exact .binary ihl ihr hop

theorem ReadsAs.of_outline (h : ReadsAs s e.outline v) : ReadsAs s e v := by
  generalize he : e.outline = e' at h
  induction h generalizing e with
  | literal digits =>
    cases e <;> cases he
    exact .literal _
  | name hget =>
    cases e <;> cases he
    exact .name hget
  | binary _ _ hop ihl ihr =>
    cases e <;> cases he
    exact .binary (ihl rfl) (ihr rfl) hop

/-- Expressions with one outline read as one number. -/
theorem ReadsAs.congr {e' : Expr} (h : ReadsAs s e v) (he : e'.outline = e.outline) :
    ReadsAs s e' v :=
  .of_outline (he ▸ h.outline)

end ReadsAs

/-! ## Bodies that come to a value -/

inductive Decides (s : Scope) : List Stmt → Int64 → Prop where
  | value {e v rest} : ReadsAs s e v → Decides s (.value e :: rest) v
  | taken {relation l r a b body rest v} : ReadsAs s l a → ReadsAs s r b →
      relation.holds a b = true → Decides s body v → Decides s (.test relation l r body :: rest) v
  | passed {relation l r a b body rest v} : ReadsAs s l a → ReadsAs s r b →
      relation.holds a b = false → Decides s rest v → Decides s (.test relation l r body :: rest) v

section Decides

variable {s : Scope} {ss : List Stmt} {v : Int64} {opener : Opener} {run : BodyRunner}
  {m m' : Machine}

/-- Nothing is run behind a statement that has left a result pending. -/
theorem execAll_of_pending {t : Stmt} (h : t.exec opener run m = some ((), m'))
    (hpending : m'.pending.isSome = true) :
    Stmt.execAll opener run (t :: ss) m = some ((), m') := by
  rw [execAll_cons, h, Option.bind_some]
  exact if_pos hpending

/-- A statement that leaves no result pending is followed by the next one. -/
theorem execAll_of_none {t : Stmt} (h : t.exec opener run m = some ((), m'))
    (hnone : m'.pending = none) :
    Stmt.execAll opener run (t :: ss) m = Stmt.execAll opener run ss m' := by
  rw [execAll_cons, h, Option.bind_some]
  exact if_neg (by rw [hnone]; exact Bool.false_ne_true)

theorem exec_test {relation : Relation} {l r : Expr} {a b : Int64} (hl : l.eval run m = some (a, m))
    (hr : r.eval run m = some (b, m)) (body : List Stmt) :
    (Stmt.test relation l r body).exec opener run m =
      if relation.holds a b then Stmt.execAll opener run body m else some ((), m) := by
  rw [Stmt.exec, bind_of_eq_some hl, bind_of_eq_some hr]
  split <;> rfl

/-- Inside a number, such a body leaves its result pending and has no other effect. -/
theorem Decides.execAll (h : Decides s ss v) (hs : m.scope = s) (hnone : m.pending = none)
    (hnumber : m.inNumber = true) :
    Stmt.execAll opener run ss m = some ((), { m with pending := some v }) := by
  induction h with
  | @value e v rest he =>
    have hvalue : (Stmt.value e).exec opener run m = some ((), { m with pending := some v }) := by
      show (if m.inNumber = true then _ else _ : Exec Unit) m = _
      rw [if_pos hnumber, bind_of_eq_some (he.eval hs)]
      rfl
    exact execAll_of_pending hvalue rfl
  | taken hl hr hholds _ ih =>
    apply execAll_of_pending _ rfl
    rw [exec_test (hl.eval hs) (hr.eval hs), if_pos hholds]
    exact ih
  | passed hl hr hholds _ ih =>
    rw [execAll_of_none _ hnone]
    · exact ih
    · rw [exec_test (hl.eval hs) (hr.eval hs), hholds]
      rfl

theorem Decides.of_outline (h : Decides s (Stmt.outlineAll ss) v) : Decides s ss v := by
  generalize hss : Stmt.outlineAll ss = ts at h
  induction h generalizing ss with
  | value he =>
    obtain ⟨t, rest, rfl, ht, -⟩ := outlineAll_eq_cons hss
    obtain ⟨e, rfl, rfl⟩ := outline_eq_value ht
    exact .value he.of_outline
  | taken hl hr hholds _ ih =>
    obtain ⟨t, rest, rfl, ht, -⟩ := outlineAll_eq_cons hss
    obtain ⟨l, r, body, rfl, rfl, rfl, hbody⟩ := outline_eq_test ht
    exact .taken hl.of_outline hr.of_outline hholds (ih hbody)
  | passed hl hr hholds _ ih =>
    obtain ⟨t, rest, rfl, ht, hrest⟩ := outlineAll_eq_cons hss
    obtain ⟨l, r, body, rfl, rfl, rfl, -⟩ := outline_eq_test ht
    exact .passed hl.of_outline hr.of_outline hholds (ih hrest)

end Decides

end DrawLang
