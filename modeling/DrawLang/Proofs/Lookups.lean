import DrawLang.Proofs.Diagnostics
import DrawLang.Proofs.Inclusion
import DrawLang.Proofs.Preamble

/-!
# Names that are never looked up

A binding makes no difference to a run in which its name is never looked up. Names are looked up
where they stand in an expression and where something is called; so they stand in the text of the
program, or in a text that has been loaded on the way. The standard library only binds names. If
none of them stands in such a text, the library may as well be left out.

* `Agrees`: steps that do the same from two states.
* `Moment.Avoids`, `execAll_agrees`: runs that look up no name from a list.
* `standard_library_invisible`: programs that do not use the standard library.
-/

namespace DrawLang

/-! ## Steps from two states -/

/-- Whether two steps do the same, each from a state of its own: both end, with one result and in
states that are related, or neither ends. -/
def Agrees (R : Machine → Machine → Prop) {α : Type} (x y : Exec α) (m m' : Machine) : Prop :=
  Option.Rel (fun r r' => r.1 = r'.1 ∧ R r.2 r'.2) (x m) (y m')

namespace Agrees

variable {R S : Machine → Machine → Prop} {α β : Type} {m m' : Machine}

theorem pure (a : α) (hm : R m m') : Agrees R (Pure.pure a) (Pure.pure a) m m' :=
  .some ⟨rfl, hm⟩

theorem failure : Agrees R (failure : Exec α) failure m m' := .none

theorem modify {f g : Machine → Machine} (hm : R (f m) (g m')) :
    Agrees R (modify f) (modify g) m m' :=
  .some ⟨rfl, hm⟩

/-- The second steps start where the first ones have ended. -/
theorem bind {x y : Exec α} {f g : α → Exec β} (hx : Agrees R x y m m')
    (hf : ∀ a m₁ m₁', y m' = some (a, m₁') → R m₁ m₁' → Agrees S (f a) (g a) m₁ m₁') :
    Agrees S (x >>= f) (y >>= g) m m' := by
  show Option.Rel _ ((x m).bind _) ((y m').bind _)
  unfold Agrees at hx
  cases hm₁ : x m <;> cases hm₁' : y m' <;> rw [hm₁, hm₁'] at hx <;> cases hx
  · exact .none
  · rename_i r r' hr
    obtain ⟨a, m₁⟩ := r
    obtain ⟨b, m₁'⟩ := r'
    obtain ⟨rfl, hR⟩ := hr
    exact hf a m₁ m₁' hm₁' hR

theorem get {f g : Machine → Exec β} (h : Agrees R (f m) (g m') m m') :
    Agrees R (MonadState.get >>= f) (MonadState.get >>= g) m m' := h

end Agrees

/-! ## States beside each other -/

namespace Beside

variable {names : List String} {m m' : Machine}

theorem report (hm : Beside names m m') (f : Fault) :
    Agrees (Beside names) (report f) (report f) m m' :=
  .modify { hm with faults := congrArg (·.push f) hm.faults }

theorem tell (hm : Beside names m m') (event : Event) :
    Agrees (Beside names) (tell event) (tell event) m m' :=
  .modify { hm with }

theorem bindName (hm : Beside names m m') (name : String) (b : Binding) :
    Agrees (Beside names) (bindName name b) (bindName name b) m m' :=
  .modify { hm with scope := hm.scope.set name b }

theorem draw (hm : Beside names m m') (change : Canvas → Rgba → Canvas) :
    Agrees (Beside names) (draw change) (draw change) m m' := by
  have hchanged : change m.canvas m.pen = change m'.canvas m'.pen := by rw [hm.canvas, hm.pen]
  refine .bind (R := Beside names) (.modify { hm with canvas := hchanged }) fun _ m₁ m₁' _ hm₁ => ?_
  exact .modify { hm₁ with recorder := by rw [hm₁.recorder, hm₁.canvas] }

theorem point (hm : Beside names m m') (x y : Int64) : m.point x y = m'.point x y := by
  rw [Machine.point, Machine.flip, hm.canvas]
  rfl

theorem takePending (hm : Beside names m m') :
    Agrees (Beside names) takePending takePending m m' := by
  refine .get ?_
  rw [hm.pending]
  exact .bind (R := Beside names) (.modify { hm with pending := rfl }) fun _ _ _ _ hm₁ =>
    .pure _ hm₁

theorem operate (hm : Beside names m m') (op : Operator) (a b : Int64) (place : Position) :
    Agrees (Beside names) (operate op a b place) (operate op a b place) m m' := by
  unfold DrawLang.operate
  split
  · exact .pure _ hm
  · exact .bind (hm.report _) fun _ _ _ _ hm₁ => .pure _ hm₁

theorem readName (hm : Beside names m m') {word : Word} (hword : word.text ∉ names) :
    Agrees (Beside names) (readName word) (readName word) m m' := by
  refine .get ?_
  rw [hm.scope.get? hword]
  split
  · exact .pure _ hm
  · exact .bind (hm.report _) fun _ _ _ _ hm₁ => .pure _ hm₁

theorem findDefinition {β : Type} (hm : Beside names m m') {role : Role} {name : String}
    (hname : name ∉ names) {f : Option Definition → Exec β}
    (hnone : Agrees (Beside names) (f none) (f none) m m')
    (hsome : ∀ d, findDefinition role name m' = some (some d, m') →
      Agrees (Beside names) (f (some d)) (f (some d)) m m') :
    Agrees (Beside names) (findDefinition role name >>= f) (findDefinition role name >>= f)
      m m' := by
  show Agrees _ (f ((m.scope.get? name).bind (Binding.definition? role)))
    (f ((m'.scope.get? name).bind (Binding.definition? role))) m m'
  rw [hm.scope.get? hname]
  cases hd : (m'.scope.get? name).bind (Binding.definition? role) with
  | none => exact hnone
  | some d => exact hsome d (congrArg (fun d => some (d, m')) hd)

theorem enter (hm : Beside names m m') (role : Role) (params : List String)
    (values : List Int64) :
    Beside names (m.enter role params values) (m'.enter role params values) :=
  { hm with scope := hm.scope.push.setAll params values, inNumber := rfl }

theorem inFrame (hm : Beside names m m') {role : Role} {params : List String}
    {values : List Int64} {body : Exec Unit} (hbody : Agrees (Beside names) body body
      (m.enter role params values) (m'.enter role params values)) :
    Agrees (Beside names) (inFrame (role == .number) params values body)
      (inFrame (role == .number) params values body) m m' := by
  let leave (outer : Bool) : Exec Unit :=
    modify fun m => { m with inNumber := outer, scope := m.scope.pop }
  show Agrees _ (body >>= fun _ => leave m.inNumber) (body >>= fun _ => leave m'.inNumber)
    (m.enter role params values) (m'.enter role params values)
  rw [hm.inNumber]
  exact .bind hbody fun _ m₁ m₁' _ hm₁ =>
    .modify { hm₁ with inNumber := rfl, scope := hm₁.scope.pop }

theorem unlessPending (hm : Beside names m m') {x : Exec Unit}
    (hx : m'.pending = none → Agrees (Beside names) x x m m') :
    Agrees (Beside names) (do if ← isPending then return () else x)
      (do if ← isPending then return () else x) m m' := by
  show Agrees _ (if m.pending.isSome = true then Pure.pure () else x)
    (if m'.pending.isSome = true then Pure.pure () else x) m m'
  rw [hm.pending]
  split
  · exact .pure _ hm
  · rename_i hnone
    exact hx (by simpa using hnone)

end Beside

/-! ## Runs that look up no name from a list -/

/-- Whether what starts at a moment does not begin by looking up one of some names. -/
def Moment.Avoids (names : List String) (M : Moment) : Prop :=
  match M.activity with
  | .expr (.name word) | .expr (.call word _) | .stmt (.call word _) => word.text ∉ names
  | _ => True

section Trees

variable {opener : Opener} {names : List String} {M₀ : Moment}

/-- Whether statements that start at some depth after a moment do the same from all states beside
each other. -/
def BodiesAgree (opener : Opener) (names : List String) (M₀ : Moment) (n : Nat) : Prop :=
  ∀ ⦃cs body m m'⦄, LeadsTo opener M₀ ⟨n, cs, .stmts body, m'⟩ → Beside names m m' →
    Agrees (Beside names) (Stmt.execAll opener (execAt opener n) body)
      (Stmt.execAll opener (execAt opener n) body) m m'

variable {n : Nat} {cs : List Role} {m m' : Machine}

/-- The body of a call goes one level down. -/
theorem call_agrees (hn : ∀ k, n = k + 1 → BodiesAgree opener names M₀ k) (role : Role)
    {word : Word} {args : List Expr} {d : Definition} {values : List Int64} {m₁ m₁' : Machine}
    (hM : LeadsTo opener M₀ ⟨n, cs, .call role word args, m'⟩)
    (hd : findDefinition role word.text m' = some (some d, m'))
    (hvalues : Expr.evalAll (execAt opener n) args m' = some (values, m₁'))
    (hm₁ : Beside names m₁ m₁') :
    Agrees (Beside names) (inFrame (role == .number) d.params values (execAt opener n d.body))
      (inFrame (role == .number) d.params values (execAt opener n d.body)) m₁ m₁' := by
  refine hm₁.inFrame ?_
  cases n with
  | zero => exact .failure
  | succ k => exact hn k rfl (hM.tail (.body role hd hvalues)) (hm₁.enter role d.params values)

mutual

theorem expr_agrees (havoids : ∀ N, LeadsTo opener M₀ N → N.Avoids names)
    (hn : ∀ k, n = k + 1 → BodiesAgree opener names M₀ k) :
    ∀ (e : Expr) {m m' : Machine}, LeadsTo opener M₀ ⟨n, cs, .expr e, m'⟩ → Beside names m m' →
      Agrees (Beside names) (e.eval (execAt opener n)) (e.eval (execAt opener n)) m m'
  | .literal _, _, _, _, hm => .pure _ hm
  | .name _, _, _, hM, hm => hm.readName (havoids _ hM)
  | .binary op l r place, m, m', hM, hm => by
    refine .bind (expr_agrees havoids hn l (hM.tail .left) hm) fun a m₁ m₁' ha hm₁ => ?_
    refine .bind (expr_agrees havoids hn r (hM.tail (.right ha)) hm₁) fun b m₂ m₂' _ hm₂ => ?_
    exact hm₂.operate op a b place
  | .call word args, m, m', hM, hm => by
    refine hm.findDefinition (havoids _ hM) ?_ fun d hd => ?_
    · exact .bind (hm.report _) fun _ _ _ _ hm₁ => .pure _ hm₁
    · refine .bind (exprs_agrees havoids hn args (hM.tail (.args .number hd)) hm)
        fun values m₁ m₁' hvalues hm₁ => ?_
      refine .bind (call_agrees hn .number hM hd hvalues hm₁) fun _ m₂ m₂' _ hm₂ => ?_
      exact hm₂.takePending

theorem exprs_agrees (havoids : ∀ N, LeadsTo opener M₀ N → N.Avoids names)
    (hn : ∀ k, n = k + 1 → BodiesAgree opener names M₀ k) :
    ∀ (es : List Expr) {m m' : Machine}, LeadsTo opener M₀ ⟨n, cs, .exprs es, m'⟩ →
      Beside names m m' → Agrees (Beside names) (Expr.evalAll (execAt opener n) es)
        (Expr.evalAll (execAt opener n) es) m m'
  | [], _, _, _, hm => .pure _ hm
  | e :: es, m, m', hM, hm => by
    refine .bind (expr_agrees havoids hn e (hM.tail .firstExpr) hm) fun a m₁ m₁' ha hm₁ => ?_
    refine .bind (exprs_agrees havoids hn es (hM.tail (.moreExprs ha)) hm₁)
      fun _ m₂ m₂' _ hm₂ => ?_
    exact .pure _ hm₂

end

/-- The operands of a statement are evaluated one after the other. -/
theorem operand_agrees (havoids : ∀ N, LeadsTo opener M₀ N → N.Avoids names)
    (hn : ∀ k, n = k + 1 → BodiesAgree opener names M₀ k) {e : Expr} {es : List Expr}
    (hM : LeadsTo opener M₀ ⟨n, cs, .exprs (e :: es), m'⟩) (hm : Beside names m m') {β : Type}
    {f : Int64 → Exec β} (hf : ∀ a m₁ m₁', e.eval (execAt opener n) m' = some (a, m₁') →
      LeadsTo opener M₀ ⟨n, cs, .exprs es, m₁'⟩ → Beside names m₁ m₁' →
      Agrees (Beside names) (f a) (f a) m₁ m₁') :
    Agrees (Beside names) (e.eval (execAt opener n) >>= f) (e.eval (execAt opener n) >>= f) m m' :=
  .bind (expr_agrees havoids hn e (hM.tail .firstExpr) hm) fun a m₁ m₁' ha hm₁ =>
    hf a m₁ m₁' ha (hM.tail (.moreExprs ha)) hm₁

theorem passes_agree (havoids : ∀ N, LeadsTo opener M₀ N → N.Avoids names)
    (hn : ∀ k, n = k + 1 → BodiesAgree opener names M₀ k) {name : String} {last : Expr}
    {body : List Stmt} (hbody : ∀ {m m'}, LeadsTo opener M₀ ⟨n, cs, .stmts body, m'⟩ →
      Beside names m m' → Agrees (Beside names) (Stmt.execAll opener (execAt opener n) body)
        (Stmt.execAll opener (execAt opener n) body) m m')
    (k : Nat) (i : Int64) (hM : LeadsTo opener M₀ ⟨n, cs, .passes name last body k i, m'⟩)
    (hm : Beside names m m') :
    Agrees (Beside names)
      (repeatFrom (last.eval (execAt opener n)) (passOnce opener (execAt opener n) name body) k i)
      (repeatFrom (last.eval (execAt opener n)) (passOnce opener (execAt opener n) name body) k i)
      m m' := by
  have hpass {m'} (k : Nat) (i b : Int64) {m₁ m₁' : Machine}
      (hM : LeadsTo opener M₀ ⟨n, cs, .passes name last body k i, m'⟩)
      (hb : last.eval (execAt opener n) m' = some (b, m₁')) (hi : i ≤ b)
      (hm₁ : Beside names m₁ m₁') :
      Agrees (Beside names) (passOnce opener (execAt opener n) name body i)
        (passOnce opener (execAt opener n) name body i) m₁ m₁' :=
    .bind (hm₁.bindName name (.value i)) fun _ _ _ hbind hm₂ =>
      hbody (hM.tail (.pass hb hi hbind)) hm₂
  induction k generalizing m m' i with
  | zero =>
    unfold repeatFrom
    refine .bind (expr_agrees havoids hn last (hM.tail .bound) hm) fun b m₁ m₁' hb hm₁ => ?_
    split
    · rename_i hi
      refine .bind (hpass 0 i b hM hb hi hm₁) fun _ m₂ m₂' _ hm₂ => ?_
      exact hm₂.unlessPending fun _ => .pure _ hm₂
    · exact .pure _ hm₁
  | succ k ih =>
    unfold repeatFrom
    refine .bind (expr_agrees havoids hn last (hM.tail .bound) hm) fun b m₁ m₁' hb hm₁ => ?_
    split
    · rename_i hi
      refine .bind (hpass (k + 1) i b hM hb hi hm₁) fun _ m₂ m₂' hpassed hm₂ => ?_
      exact hm₂.unlessPending fun hnone =>
        ih (i + 1) (hM.tail (.nextPass hb hi hpassed hnone)) hm₂
    · exact .pure _ hm₁

theorem load_agrees (hn : ∀ k, n = k + 1 → BodiesAgree opener names M₀ k) {path : Word}
    (hM : LeadsTo opener M₀ ⟨n, cs, .stmt (.load path), m'⟩) (hm : Beside names m m') :
    Agrees (Beside names) (loadSource opener (execAt opener n) path)
      (loadSource opener (execAt opener n) path) m m' := by
  unfold loadSource
  split
  · exact hm.report _
  · exact hm.report _
  · rename_i bytes hopener
    cases hparse : parse? path.text (Text.decode bytes) with
    | error place => exact hm.report _
    | ok program =>
      refine .bind (hm.tell _) fun _ m₁ m₁' htell hm₁ => ?_
      cases n with
      | zero => exact .failure
      | succ k => exact hn k rfl (hM.tail (.load hopener hparse htell)) hm₁

mutual

theorem stmt_agrees (havoids : ∀ N, LeadsTo opener M₀ N → N.Avoids names)
    (hn : ∀ k, n = k + 1 → BodiesAgree opener names M₀ k) :
    ∀ (s : Stmt) {m m' : Machine}, LeadsTo opener M₀ ⟨n, cs, .stmt s, m'⟩ → Beside names m m' →
      Agrees (Beside names) (s.exec opener (execAt opener n)) (s.exec opener (execAt opener n)) m m'
  | .paper ink, m, m', hM, hm => by
    refine operand_agrees havoids hn (hM.tail .operands) hm fun _ m₁ m₁' _ _ hm₁ => ?_
    exact hm₁.draw _
  | .pen ink, m, m', hM, hm => by
    refine operand_agrees havoids hn (hM.tail .operands) hm fun _ m₁ m₁' _ _ hm₁ => ?_
    exact .modify { hm₁ with pen := rfl }
  | .line x₁ y₁ x₂ y₂, m, m', hM, hm => by
    refine operand_agrees havoids hn (hM.tail .operands) hm fun _ m₁ m₁' _ h₁ hm₁ => ?_
    refine operand_agrees havoids hn h₁ hm₁ fun _ m₂ m₂' _ h₂ hm₂ => ?_
    refine operand_agrees havoids hn h₂ hm₂ fun _ m₃ m₃' _ h₃ hm₃ => ?_
    refine operand_agrees havoids hn h₃ hm₃ fun _ m₄ m₄' _ _ hm₄ => ?_
    refine .get ?_
    rw [hm₄.point, hm₄.point]
    exact hm₄.draw _
  | .assign name result, m, m', hM, hm => by
    refine operand_agrees havoids hn (hM.tail .operands) hm fun _ m₁ m₁' _ _ hm₁ => ?_
    exact hm₁.bindName name _
  | .setPixel x y ink, m, m', hM, hm => by
    refine operand_agrees havoids hn (hM.tail .operands) hm fun _ m₁ m₁' _ h₁ hm₁ => ?_
    refine operand_agrees havoids hn h₁ hm₁ fun _ m₂ m₂' _ h₂ hm₂ => ?_
    refine operand_agrees havoids hn h₂ hm₂ fun _ m₃ m₃' _ _ hm₃ => ?_
    refine .get ?_
    rw [hm₃.point]
    exact hm₃.draw _
  | .readPixel name x y, m, m', hM, hm => by
    refine operand_agrees havoids hn (hM.tail .operands) hm fun _ m₁ m₁' _ h₁ hm₁ => ?_
    refine operand_agrees havoids hn h₁ hm₁ fun _ m₂ m₂' _ _ hm₂ => ?_
    refine .get ?_
    rw [hm₂.point, hm₂.canvas]
    exact hm₂.bindName name _
  | .block body, m, m', hM, hm => stmts_agree havoids hn body (hM.tail .block) hm
  | .loop name first last body, m, m', hM, hm => by
    refine operand_agrees havoids hn (hM.tail .operands) hm fun i m₁ m₁' hi _ hm₁ => ?_
    exact passes_agree havoids hn (fun hM hm => stmts_agree havoids hn body hM hm) _ i
      (hM.tail (.loop hi)) hm₁
  | .test relation left right body, m, m', hM, hm => by
    refine operand_agrees havoids hn (hM.tail .operands) hm fun a m₁ m₁' ha h₁ hm₁ => ?_
    refine operand_agrees havoids hn h₁ hm₁ fun b m₂ m₂' hb _ hm₂ => ?_
    split
    · rename_i hholds
      exact stmts_agree havoids hn body (hM.tail (.test ha hb hholds)) hm₂
    · exact .pure _ hm₂
  | .define role name params body, m, m', _, hm => hm.bindName name _
  | .call word args, m, m', hM, hm => by
    refine hm.findDefinition (havoids _ hM) (hm.report _) fun d hd => ?_
    refine .bind (exprs_agrees havoids hn args (hM.tail (.args .command hd)) hm)
      fun values m₁ m₁' hvalues hm₁ => ?_
    exact call_agrees hn .command hM hd hvalues hm₁
  | .value result, m, m', hM, hm => by
    refine .get ?_
    rw [hm.inNumber]
    split
    · rename_i hnumber
      refine .bind (expr_agrees havoids hn result (hM.tail (.value hnumber)) hm)
        fun _ m₁ m₁' _ hm₁ => ?_
      exact .modify { hm₁ with pending := rfl }
    · exact hm.tell _
  | .load path, m, m', hM, hm => load_agrees hn hM hm

theorem stmts_agree (havoids : ∀ N, LeadsTo opener M₀ N → N.Avoids names)
    (hn : ∀ k, n = k + 1 → BodiesAgree opener names M₀ k) :
    ∀ (ss : List Stmt) {m m' : Machine}, LeadsTo opener M₀ ⟨n, cs, .stmts ss, m'⟩ →
      Beside names m m' → Agrees (Beside names) (Stmt.execAll opener (execAt opener n) ss)
        (Stmt.execAll opener (execAt opener n) ss) m m'
  | [], _, _, _, hm => .pure _ hm
  | s :: ss, m, m', hM, hm => by
    refine .bind (stmt_agrees havoids hn s (hM.tail .firstStmt) hm) fun _ m₁ m₁' hs hm₁ => ?_
    refine hm₁.unlessPending fun hnone => ?_
    exact stmts_agree havoids hn ss (hM.tail (.moreStmts hs hnone)) hm₁

end

/-- At every depth, bodies do the same whatever names are bound to that are not looked up. -/
theorem bodies_agree (havoids : ∀ N, LeadsTo opener M₀ N → N.Avoids names) (n : Nat) :
    BodiesAgree opener names M₀ n := by
  induction n with
  | zero =>
    exact fun _ _ _ _ => stmts_agree havoids (fun k hk => absurd hk k.succ_ne_zero.symm) _
  | succ n ih => exact fun _ _ _ _ => stmts_agree havoids (fun k hk => Nat.succ.inj hk ▸ ih) _

end Trees

/-! ## Texts in which names do not stand -/

/-- The name that stands for nothing where it should. -/
def Fault.missing? : Fault → Option String
  | .unknownName _ name | .unknownCommand _ name | .unknownNumber _ name => some name
  | .misplacedToken _ | .divisionByZero _ | .unavailable _ _ | .unreadable _ _ => none

/-- Whether no token of a text is one of some names. -/
def TextAvoids (names : List String) (file text : String) : Prop :=
  ∀ t ∈ tokenize file text, t.kind = .name → t.text ∉ names

section Texts

variable {opener : Opener} {names : List String} {file text : String}

/-- What is read from a text in which names do not stand cannot find that they stand for nothing. -/
theorem textFaultsIn_of_avoids (h : TextAvoids names file text) :
    TextFaultsIn opener (fun f => ∀ name ∈ f.missing?, name ∉ names) file text := by
  refine textFaultsIn_of_covers (fun _ _ => nofun)
    ⟨fun t ht hk => ?_, fun _ _ _ => nofun, fun _ _ _ _ _ f hf => ?_⟩
  · have havoids : ∀ name ∈ some t.text, name ∉ names := by
      rintro name ⟨⟩
      exact h t ht hk
    exact ⟨havoids, havoids, havoids⟩
  · obtain ⟨reason, rfl⟩ := exists_of_refusal? hf
    exact nofun

theorem Moment.FaultsIn.avoids {M : Moment}
    (h : M.FaultsIn opener fun f => ∀ name ∈ f.missing?, name ∉ names) : M.Avoids names := by
  obtain ⟨n, cs, activity, m⟩ := M
  have hactivity := h.activity
  unfold Moment.Avoids
  split
  · rename_i word hname
    obtain rfl : activity = _ := hname
    exact hactivity _ rfl
  · rename_i word args hcall
    obtain rfl : activity = _ := hcall
    exact hactivity.1 _ rfl
  · rename_i word args hcall
    obtain rfl : activity = _ := hcall
    exact hactivity.1 _ rfl
  · trivial

end Texts

/-! ## Runs with and without a library -/

section Runs

variable {names : List String} {library : Library}

/-- At depth 0 no program ends. -/
theorem program_exec_zero (opener : Opener) (library : Library) (program : Program) (m : Machine) :
    program.exec (execAt opener 0) library m = none := by
  rw [Option.eq_none_iff_forall_ne_some]
  rintro ⟨u, m'⟩ h
  obtain ⟨_, m₁, -, h⟩ := bind_eq_some_iff.1 h
  obtain ⟨_, m₂, -, h⟩ := bind_eq_some_iff.1 h
  cases h

/-- A library of definitions makes no difference to a program that never looks up what they are
the definitions of. -/
theorem program_agrees (hlibrary : library.Defines names) {opener : Opener} {depth : Nat}
    {program : Program} {m : Machine} (hm : m.pending = none)
    (havoids : ∀ N, LeadsTo opener ⟨depth, [], .sources [] program, m⟩ N → N.Avoids names) :
    Agrees (Beside names) (program.exec (execAt opener depth) library)
      (program.exec (execAt opener depth) []) m m := by
  cases depth with
  | zero =>
    unfold Agrees
    rw [program_exec_zero, program_exec_zero]
    exact .none
  | succ n =>
    obtain ⟨m₁, hexec, hm₁⟩ := library_beside hlibrary n (.refl names m) hm
    let rest : Exec Unit := do
      draw fun canvas _ => canvas.fill .white
      execAt opener (n + 1) program
    have hlibraryRun : program.exec (execAt opener (n + 1)) library m = rest m₁ :=
      bind_of_eq_some hexec
    have hrest : Agrees (Beside names) rest rest m₁ m :=
      .bind (hm₁.draw _) fun _ _ _ hdraw hm₂ =>
        bodies_agree havoids n (Relation.ReflTransGen.refl.tail (.program hdraw)) hm₂
    unfold Agrees
    rw [hlibraryRun]
    exact hrest

theorem run?_unused {settings : Settings} {depth : Nat} {name text : String} {program : Program}
    (hlibrary : library.Defines names) (hparse : parse? name text = .ok program)
    (htexts : ∀ file parsed, Parsed { settings with library := [] } depth name text file parsed →
      TextAvoids names file parsed) :
    Option.Rel SameResult (program.run? { settings with library } depth name)
      (program.run? { settings with library := [] } depth name) := by
  let M₀ : Moment := ⟨depth, [], .sources [] program, settings.start name program⟩
  let G (f : Fault) : Prop := ∀ name ∈ f.missing?, name ∉ names
  have hloads : LoadsFaultsIn settings.opener G M₀ := fun N path bytes hN hload hopener =>
    textFaultsIn_of_avoids (htexts _ _ (.loaded hparse hN hload hopener))
  have htext : TextFaultsIn settings.opener G name text :=
    textFaultsIn_of_avoids (htexts _ _ .program)
  have hstart : M₀.FaultsIn settings.opener G := by
    unfold TextFaultsIn at htext
    rw [hparse] at htext
    refine ⟨⟨List.forall_mem_nil _, htext⟩, fun f hf => absurd hf (Array.not_mem_empty f), ?_⟩
    exact List.forall_mem_singleton.2 fun e he => absurd he List.not_mem_nil
  have hagrees := program_agrees hlibrary (m := settings.start name program) rfl fun N hN =>
    ((faultsIn_invariant hloads).leadsTo ⟨.refl, hstart⟩ hN).2.avoids
  refine rel_run?_of_exec Iff.rfl ?_
  change Option.Rel _ (program.exec (execAt settings.opener depth) library
    (settings.start name program)) (program.exec (execAt settings.opener depth) []
    (settings.start name program))
  unfold Agrees at hagrees
  generalize program.exec _ library _ = r at hagrees ⊢
  generalize program.exec _ [] _ = r' at hagrees ⊢
  cases hagrees with
  | none => exact .none
  | @some r r' hr =>
    have hm := hr.2
    exact .some (sameResult_ofMachine rfl hm.canvas hm.recorder hm.faults)

end Runs

/-- **The standard library is invisible to programs that do not use it.** If no token of the text of
a program, and none of a text that its loads reach, is a name that the standard library defines, the
runs with that library and without one come to an end at the same depths, and give the same picture,
the same frames and the same faults. -/
theorem standard_library_invisible (settings : Settings) (depth : Nat) (name text : String)
    (h : ∀ file parsed,
      Parsed { settings with library := Library.none } depth name text file parsed →
        TextAvoids Library.standardNames file parsed) :
    Option.Rel SameResult (runText? { settings with library := Library.standard } depth name text)
      (runText? { settings with library := Library.none } depth name text) := by
  unfold runText?
  cases hparse : parse? name text with
  | error place => exact rel_unexecuted? Iff.rfl ⟨rfl, rfl, rfl⟩
  | ok program => exact run?_unused Library.standard_defines hparse h

/-- A text that draws a line with a command of its own. -/
def strokeText : String := "Command Stroke X \x7b\n Line 0 X 1 X\n\x7d\nStroke 1\nPen Ink"

def strokeBytes : List UInt8 := strokeText.toList.map fun c => UInt8.ofNat c.toNat

/-- A run that can load this text. -/
def strokeSettings : Settings :=
  { length := 2, opener := .ofList [("stroke", .contents strokeBytes)], recording := true }

/-- The text is loaded, and two names are used that the library has for its own parameters. -/
def strokesText : String := "Set X 7\nLoad \"stroke\"\nPaper L"

theorem text_of_strokeSettings {path : String} {bytes : List UInt8}
    (h : strokeSettings.opener path = .contents bytes) : path = "stroke" ∧ bytes = strokeBytes := by
  change (List.lookup path [("stroke", Delivery.contents strokeBytes)]).getD _ = _ at h
  rw [List.lookup_cons] at h
  cases hpath : path == "stroke" with
  | true =>
    rw [hpath] at h
    exact ⟨eq_of_beq hpath, (Delivery.contents.inj h).symm⟩
  | false =>
    rw [hpath] at h
    cases h

theorem strokes_without_library : ∃ o o',
    runText? { strokeSettings with library := Library.standard } 3 "main" strokesText = some o ∧
    runText? { strokeSettings with library := Library.none } 3 "main" strokesText = some o' ∧
    o'.faults = #[.unknownName ⟨"stroke", 5, 8⟩ "Ink", .unknownName ⟨"main", 3, 8⟩ "L"] ∧
    SameResult o o' := by
  have hmain : TextAvoids Library.standardNames "main" strokesText := by
    unfold TextAvoids
    decide +kernel
  have hstroke : TextAvoids Library.standardNames "stroke" (Text.decode strokeBytes) := by
    unfold TextAvoids
    decide +kernel
  have hfaults : (runText? { strokeSettings with library := Library.none } 3 "main"
      strokesText).map (·.faults) =
        some #[.unknownName ⟨"stroke", 5, 8⟩ "Ink", .unknownName ⟨"main", 3, 8⟩ "L"] := by
    decide +kernel
  obtain ⟨o', ho', hlist⟩ := Option.map_eq_some_iff.1 hfaults
  have hrel := standard_library_invisible strokeSettings 3 "main" strokesText
    fun file parsed hparsed => by
      cases hparsed with
      | program => exact hmain
      | library _ hsource => cases hsource
      | loaded _ _ _ hopener =>
        obtain ⟨hpath, rfl⟩ := text_of_strokeSettings hopener
        rw [hpath]
        exact hstroke
  generalize runText? { strokeSettings with library := Library.standard } 3 _ _ = r at hrel ⊢
  generalize runText? { strokeSettings with library := Library.none } 3 _ _ = r' at ho' hrel ⊢
  cases ho'
  cases hrel with
  | @some o _ hsame => exact ⟨o, o', rfl, rfl, hlist, hsame⟩

end DrawLang
