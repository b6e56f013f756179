import DrawLang.Proofs.Unwinding

/-!
# Along the moments of a run

A property of the states of a run often has to be known together with the moment that has been come
to: what is listed there is read off what starts there, and what is drawn there is drawn by it. Such
properties are proved along the moments, once for the parts of the interpreter; for each of them it
remains to be seen what a moment passes on to those that follow, and what the elementary steps do.

* `Stable.leads`, `Stable.endsIn_of_leads`: relations between the states of a run, from its start to
  a moment, and from where the moment ends to its end.
* `Ensures`: what holds wherever a step ends.
* `Moment.DrawsTo`: the moments at which something is drawn.
* `Invariant`: a property of moments with one of states; `Invariant.stmts` and `Invariant.program`
  carry it through statements and through whole programs.
-/

namespace DrawLang

/-! ## Where a moment ends -/

/-- Whether what starts at a moment ends in a state. -/
def Moment.EndsIn (opener : Opener) : Moment → Machine → Prop
  | ⟨n, _, .expr e, m⟩, m' => ∃ a, e.eval (execAt opener n) m = some (a, m')
  | ⟨n, _, .exprs es, m⟩, m' => ∃ as, Expr.evalAll (execAt opener n) es m = some (as, m')
  | ⟨n, _, .stmt s, m⟩, m' => s.exec opener (execAt opener n) m = some ((), m')
  | ⟨n, _, .stmts ss, m⟩, m' => Stmt.execAll opener (execAt opener n) ss m = some ((), m')
  | ⟨n, _, .passes name last ss k i, m⟩, m' =>
    repeatFrom (last.eval (execAt opener n)) (passOnce opener (execAt opener n) name ss) k i m =
      some ((), m')
  | ⟨n, _, .sources library program, m⟩, m' =>
    program.exec (execAt opener n) library m = some ((), m')

/-- The sources of a library are run one by one. -/
theorem library_cons (run : BodyRunner) (source : LibrarySource) (sources : Library) :
    Library.exec run (source :: sources) = (do Library.exec run [source]; sources.exec run) := by
  simp only [Library.exec]
  cases parse? source.name source.text <;> simp only [bind_assoc, pure_bind]

theorem program_cons (run : BodyRunner) (source : LibrarySource) (sources : Library)
    (program : Program) : program.exec run (source :: sources) =
      (do Library.exec run [source]; program.exec run sources) := by
  unfold Program.exec
  rw [library_cons, bind_assoc]

/-- A list of expressions ends if its first one does, and then the others. -/
theorem evalAll_cons_of {run : BodyRunner} {e : Expr} {es : List Expr} {a : Int64}
    {as : List Int64} {m m₁ m₂ : Machine} (he : e.eval run m = some (a, m₁))
    (hes : Expr.evalAll run es m₁ = some (as, m₂)) :
    Expr.evalAll run (e :: es) m = some (a :: as, m₂) := by
  rw [Expr.evalAll, bind_of_eq_some he, bind_of_eq_some hes]
  rfl

theorem evalAll_singleton {run : BodyRunner} {e : Expr} {a : Int64} {m m₁ : Machine}
    (he : e.eval run m = some (a, m₁)) : Expr.evalAll run [e] m = some ([a], m₁) :=
  evalAll_cons_of he rfl

namespace Stable

variable {R : Machine → Machine → Prop} [Stable R] {opener : Opener} {M N : Moment} {m' : Machine}

theorem passOnce {run : BodyRunner} (hrun : ∀ body, Keeps R (run body)) (name : String)
    (body : List Stmt) (i : Int64) : Keeps R (passOnce opener run name body i) :=
  .bind (Stable.bindName name _) fun _ => execAll hrun opener body

/-- The state of a moment is related to those of the moments that follow from it. -/
theorem leads (h : Leads opener M N) : R M.machine N.machine := by
  have hrun := execAt (R := R) opener
  cases h with
  | left | firstExpr | args | operands | block | bound | value | firstStmt | source =>
    exact Chained.refl _
  | right he | moreExprs he | loop he => exact eval (hrun _) _ he
  | body _ _ hvalues =>
    exact Chained.trans (evalAll (hrun _) _ hvalues) (Stable.enter _ _ _ _)
  | pass he _ hbind => exact Chained.trans (eval (hrun _) _ he) (Stable.bindName _ _ hbind)
  | nextPass he _ hpass _ =>
    exact Chained.trans (eval (hrun _) _ he) (passOnce (hrun _) _ _ _ hpass)
  | test hl hr _ => exact Chained.trans (eval (hrun _) _ hl) (eval (hrun _) _ hr)
  | load _ _ htell => exact Stable.tell _ htell
  | moreStmts hs _ => exact exec (hrun _) opener _ hs
  | moreSources hsource => exact library (hrun _) _ hsource
  | program hdraw => exact whitePaper hdraw

/-- A loop that ends has read its bound, and has made its first pass if the bound allows it. -/
theorem exists_of_repeatFrom {bound : Exec Int64} {pass : Int64 → Exec Unit} {k : Nat} {i : Int64}
    {m : Machine} (hbound : Keeps R bound) (hpass : ∀ i, Keeps R (pass i))
    (h : DrawLang.repeatFrom bound pass k i m = some ((), m')) :
    ∃ b m₁, bound m = some (b, m₁) ∧ R m₁ m' ∧
      (i ≤ b → ∃ m₂, pass i m₁ = some ((), m₂) ∧ R m₂ m') := by
  obtain ⟨b, m₁, hb⟩ : ∃ b m₁, bound m = some (b, m₁) := by
    cases k <;>
    · obtain ⟨b, m₁, hb, -⟩ := bind_eq_some_iff.1 h
      exact ⟨b, m₁, hb⟩
  rw [repeatFrom_of_bound hb] at h
  refine ⟨b, m₁, hb, ?_⟩
  split at h
  · rename_i hi
    obtain ⟨⟨u, m₂⟩, hm₂, h⟩ := Option.bind_eq_some_iff.1 h
    have hrest : R m₂ m' := by
      split at h
      · cases h
        exact Chained.refl _
      · cases k with
        | zero =>
          cases h
          exact Chained.refl _
        | succ k => exact repeatFrom hbound hpass k (i + 1) h
    exact ⟨Chained.trans (hpass i hm₂) hrest, fun _ => ⟨m₂, hm₂, hrest⟩⟩
  · rename_i hi
    cases h
    exact ⟨Chained.refl _, fun hle => absurd hle hi⟩

theorem leadsTo (h : LeadsTo opener M N) : R M.machine N.machine := by
  induction h with
  | refl => exact Chained.refl _
  | tail _ hstep ih => exact Chained.trans ih (leads hstep)

/-- A statement that ends has evaluated its operands. -/
theorem exists_operands {n : Nat} {s : Stmt} {m : Machine}
    (h : s.exec opener (DrawLang.execAt opener n) m = some ((), m')) :
    ∃ as m₁, Expr.evalAll (DrawLang.execAt opener n) s.operands m = some (as, m₁) ∧ R m₁ m' := by
  have hrun := execAt (R := R) opener n
  cases s with
  | paper ink =>
    obtain ⟨a, m₁, ha, h⟩ := bind_eq_some_iff.1 h
    exact ⟨_, m₁, evalAll_singleton ha, Stable.paper _ h⟩
  | pen ink =>
    obtain ⟨a, m₁, ha, h⟩ := bind_eq_some_iff.1 h
    exact ⟨_, m₁, evalAll_singleton ha, Stable.usePen _ h⟩
  | line x₁ y₁ x₂ y₂ =>
    obtain ⟨a, m₁, ha, h⟩ := bind_eq_some_iff.1 h
    obtain ⟨b, m₂, hb, h⟩ := bind_eq_some_iff.1 h
    obtain ⟨c, m₃, hc, h⟩ := bind_eq_some_iff.1 h
    obtain ⟨d, m₄, hd, h⟩ := bind_eq_some_iff.1 h
    have hoperands := evalAll_cons_of hc (evalAll_singleton hd)
    exact ⟨_, m₄, evalAll_cons_of ha (evalAll_cons_of hb hoperands), Stable.line _ _ h⟩
  | assign name result =>
    obtain ⟨a, m₁, ha, h⟩ := bind_eq_some_iff.1 h
    exact ⟨_, m₁, evalAll_singleton ha, Stable.bindName _ _ h⟩
  | setPixel x y ink =>
    obtain ⟨a, m₁, ha, h⟩ := bind_eq_some_iff.1 h
    obtain ⟨b, m₂, hb, h⟩ := bind_eq_some_iff.1 h
    obtain ⟨c, m₃, hc, h⟩ := bind_eq_some_iff.1 h
    have hoperands := evalAll_cons_of hb (evalAll_singleton hc)
    exact ⟨_, m₃, evalAll_cons_of ha hoperands, Stable.setPixel _ _ h⟩
  | readPixel name x y =>
    obtain ⟨a, m₁, ha, h⟩ := bind_eq_some_iff.1 h
    obtain ⟨b, m₂, hb, h⟩ := bind_eq_some_iff.1 h
    exact ⟨_, m₂, evalAll_cons_of ha (evalAll_singleton hb), Stable.bindName _ _ h⟩
  | loop name first last body =>
    obtain ⟨a, m₁, ha, h⟩ := bind_eq_some_iff.1 h
    have hlast := eval hrun last
    exact ⟨_, m₁, evalAll_singleton ha, repeatFrom hlast (passOnce hrun name body) _ _ h⟩
  | test relation left right body =>
    obtain ⟨a, m₁, ha, h⟩ := bind_eq_some_iff.1 h
    obtain ⟨b, m₂, hb, h⟩ := bind_eq_some_iff.1 h
    refine ⟨_, m₂, evalAll_cons_of ha (evalAll_singleton hb), ?_⟩
    split at h
    · exact execAll hrun opener body h
    · exact Keeps.pure () h
  | block _ | define _ _ _ _ | call _ _ | value _ | load _ =>
    exact ⟨[], m, rfl, exec hrun opener _ h⟩

/-- A moment that follows from one that ends has ended on the way. -/
theorem endsIn_of_leads (h : Leads opener M N) (hM : M.EndsIn opener m') :
    ∃ m₁, N.EndsIn opener m₁ ∧ R m₁ m' := by
  have hrun := execAt (R := R) opener
  cases h with
  | left =>
    obtain ⟨v, hM⟩ := hM
    obtain ⟨a, m₁, ha, h⟩ := bind_eq_some_iff.1 hM
    obtain ⟨b, m₂, hb, h⟩ := bind_eq_some_iff.1 h
    exact ⟨m₁, ⟨a, ha⟩, Chained.trans (eval (hrun _) _ hb) (operate _ _ _ _ h)⟩
  | right he =>
    obtain ⟨v, hM⟩ := hM
    rw [Expr.eval, bind_of_eq_some he] at hM
    obtain ⟨b, m₂, hb, h⟩ := bind_eq_some_iff.1 hM
    exact ⟨m₂, ⟨b, hb⟩, operate _ _ _ _ h⟩
  | firstExpr =>
    obtain ⟨as, hM⟩ := hM
    obtain ⟨a, m₁, ha, h⟩ := bind_eq_some_iff.1 hM
    obtain ⟨as, m₂, has, h⟩ := bind_eq_some_iff.1 h
    exact ⟨m₁, ⟨a, ha⟩, Chained.trans (evalAll (hrun _) _ has) (Keeps.pure _ h)⟩
  | moreExprs he =>
    obtain ⟨as, hM⟩ := hM
    rw [Expr.evalAll, bind_of_eq_some he] at hM
    obtain ⟨as, m₂, has, h⟩ := bind_eq_some_iff.1 hM
    exact ⟨m₂, ⟨as, has⟩, Keeps.pure _ h⟩
  | args role hd =>
    cases role with
    | number =>
      obtain ⟨v, hM⟩ := hM
      rw [Expr.eval, bind_of_eq_some hd] at hM
      obtain ⟨values, m₁, hvalues, h⟩ := bind_eq_some_iff.1 hM
      refine ⟨m₁, ⟨values, hvalues⟩, ?_⟩
      obtain ⟨_, m₂, hframe, h⟩ := bind_eq_some_iff.1 h
      exact Chained.trans (inFrame (hrun _ _) hframe) (Stable.takePending h)
    | command =>
      simp only [Moment.EndsIn, Activity.call, Stmt.exec, bind_of_eq_some hd] at hM
      obtain ⟨values, m₁, hvalues, h⟩ := bind_eq_some_iff.1 hM
      exact ⟨m₁, ⟨values, hvalues⟩, inFrame (hrun _ _) h⟩
  | body role hd hvalues =>
    cases role with
    | number =>
      obtain ⟨v, hM⟩ := hM
      simp only [Expr.eval, bind_of_eq_some hd, bind_of_eq_some hvalues] at hM
      obtain ⟨_, m₂, hframe, h⟩ := bind_eq_some_iff.1 hM
      obtain ⟨m₃, hbody, rfl⟩ := inFrame_eq_some_iff.1 hframe
      exact ⟨m₃, hbody, Chained.trans (Stable.leave m₃ _) (Stable.takePending h)⟩
    | command =>
      simp only [Moment.EndsIn, Activity.call, Stmt.exec, bind_of_eq_some hd,
        bind_of_eq_some hvalues] at hM
      obtain ⟨m₃, hbody, rfl⟩ := inFrame_eq_some_iff.1 hM
      exact ⟨m₃, hbody, Stable.leave m₃ _⟩
  | operands =>
    obtain ⟨as, m₁, has, h⟩ := exists_operands (R := R) hM
    exact ⟨m₁, ⟨as, has⟩, h⟩
  | block => exact ⟨m', hM, Chained.refl _⟩
  | loop he =>
    simp only [Moment.EndsIn, Stmt.exec, bind_of_eq_some he] at hM
    exact ⟨m', hM, Chained.refl _⟩
  | bound =>
    obtain ⟨b, m₁, hb, h, -⟩ :=
      exists_of_repeatFrom (R := R) (eval (hrun _) _) (passOnce (hrun _) _ _) hM
    exact ⟨m₁, ⟨b, hb⟩, h⟩
  | pass he hi hbind =>
    obtain ⟨b, m₁, hb, -, hpass⟩ :=
      exists_of_repeatFrom (R := R) (eval (hrun _) _) (passOnce (hrun _) _ _) hM
    obtain ⟨rfl, rfl⟩ := Prod.mk.inj (Option.some.inj (he.symm.trans hb))
    obtain ⟨m₃, hm₃, h⟩ := hpass hi
    simp only [DrawLang.passOnce, bind_of_eq_some hbind] at hm₃
    exact ⟨m₃, hm₃, h⟩
  | nextPass he hi hpass hnone =>
    exact ⟨m', (repeatFrom_of_none he hi hpass hnone).symm.trans hM, Chained.refl _⟩
  | test hl hr hholds =>
    simp only [Moment.EndsIn, Stmt.exec, bind_of_eq_some hl, bind_of_eq_some hr, hholds] at hM
    exact ⟨m', hM, Chained.refl _⟩
  | @value _ _ _ m hnumber =>
    change (if m.inNumber = true then _ else _ : Exec Unit) m = _ at hM
    rw [if_pos hnumber] at hM
    obtain ⟨v, m₁, hv, h⟩ := bind_eq_some_iff.1 hM
    exact ⟨m₁, ⟨v, hv⟩, Stable.setPending v h⟩
  | load hopener hparse htell =>
    simp only [Moment.EndsIn, Stmt.exec, DrawLang.loadSource, hopener, hparse,
      bind_of_eq_some htell] at hM
    exact ⟨m', hM, Chained.refl _⟩
  | firstStmt =>
    simp only [Moment.EndsIn, execAll_cons, Option.bind_eq_some_iff] at hM
    obtain ⟨⟨u, m₁⟩, hs, h⟩ := hM
    refine ⟨m₁, hs, ?_⟩
    split at h
    · cases h
      exact Chained.refl _
    · exact execAll (hrun _) opener _ h
  | moreStmts hs hnone =>
    simp only [Moment.EndsIn, execAll_cons, hs, Option.bind_some, hnone] at hM
    exact ⟨m', hM, Chained.refl _⟩
  | source hparse =>
    simp only [Moment.EndsIn, program_cons] at hM
    obtain ⟨_, m₁, hsource, h⟩ := bind_eq_some_iff.1 hM
    simp only [Library.exec, hparse] at hsource
    obtain ⟨_, m₂, hbody, htell⟩ := bind_eq_some_iff.1 hsource
    refine ⟨m₂, hbody, Chained.trans (Stable.tell _ htell) (program (hrun _) _ _ h)⟩
  | moreSources hsource =>
    simp only [Moment.EndsIn, program_cons, bind_of_eq_some hsource] at hM
    exact ⟨m', hM, Chained.refl _⟩
  | program hdraw =>
    simp only [Moment.EndsIn, Program.exec, Library.exec, pure_bind, bind_of_eq_some hdraw] at hM
    exact ⟨m', hM, Chained.refl _⟩

theorem endsIn_of_leadsTo (h : LeadsTo opener M N) (hM : M.EndsIn opener m') :
    ∃ m₁, N.EndsIn opener m₁ ∧ R m₁ m' := by
  induction h with
  | refl => exact ⟨m', hM, Chained.refl _⟩
  | tail _ hstep ih =>
    obtain ⟨m₁, hm₁, h₁⟩ := ih
    obtain ⟨m₂, hm₂, h₂⟩ := endsIn_of_leads (R := R) hstep hm₁
    exact ⟨m₂, hm₂, Chained.trans h₂ h₁⟩

end Stable

/-! ## Wherever a step ends -/

/-- Whether a property holds of every state in which a step ends that starts in the given one. -/
def Ensures (I : Machine → Prop) {α : Type} (x : Exec α) (m : Machine) : Prop :=
  ∀ ⦃a m'⦄, x m = some (a, m') → I m'

namespace Ensures

variable {I : Machine → Prop} {α β : Type} {m : Machine}

theorem pure {a : α} (hm : I m) : Ensures I (Pure.pure a) m := by
  intro b m' h
  obtain ⟨-, rfl⟩ := pure_eq_some_iff.1 h
  exact hm

theorem failure : Ensures I (failure : Exec α) m := by
  intro a m' h
  cases h

theorem modify {f : Machine → Machine} (hm : I (f m)) : Ensures I (modify f) m := by
  intro u m' h
  obtain rfl := modify_eq_some_iff.1 h
  exact hm

/-- The second of two steps starts where the first one has ended. -/
theorem bind {x : Exec α} {f : α → Exec β} (hx : Ensures I x m)
    (hf : ∀ a m₁, x m = some (a, m₁) → I m₁ → Ensures I (f a) m₁) : Ensures I (x >>= f) m := by
  intro b m' h
  obtain ⟨a, m₁, ha, hb⟩ := bind_eq_some_iff.1 h
  exact hf a m₁ ha (hx ha) hb

theorem get {f : Machine → Exec β} (hf : Ensures I (f m) m) :
    Ensures I (MonadState.get >>= f) m := hf

/-- What is run unless a result is pending. -/
theorem unlessPending {x : Exec Unit} (hm : I m) (hx : m.pending = none → Ensures I x m) :
    Ensures I (do if ← isPending then return () else x) m := by
  show Ensures I (if m.pending.isSome = true then Pure.pure () else x) m
  split
  · exact .pure hm
  · rename_i hnone
    exact hx (by simpa using hnone)

/-- A definition is looked up in the scope that is there, which stays what it is. -/
theorem findDefinition {role : Role} {name : String} {f : Option Definition → Exec β}
    (hnone : Ensures I (f none) m)
    (hsome : ∀ d, findDefinition role name m = some (some d, m) → Ensures I (f (some d)) m) :
    Ensures I (findDefinition role name >>= f) m := by
  intro b m' h
  obtain ⟨d, m₁, hd, hf⟩ := bind_eq_some_iff.1 h
  obtain ⟨-, rfl⟩ := Prod.mk.inj (Option.some.inj hd)
  cases d with
  | none => exact hnone hf
  | some d => exact hsome d hd hf

end Ensures

/-! ## What a moment does by itself -/

/-- The faults that are listed for what starts at a moment, and for no part of it. -/
inductive Activity.Lists (opener : Opener) : Activity → Fault → Prop where
  | name {word} : Lists opener (.expr (.name word)) (.unknownName word.stop word.text)
  | quotient {l r place} : Lists opener (.expr (.binary .div l r place)) (.divisionByZero place)
  | call (role : Role) {word args} : Lists opener (.call role word args)
      (match role with
      | .number => .unknownNumber word.stop word.text
      | .command => .unknownCommand word.stop word.text)
  | unopened {path cause message} : opener path.text = .unopened cause message →
      Lists opener (.stmt (.load path)) (.unavailable path.stop message)
  | unreadable {path cause} : opener path.text = .unreadable cause →
      Lists opener (.stmt (.load path))
        (.unavailable path.stop ("read " ++ path.text ++ ": " ++ cause.message))
  | load {path bytes place} : opener path.text = .contents bytes →
      parse? path.text (Text.decode bytes) = .error place →
      Lists opener (.stmt (.load path)) (.misplacedToken place)
  | source {source sources program place} : parse? source.name source.text = .error place →
      Lists opener (.sources (source :: sources) program) (.misplacedToken place)

/-- Whether a statement draws by itself. -/
def Stmt.isDrawing : Stmt → Bool
  | .paper _ | .line _ _ _ _ | .setPixel _ _ _ => true
  | _ => false

/-- Whether what starts at a moment draws, and has done so in the given state: a drawing statement
that ends in that state, or the white paper in front of a program. -/
inductive Moment.DrawsTo (opener : Opener) : Moment → Machine → Prop where
  | stmt {n cs s m m'} : s.isDrawing = true → s.exec opener (execAt opener n) m = some ((), m') →
      DrawsTo opener ⟨n, cs, .stmt s, m⟩ m'
  | paper {n program m m'} : draw (fun canvas _ => canvas.fill .white) m = some ((), m') →
      DrawsTo opener ⟨n, [], .sources [] program, m⟩ m'

section Drawing

variable {opener : Opener} {m m' : Machine}

/-- A drawing statement evaluates its operands, and then draws. -/
theorem exists_draw_of_exec {run : BodyRunner} {s : Stmt} (hs : s.isDrawing = true)
    (h : s.exec opener run m = some ((), m')) :
    ∃ as m₁ change, Expr.evalAll run s.operands m = some (as, m₁) ∧
      draw change m₁ = some ((), m') := by
  cases s with
  | paper ink =>
    obtain ⟨a, m₁, ha, h⟩ := bind_eq_some_iff.1 h
    exact ⟨_, m₁, _, evalAll_singleton ha, h⟩
  | line x₁ y₁ x₂ y₂ =>
    obtain ⟨a, m₁, ha, h⟩ := bind_eq_some_iff.1 h
    obtain ⟨b, m₂, hb, h⟩ := bind_eq_some_iff.1 h
    obtain ⟨c, m₃, hc, h⟩ := bind_eq_some_iff.1 h
    obtain ⟨d, m₄, hd, h⟩ := bind_eq_some_iff.1 h
    have hoperands := evalAll_cons_of hc (evalAll_singleton hd)
    obtain ⟨_, _, hget, hdraw⟩ := bind_eq_some_iff.1 h
    obtain ⟨rfl, rfl⟩ := get_eq_some_iff.1 hget
    exact ⟨_, m₄, _, evalAll_cons_of ha (evalAll_cons_of hb hoperands), hdraw⟩
  | setPixel x y ink =>
    obtain ⟨a, m₁, ha, h⟩ := bind_eq_some_iff.1 h
    obtain ⟨b, m₂, hb, h⟩ := bind_eq_some_iff.1 h
    obtain ⟨c, m₃, hc, h⟩ := bind_eq_some_iff.1 h
    have hoperands := evalAll_cons_of hb (evalAll_singleton hc)
    obtain ⟨_, _, hget, hdraw⟩ := bind_eq_some_iff.1 h
    obtain ⟨rfl, rfl⟩ := get_eq_some_iff.1 hget
    exact ⟨_, m₃, _, evalAll_cons_of ha hoperands, hdraw⟩
  | _ => cases hs

variable {R : Machine → Machine → Prop} [Stable R] {M : Moment} {m₁ : Machine}

/-- Where something is drawn, it is drawn last. -/
theorem Stable.exists_draw_of_drawsTo (h : M.DrawsTo opener m') :
    ∃ m₁ change, R M.machine m₁ ∧ draw change m₁ = some ((), m') := by
  cases h with
  | paper hdraw => exact ⟨_, _, Chained.refl _, hdraw⟩
  | stmt hdrawing hs =>
    obtain ⟨as, m₁, change, has, hdraw⟩ := exists_draw_of_exec hdrawing hs
    exact ⟨m₁, change, evalAll (execAt opener _) _ has, hdraw⟩

theorem Stable.drawsTo (h : M.DrawsTo opener m') : R M.machine m' := by
  cases h with
  | paper hdraw => exact whitePaper hdraw
  | stmt _ hs => exact exec (execAt opener _) opener _ hs

/-- What is drawn at a moment is drawn when the moment ends, or before. -/
theorem Stable.of_drawsTo_of_endsIn (hdraws : M.DrawsTo opener m') (hends : M.EndsIn opener m₁) :
    R m' m₁ := by
  cases hdraws with
  | stmt _ hs =>
    obtain ⟨-, rfl⟩ := Prod.mk.inj (Option.some.inj (hs.symm.trans hends))
    exact Chained.refl _
  | paper hdraw =>
    simp only [Moment.EndsIn, Program.exec, Library.exec, pure_bind, bind_of_eq_some hdraw] at hends
    exact execAt opener _ _ hends

end Drawing

/-- A property `P` of moments that goes with a property `Q` of states: a moment passes it on to the
moments that follow from it, and every elementary step that is made at such a moment keeps the
other. -/
structure Invariant (opener : Opener) (P : Moment → Prop) (Q : Machine → Prop) : Prop where
  holds : ∀ {M}, P M → Q M.machine
  leads : ∀ {M N}, P M → Leads opener M N → Q N.machine → P N
  report : ∀ {M m fault}, P M → M.activity.Lists opener fault → Q m →
    Q { m with faults := m.faults.push fault }
  draw : ∀ {M m change m'}, P M → Q m → draw change m = some ((), m') → M.DrawsTo opener m' → Q m'
  define : ∀ {n cs role name params body m}, P ⟨n, cs, .stmt (.define role name params body), m⟩ →
    Q { m with scope := m.scope.set name (.routine role ⟨name, params, body⟩) }
  bindValue : ∀ {m}, Q m → ∀ name n, Q { m with scope := m.scope.set name (.value n) }
  tell : ∀ {m}, Q m → ∀ event, Q { m with events := m.events.push event }
  usePen : ∀ {m}, Q m → ∀ ink, Q { m with pen := .ofInk ink }
  settle : ∀ {m}, Q m → ∀ pending, Q { m with pending }
  enter : ∀ {m}, Q m → ∀ role params values, Q (m.enter role params values)
  leave : ∀ {m}, Q m → ∀ inNumber, Q { m with inNumber, scope := m.scope.pop }

namespace Invariant

variable {opener : Opener} {P : Moment → Prop} {Q : Machine → Prop} {n : Nat} {cs : List Role}
  {m m₁ m' : Machine}

/-- What follows from a moment in the same state. -/
theorem start (inv : Invariant opener P Q) {M N : Moment} (hM : P M) (h : Leads opener M N)
    (hmachine : N.machine = M.machine := by rfl) : P N :=
  inv.leads hM h (hmachine ▸ inv.holds hM)

/-- Whether statements that start at some depth at such moments keep the property. -/
def Bodies (opener : Opener) (P : Moment → Prop) (Q : Machine → Prop) (n : Nat) : Prop :=
  ∀ ⦃cs body m⦄, P ⟨n, cs, .stmts body, m⟩ →
    Ensures Q (Stmt.execAll opener (execAt opener n) body) m

/-! ### Expressions -/

theorem readName (inv : Invariant opener P Q) {word : Word}
    (hM : P ⟨n, cs, .expr (.name word), m⟩) : Ensures Q (readName word) m := by
  refine .get ?_
  split
  · exact .pure (inv.holds hM)
  · exact .bind (.modify (inv.report hM .name (inv.holds hM))) fun _ _ _ hm₁ => .pure hm₁

theorem operate (inv : Invariant opener P Q) {op : Operator} {l r : Expr} {place : Position}
    (hM : P ⟨n, cs, .expr (.binary op l r place), m⟩) (a b : Int64) (hm₁ : Q m₁) :
    Ensures Q (operate op a b place) m₁ := by
  unfold DrawLang.operate
  split
  · exact .pure hm₁
  · rename_i hnone
    obtain rfl := ((Operator.apply_eq_none_iff op a b).1 hnone).1
    exact .bind (.modify (inv.report hM .quotient hm₁)) fun _ _ _ hm₂ => .pure hm₂

/-- The body of a call goes one level down. -/
theorem call (inv : Invariant opener P Q) (hn : ∀ k, n = k + 1 → Bodies opener P Q k) (role : Role)
    {word : Word} {args : List Expr} {d : Definition} {values : List Int64}
    (hM : P ⟨n, cs, .call role word args, m⟩)
    (hd : findDefinition role word.text m = some (some d, m))
    (hvalues : Expr.evalAll (execAt opener n) args m = some (values, m₁)) (hm₁ : Q m₁) :
    Ensures Q (inFrame (role == .number) d.params values (execAt opener n d.body)) m₁ := by
  intro u m' h
  obtain ⟨m₂, hbody, rfl⟩ := inFrame_eq_some_iff.1 h
  cases n with
  | zero => cases hbody
  | succ k =>
    have hstart := inv.leads hM (.body role hd hvalues) (inv.enter hm₁ role d.params values)
    exact inv.leave (hn k rfl hstart hbody) _

mutual

theorem expr (inv : Invariant opener P Q) (hn : ∀ k, n = k + 1 → Bodies opener P Q k) :
    ∀ (e : Expr) {m : Machine}, P ⟨n, cs, .expr e, m⟩ → Ensures Q (e.eval (execAt opener n)) m
  | .literal _, _, hM => .pure (inv.holds hM)
  | .name _, _, hM => inv.readName hM
  | .binary op l r place, m, hM => by
    refine .bind (inv.expr hn l (inv.start hM .left)) fun a m₁ ha hm₁ => ?_
    refine .bind (inv.expr hn r (inv.leads hM (.right ha) hm₁)) fun b m₂ _ hm₂ => ?_
    exact inv.operate hM a b hm₂
  | .call word args, m, hM => by
    refine .findDefinition ?_ fun d hd => ?_
    · exact .bind (.modify (inv.report hM (.call .number) (inv.holds hM)))
        fun _ _ _ hm₁ => .pure hm₁
    · refine .bind (inv.exprs hn args (inv.start hM (.args .number hd))) fun _ m₁ hvalues hm₁ => ?_
      refine .bind (inv.call hn .number hM hd hvalues hm₁) fun _ m₂ _ hm₂ => ?_
      exact .get (.bind (.modify (inv.settle hm₂ none)) fun _ _ _ hm₃ => .pure hm₃)

theorem exprs (inv : Invariant opener P Q) (hn : ∀ k, n = k + 1 → Bodies opener P Q k) :
    ∀ (es : List Expr) {m : Machine}, P ⟨n, cs, .exprs es, m⟩ →
      Ensures Q (Expr.evalAll (execAt opener n) es) m
  | [], _, hM => .pure (inv.holds hM)
  | e :: es, m, hM => by
    refine .bind (inv.expr hn e (inv.start hM .firstExpr)) fun a m₁ ha hm₁ => ?_
    refine .bind (inv.exprs hn es (inv.leads hM (.moreExprs ha) hm₁)) fun _ m₂ _ hm₂ => ?_
    exact .pure hm₂

end

/-- The operands of a statement are evaluated one after the other. -/
theorem operand (inv : Invariant opener P Q) (hn : ∀ k, n = k + 1 → Bodies opener P Q k)
    {e : Expr} {es : List Expr} {a : Int64} (hM : P ⟨n, cs, .exprs (e :: es), m⟩)
    (ha : e.eval (execAt opener n) m = some (a, m₁)) : P ⟨n, cs, .exprs es, m₁⟩ :=
  inv.leads hM (.moreExprs ha) (inv.expr hn e (inv.start hM .firstExpr) ha)

/-! ### Statements -/

theorem drawing (inv : Invariant opener P Q) (hn : ∀ k, n = k + 1 → Bodies opener P Q k) {s : Stmt}
    (hs : s.isDrawing = true) (hM : P ⟨n, cs, .stmt s, m⟩) :
    Ensures Q (s.exec opener (execAt opener n)) m := by
  intro u m' h
  obtain ⟨as, m₁, change, has, hdraw⟩ := exists_draw_of_exec hs h
  have hm₁ := inv.exprs hn s.operands (inv.start hM .operands) has
  exact inv.draw hM hm₁ hdraw (.stmt hs h)

/-- Each pass of a loop starts where the one before has ended, with the bound evaluated anew. -/
theorem passes (inv : Invariant opener P Q) (hn : ∀ k, n = k + 1 → Bodies opener P Q k)
    {name : String} {last : Expr} {body : List Stmt}
    (hbody : ∀ {m}, P ⟨n, cs, .stmts body, m⟩ →
      Ensures Q (Stmt.execAll opener (execAt opener n) body) m)
    (k : Nat) (i : Int64) (hM : P ⟨n, cs, .passes name last body k i, m⟩) :
    Ensures Q (repeatFrom (last.eval (execAt opener n))
      (passOnce opener (execAt opener n) name body) k i) m := by
  have hpass {m} (k : Nat) (i b : Int64) {m₁ : Machine}
      (hM : P ⟨n, cs, .passes name last body k i, m⟩)
      (hb : last.eval (execAt opener n) m = some (b, m₁)) (hi : i ≤ b) (hm₁ : Q m₁) :
      Ensures Q (passOnce opener (execAt opener n) name body i) m₁ :=
    .bind (.modify (inv.bindValue hm₁ name i)) fun _ _ hbind hm₂ =>
      hbody (inv.leads hM (.pass hb hi hbind) hm₂)
  induction k generalizing m i with
  | zero =>
    unfold repeatFrom
    refine .bind (inv.expr hn last (inv.start hM .bound)) fun b m₁ hb hm₁ => ?_
    split
    · rename_i hi
      refine .bind (hpass 0 i b hM hb hi hm₁) fun _ m₂ _ hm₂ => ?_
      exact .unlessPending hm₂ fun _ => .pure hm₂
    · exact .pure hm₁
  | succ k ih =>
    unfold repeatFrom
    refine .bind (inv.expr hn last (inv.start hM .bound)) fun b m₁ hb hm₁ => ?_
    split
    · rename_i hi
      refine .bind (hpass (k + 1) i b hM hb hi hm₁) fun _ m₂ hpassed hm₂ => ?_
      refine .unlessPending hm₂ fun hnone => ?_
      exact ih (i + 1) (inv.leads hM (.nextPass hb hi hpassed hnone) hm₂)
    · exact .pure hm₁

theorem loadSource (inv : Invariant opener P Q) (hn : ∀ k, n = k + 1 → Bodies opener P Q k)
    {path : Word} (hM : P ⟨n, cs, .stmt (.load path), m⟩) :
    Ensures Q (loadSource opener (execAt opener n) path) m := by
  unfold DrawLang.loadSource
  split
  · rename_i hopener
    exact .modify (inv.report hM (.unopened hopener) (inv.holds hM))
  · rename_i hopener
    exact .modify (inv.report hM (.unreadable hopener) (inv.holds hM))
  · rename_i bytes hopener
    cases hparse : parse? path.text (Text.decode bytes) with
    | error place => exact .modify (inv.report hM (.load hopener hparse) (inv.holds hM))
    | ok program =>
      refine .bind (.modify (inv.tell (inv.holds hM) _)) fun _ m₁ htell hm₁ => ?_
      cases n with
      | zero => exact .failure
      | succ k => exact hn k rfl (inv.leads hM (.load hopener hparse htell) hm₁)

mutual

theorem stmt (inv : Invariant opener P Q) (hn : ∀ k, n = k + 1 → Bodies opener P Q k) :
    ∀ (s : Stmt) {m : Machine}, P ⟨n, cs, .stmt s, m⟩ →
      Ensures Q (s.exec opener (execAt opener n)) m
  | .paper _, _, hM => inv.drawing hn rfl hM
  | .pen ink, m, hM => by
    refine .bind (inv.expr hn ink (inv.start (inv.start hM .operands) .firstExpr)) ?_
    exact fun _ m₁ _ hm₁ => .modify (inv.usePen hm₁ _)
  | .line _ _ _ _, _, hM => inv.drawing hn rfl hM
  | .assign name result, m, hM => by
    refine .bind (inv.expr hn result (inv.start (inv.start hM .operands) .firstExpr)) ?_
    exact fun _ m₁ _ hm₁ => .modify (inv.bindValue hm₁ name _)
  | .setPixel _ _ _, _, hM => inv.drawing hn rfl hM
  | .readPixel name x y, m, hM => by
    intro u m' h
    obtain ⟨a, m₁, ha, h⟩ := bind_eq_some_iff.1 h
    obtain ⟨b, m₂, hb, h⟩ := bind_eq_some_iff.1 h
    obtain ⟨_, _, hget, hbind⟩ := bind_eq_some_iff.1 h
    obtain ⟨rfl, rfl⟩ := get_eq_some_iff.1 hget
    obtain rfl := modify_eq_some_iff.1 hbind
    have h₁ := inv.operand hn (inv.start hM .operands) ha
    exact inv.bindValue (inv.holds (inv.operand hn h₁ hb)) name _
  | .block body, m, hM => inv.stmts hn body (inv.start hM .block)
  | .loop name first last body, m, hM => by
    intro u m' h
    obtain ⟨i, m₁, hi, h⟩ := bind_eq_some_iff.1 h
    have h₁ := inv.operand hn (inv.start hM .operands) hi
    have hm₁ : Q m₁ := inv.holds h₁
    exact inv.passes hn (inv.stmts hn body) _ i (inv.leads hM (.loop hi) hm₁) h
  | .test relation left right body, m, hM => by
    intro u m' h
    obtain ⟨a, m₁, ha, h⟩ := bind_eq_some_iff.1 h
    obtain ⟨b, m₂, hb, h⟩ := bind_eq_some_iff.1 h
    have h₁ := inv.operand hn (inv.start hM .operands) ha
    have hm₂ := inv.holds (inv.operand hn h₁ hb)
    split at h
    · rename_i hholds
      exact inv.stmts hn body (inv.leads hM (.test ha hb hholds) hm₂) h
    · exact Ensures.pure hm₂ h
  | .define role name params body, m, hM => .modify (inv.define hM)
  | .call word args, m, hM => by
    refine .findDefinition ?_ fun d hd => ?_
    · exact .modify (inv.report hM (.call .command) (inv.holds hM))
    · refine .bind (inv.exprs hn args (inv.start hM (.args .command hd))) fun _ m₁ hvalues hm₁ => ?_
      exact inv.call hn .command hM hd hvalues hm₁
  | .value result, m, hM => by
    refine .get ?_
    split
    · rename_i hnumber
      refine .bind (inv.expr hn result (inv.start hM (.value hnumber))) fun _ m₁ _ hm₁ => ?_
      exact .modify (inv.settle hm₁ _)
    · exact .modify (inv.tell (inv.holds hM) _)
  | .load path, m, hM => inv.loadSource hn hM

theorem stmts (inv : Invariant opener P Q) (hn : ∀ k, n = k + 1 → Bodies opener P Q k) :
    ∀ (ss : List Stmt) {m : Machine}, P ⟨n, cs, .stmts ss, m⟩ →
      Ensures Q (Stmt.execAll opener (execAt opener n) ss) m
  | [], _, hM => .pure (inv.holds hM)
  | s :: ss, m, hM => by
    refine .bind (inv.stmt hn s (inv.start hM .firstStmt)) fun _ m₁ hs hm₁ => ?_
    refine .unlessPending hm₁ fun hnone => ?_
    exact inv.stmts hn ss (inv.leads hM (.moreStmts hs hnone) hm₁)

end

/-- At every depth bodies keep the property. -/
theorem bodies (inv : Invariant opener P Q) (n : Nat) : Bodies opener P Q n := by
  induction n with
  | zero =>
    have hn : ∀ k, 0 = k + 1 → Bodies opener P Q k := fun k hk => absurd hk k.succ_ne_zero.symm
    exact fun _ body _ => inv.stmts hn body
  | succ n ih =>
    have hn : ∀ k, n + 1 = k + 1 → Bodies opener P Q k := by
      rintro k hk
      obtain rfl : n = k := Nat.succ.inj hk
      exact ih
    exact fun _ body _ => inv.stmts hn body

/-! ### Whole runs -/

theorem source (inv : Invariant opener P Q) {source : LibrarySource} {sources : Library}
    {program : Program} (hM : P ⟨n, [], .sources (source :: sources) program, m⟩) :
    Ensures Q (Library.exec (execAt opener n) [source]) m := by
  unfold Library.exec
  cases hparse : parse? source.name source.text with
  | error place =>
    refine .bind (.modify (inv.tell (inv.holds hM) _)) fun _ m₁ _ hm₁ => ?_
    exact .bind (.modify (inv.report hM (.source hparse) hm₁)) fun _ m₂ _ hm₂ => .pure hm₂
  | ok p =>
    have hbody : Ensures Q (execAt opener n p) m := by
      cases n with
      | zero => exact .failure
      | succ k => exact inv.bodies k (inv.start hM (.source hparse))
    refine .bind hbody fun _ m₁ _ hm₁ => ?_
    exact .bind (.modify (inv.tell hm₁ _)) fun _ m₂ _ hm₂ => .pure hm₂

/-- A library and the program that follows it. -/
theorem program (inv : Invariant opener P Q) {program : Program} (sources : Library)
    (hM : P ⟨n, [], .sources sources program, m⟩) :
    Ensures Q (program.exec (execAt opener n) sources) m := by
  induction sources generalizing m with
  | nil =>
    intro u m' h
    obtain ⟨_, m₁, hnil, h⟩ := bind_eq_some_iff.1 h
    obtain ⟨-, rfl⟩ := pure_eq_some_iff.1 hnil
    obtain ⟨_, m₂, hdraw, h⟩ := bind_eq_some_iff.1 h
    have hm₂ := inv.draw hM (inv.holds hM) hdraw (.paper hdraw)
    cases n with
    | zero => cases h
    | succ k => exact inv.bodies k (inv.leads hM (.program hdraw) hm₂) h
  | cons source sources ih =>
    rw [program_cons]
    refine .bind (inv.source hM) fun _ m₁ hm₁' hm₁ => ?_
    exact ih (inv.leads hM (.moreSources hm₁') hm₁)

/-! ### Moments that follow -/

/-- What follows from such a moment is in a state with the property. -/
theorem holds_of_leads (inv : Invariant opener P Q) {M N : Moment} (hM : P M)
    (h : Leads opener M N) : Q N.machine := by
  have hn {n : Nat} (k : Nat) (_ : n = k + 1) : Bodies opener P Q k := inv.bodies k
  have hm := inv.holds hM
  cases h with
  | left | firstExpr | args | operands | block | bound | value | firstStmt | source => exact hm
  | right ha => exact inv.expr hn _ (inv.start hM .left) ha
  | moreExprs ha => exact inv.expr hn _ (inv.start hM .firstExpr) ha
  | body role hd hvalues =>
    exact inv.enter (inv.exprs hn _ (inv.start hM (.args role hd)) hvalues) role _ _
  | loop hi =>
    have hm₁ := inv.holds (inv.operand hn (inv.start hM .operands) hi)
    exact hm₁
  | pass hb _ hbind =>
    obtain rfl := modify_eq_some_iff.1 hbind
    exact inv.bindValue (inv.expr hn _ (inv.start hM .bound) hb) _ _
  | nextPass hb hi hpass _ =>
    obtain ⟨_, m₂, hbind, hbody⟩ := bind_eq_some_iff.1 hpass
    have hm₁ := inv.expr hn _ (inv.start hM .bound) hb
    have hm₂ : Q m₂ := by
      obtain rfl := modify_eq_some_iff.1 hbind
      exact inv.bindValue hm₁ _ _
    exact inv.stmts hn _ (inv.leads hM (.pass hb hi hbind) hm₂) hbody
  | test ha hb _ =>
    have h₁ := inv.operand hn (inv.start hM .operands) ha
    have hm₂ := inv.holds (inv.operand hn h₁ hb)
    exact hm₂
  | load _ _ htell =>
    obtain rfl := modify_eq_some_iff.1 htell
    exact inv.tell hm _
  | moreStmts hs _ => exact inv.stmt hn _ (inv.start hM .firstStmt) hs
  | moreSources hsource => exact inv.source hM hsource
  | program hdraw => exact inv.draw hM hm hdraw (.paper hdraw)

theorem leadsTo (inv : Invariant opener P Q) {M N : Moment} (hM : P M)
    (h : LeadsTo opener M N) : P N := by
  induction h with
  | refl => exact hM
  | tail _ hstep ih => exact inv.leads ih hstep (inv.holds_of_leads ih hstep)

end Invariant

end DrawLang
