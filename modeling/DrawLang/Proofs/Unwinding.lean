import DrawLang.Proofs.Steps
import Mathlib.Logic.Relation

/-!
# Values end numbers

A `Value` leaves its result pending, and while a result is pending statements are skipped. Skipping
ends with the innermost number: its call takes the result, and whoever called it goes on with no
result pending. Outside of numbers nothing is ever skipped.

What is said of a whole run is said of its moments. At a moment something starts, an expression or a
statement or a part of one, in a state of the machine and with calls in progress; `Leads` goes from
one moment to those that the interpreter reaches from it directly.

* `Moment`, `Leads`, `Reached`: the moments of a run.
* `Quiet`, `quiet_of_leads`: no result is pending when something starts.
* `execAll_append`: two lists of statements in a row.
* `ends_of_value`: a `Value` ends all that was started in the number around it.
-/

namespace DrawLang

/-! ## Moments of a run -/

/-- What can start in a run: besides expressions and statements, lists of them, the passes of a loop
from a number on, and the sources of a library with the program that follows them. -/
inductive Activity where
  | expr (e : Expr)
  | exprs (es : List Expr)
  | stmt (s : Stmt)
  | stmts (ss : List Stmt)
  | passes (name : String) (last : Expr) (body : List Stmt) (n : Nat) (i : Int64)
  | sources (library : Library) (program : Program)

def Activity.call : Role → Word → List Expr → Activity
  | .number, word, args => .expr (.call word args)
  | .command, word, args => .stmt (.call word args)

/-- A moment at which something starts: how deep the run may still go, the calls in progress with
the innermost first, what starts, and the state in which it starts. -/
structure Moment where
  depth : Nat
  calls : List Role
  activity : Activity
  machine : Machine

/-- The expressions that a statement evaluates first, in whatever state it starts. -/
def Stmt.operands : Stmt → List Expr
  | .paper ink | .pen ink => [ink]
  | .line x₁ y₁ x₂ y₂ => [x₁, y₁, x₂, y₂]
  | .assign _ result => [result]
  | .setPixel x y ink => [x, y, ink]
  | .readPixel _ x y => [x, y]
  | .loop _ first _ _ => [first]
  | .test _ left right _ => [left, right]
  | .block _ | .define _ _ _ _ | .call _ _ | .value _ | .load _ => []

/-- The state in which the body of a call starts. -/
def Machine.enter (m : Machine) (role : Role) (params : List String) (values : List Int64) :
    Machine :=
  { m with scope := m.scope.push.setAll params values, inNumber := role == .number }

/-- One pass of a loop. -/
def passOnce (opener : Opener) (run : BodyRunner) (name : String) (body : List Stmt) (i : Int64) :
    Exec Unit := do
  bindName name (.value i)
  Stmt.execAll opener run body

/-- From one moment to those that follow from it directly: what starts with it, and what starts in
its course once the parts before have ended. -/
inductive Leads (opener : Opener) : Moment → Moment → Prop where
  | left {n cs op l r place m} :
      Leads opener ⟨n, cs, .expr (.binary op l r place), m⟩ ⟨n, cs, .expr l, m⟩
  | right {n cs op l r place m a m₁} : l.eval (execAt opener n) m = some (a, m₁) →
      Leads opener ⟨n, cs, .expr (.binary op l r place), m⟩ ⟨n, cs, .expr r, m₁⟩
  | firstExpr {n cs e es m} : Leads opener ⟨n, cs, .exprs (e :: es), m⟩ ⟨n, cs, .expr e, m⟩
  | moreExprs {n cs e es m a m₁} : e.eval (execAt opener n) m = some (a, m₁) →
      Leads opener ⟨n, cs, .exprs (e :: es), m⟩ ⟨n, cs, .exprs es, m₁⟩
  | args {n cs word es d m} (role : Role) : findDefinition role word.text m = some (some d, m) →
      Leads opener ⟨n, cs, .call role word es, m⟩ ⟨n, cs, .exprs es, m⟩
  | body {n cs word es d values m m₁} (role : Role) :
      findDefinition role word.text m = some (some d, m) →
      Expr.evalAll (execAt opener (n + 1)) es m = some (values, m₁) →
      Leads opener ⟨n + 1, cs, .call role word es, m⟩
        ⟨n, role :: cs, .stmts d.body, m₁.enter role d.params values⟩
  | operands {n cs s m} : Leads opener ⟨n, cs, .stmt s, m⟩ ⟨n, cs, .exprs s.operands, m⟩
  | block {n cs ss m} : Leads opener ⟨n, cs, .stmt (.block ss), m⟩ ⟨n, cs, .stmts ss, m⟩
  | loop {n cs name first last ss m i m₁} : first.eval (execAt opener n) m = some (i, m₁) →
      Leads opener ⟨n, cs, .stmt (.loop name first last ss), m⟩
        ⟨n, cs, .passes name last ss (numbersPast i) i, m₁⟩
  | bound {n cs name last ss k i m} :
      Leads opener ⟨n, cs, .passes name last ss k i, m⟩ ⟨n, cs, .expr last, m⟩
  | pass {n cs name last ss k i m b m₁ m₂} : last.eval (execAt opener n) m = some (b, m₁) →
      i ≤ b → bindName name (.value i) m₁ = some ((), m₂) →
      Leads opener ⟨n, cs, .passes name last ss k i, m⟩ ⟨n, cs, .stmts ss, m₂⟩
  | nextPass {n cs name last ss k i m b m₁ m₂} : last.eval (execAt opener n) m = some (b, m₁) →
      i ≤ b → passOnce opener (execAt opener n) name ss i m₁ = some ((), m₂) →
      m₂.pending = none →
      Leads opener ⟨n, cs, .passes name last ss (k + 1) i, m⟩
        ⟨n, cs, .passes name last ss k (i + 1), m₂⟩
  | test {n cs relation l r ss m a m₁ b m₂} : l.eval (execAt opener n) m = some (a, m₁) →
      r.eval (execAt opener n) m₁ = some (b, m₂) → relation.holds a b = true →
      Leads opener ⟨n, cs, .stmt (.test relation l r ss), m⟩ ⟨n, cs, .stmts ss, m₂⟩
  | value {n cs e m} : m.inNumber = true →
      Leads opener ⟨n, cs, .stmt (.value e), m⟩ ⟨n, cs, .expr e, m⟩
  | load {n cs path bytes program m m₁} : opener path.text = .contents bytes →
      parse? path.text (Text.decode bytes) = .ok program →
      tell (.sourceLoaded path.text program.length) m = some ((), m₁) →
      Leads opener ⟨n + 1, cs, .stmt (.load path), m⟩ ⟨n, cs, .stmts program, m₁⟩
  | firstStmt {n cs s ss m} : Leads opener ⟨n, cs, .stmts (s :: ss), m⟩ ⟨n, cs, .stmt s, m⟩
  | moreStmts {n cs s ss m m₁} : s.exec opener (execAt opener n) m = some ((), m₁) →
      m₁.pending = none → Leads opener ⟨n, cs, .stmts (s :: ss), m⟩ ⟨n, cs, .stmts ss, m₁⟩
  | source {n source sources program p m} : parse? source.name source.text = .ok p →
      Leads opener ⟨n + 1, [], .sources (source :: sources) program, m⟩ ⟨n, [], .stmts p, m⟩
  | moreSources {n source sources program m m₁} :
      Library.exec (execAt opener n) [source] m = some ((), m₁) →
      Leads opener ⟨n, [], .sources (source :: sources) program, m⟩
        ⟨n, [], .sources sources program, m₁⟩
  | program {n program m m₁} : draw (fun canvas _ => canvas.fill .white) m = some ((), m₁) →
      Leads opener ⟨n + 1, [], .sources [] program, m⟩ ⟨n, [], .stmts program, m₁⟩

/-- From one moment to all that follow from it. -/
abbrev LeadsTo (opener : Opener) : Moment → Moment → Prop := Relation.ReflTransGen (Leads opener)

/-- The moments of the run of a program, to a depth. -/
def Reached (settings : Settings) (depth : Nat) (name : String) (program : Program) (M : Moment) :
    Prop :=
  LeadsTo settings.opener
    ⟨depth, [], .sources settings.library program, settings.start name program⟩ M

/-! ## Nothing is pending when something starts -/

/-- No result is pending, and the machine knows whether the innermost call is that of a number. -/
structure Quiet (calls : List Role) (m : Machine) : Prop where
  pending : m.pending = none
  inNumber : m.inNumber = true ↔ calls.head? = some .number

section Quiet

variable {calls : List Role} {m m' : Machine}

theorem Quiet.restored (h : Quiet calls m) (hm : Restored m m') : Quiet calls m' :=
  ⟨hm.pending h.pending, by rw [hm.inNumber]; exact h.inNumber⟩

theorem Quiet.contained (h : Quiet calls m) (hm : Contained m m') (hnone : m'.pending = none) :
    Quiet calls m' :=
  ⟨hnone, by rw [hm.inNumber]; exact h.inNumber⟩

theorem Quiet.enter (h : Quiet calls m) (role : Role) (params : List String)
    (values : List Int64) : Quiet (role :: calls) (m.enter role params values) :=
  ⟨h.pending, by cases role <;> simp [Machine.enter]⟩

theorem Quiet.inNumber_eq_false (h : Quiet calls m) (hc : calls.head? ≠ some .number) :
    m.inNumber = false := by
  cases hn : m.inNumber with
  | false => rfl
  | true => exact absurd (h.inNumber.1 hn) hc

end Quiet

theorem passOnce_keeps (opener : Opener) (n : Nat) (name : String) (body : List Stmt) (i : Int64) :
    Keeps Contained (passOnce opener (execAt opener n) name body i) :=
  .bind (bindName_keeps name _) fun _ => execAll_keeps (execAt_keeps opener n) opener body

theorem library_contained {run : BodyRunner} (hrun : ∀ body, Keeps Contained (run body))
    (library : Library) : Keeps Contained (library.exec run) :=
  library_keeps (fun fault => (report_keeps fault).contained)
    (fun event => (tell_keeps event).contained) hrun library

/-- If nothing is pending at a moment, nothing is pending at those that follow. -/
theorem quiet_of_leads {opener : Opener} {M N : Moment} (h : Leads opener M N)
    (hM : Quiet M.calls M.machine) : Quiet N.calls N.machine := by
  have hrun := execAt_keeps opener
  cases h with
  | left | firstExpr | args | operands | block | bound | value | firstStmt | source => exact hM
  | right he | moreExprs he | loop he => exact hM.restored (eval_keeps (hrun _) _ he)
  | body _ _ hvalues => exact (hM.restored (evalAll_keeps (hrun _) _ hvalues)).enter _ _ _
  | pass he _ hbind =>
    have hm := hM.restored (eval_keeps (hrun _) _ he)
    obtain rfl := modify_eq_some_iff.1 hbind
    exact ⟨hm.pending, hm.inNumber⟩
  | nextPass he _ hpass hnone =>
    have hm := hM.restored (eval_keeps (hrun _) _ he)
    exact hm.contained (passOnce_keeps _ _ _ _ _ hpass) hnone
  | test hl hr _ =>
    exact (hM.restored (eval_keeps (hrun _) _ hl)).restored (eval_keeps (hrun _) _ hr)
  | load _ _ htell => exact hM.restored (tell_keeps _ htell)
  | moreStmts hs hnone => exact hM.contained (exec_keeps (hrun _) opener _ hs) hnone
  | moreSources hsource =>
    have hm := library_contained (hrun _) _ hsource
    exact hM.contained hm (hm.pending (hM.inNumber_eq_false (by simp)) hM.pending)
  | program hdraw => exact hM.restored (draw_keeps _ hdraw)

theorem quiet_of_reached {settings : Settings} {depth : Nat} {name : String} {program : Program}
    {M : Moment} (h : Reached settings depth name program M) : Quiet M.calls M.machine := by
  induction h with
  | refl => exact ⟨rfl, by simp [Settings.start, Machine.start]⟩
  | tail _ hstep ih => exact quiet_of_leads hstep ih

/-! ## Lists of statements -/

section Lists

variable {opener : Opener} {run : BodyRunner} {m : Machine}

/-- What is to follow a step is run where the step has led, unless a result is pending there. -/
theorem unlessPending_apply (x y : Exec Unit) (m : Machine) :
    (do x; if ← isPending then return () else y : Exec Unit) m = (x m).bind fun r =>
      if r.2.pending.isSome then some ((), r.2) else y r.2 := by
  show (x m).bind _ = _
  congr 1
  funext r
  show (if r.2.pending.isSome = true then _ else _ : Exec Unit) r.2 = _
  split <;> rfl

theorem execAll_cons (s : Stmt) (ss : List Stmt) :
    Stmt.execAll opener run (s :: ss) m = (s.exec opener run m).bind fun r =>
      if r.2.pending.isSome then some ((), r.2) else Stmt.execAll opener run ss r.2 :=
  unlessPending_apply _ _ m

/-- The second of two lists is run where the first one has ended, and skipped if a result is pending
there. -/
theorem execAll_append (hm : m.pending = none) (ss ts : List Stmt) :
    Stmt.execAll opener run (ss ++ ts) m = (Stmt.execAll opener run ss m).bind fun r =>
      if r.2.pending.isSome then some ((), r.2) else Stmt.execAll opener run ts r.2 := by
  induction ss generalizing m with
  | nil =>
    show _ = if m.pending.isSome then _ else _
    rw [hm]
    rfl
  | cons s ss ih =>
    rw [List.cons_append, execAll_cons, execAll_cons, Option.bind_assoc]
    congr 1
    funext r
    cases hr : r.2.pending with
    | none => exact ih hr
    | some n =>
      show some ((), r.2) = if r.2.pending.isSome then _ else _
      rw [hr]
      rfl

/-- Outside of numbers the second of two lists is run in full. -/
theorem execAll_append_of_outside (hrun : ∀ body, Keeps Contained (run body))
    (hm : m.pending = none) (hout : m.inNumber = false) (ss ts : List Stmt) :
    Stmt.execAll opener run (ss ++ ts) m =
      (Stmt.execAll opener run ss >>= fun _ => Stmt.execAll opener run ts) m := by
  rw [execAll_append hm]
  apply Option.bind_congr
  rintro ⟨u, m₁⟩ h₁
  have hnone := (execAll_keeps hrun opener ss h₁).pending hout hm
  simp only [hnone]
  rfl

/-- Outside of numbers every statement of a list is run. -/
theorem execAll_eq_forM (hrun : ∀ body, Keeps Contained (run body)) (hm : m.pending = none)
    (hout : m.inNumber = false) (ss : List Stmt) :
    Stmt.execAll opener run ss m = (ss.forM fun s => s.exec opener run) m := by
  induction ss generalizing m with
  | nil => rfl
  | cons s ss ih =>
    rw [execAll_cons]
    apply Option.bind_congr
    rintro ⟨u, m₁⟩ h₁
    have hs := exec_keeps hrun opener s h₁
    have hnone := hs.pending hout hm
    simp only [hnone]
    exact ih hnone (hs.inNumber.trans hout)

end Lists

/-! ## Calls of numbers -/

/-- The call of a number takes the result that its body has left pending, and counts as 0 if there
is none. Its caller has the bindings that it had. -/
theorem numberCall_eq_some_iff {run : BodyRunner} (hrun : ∀ body, Keeps Contained (run body))
    {word : Word} {args : List Expr} {d : Definition} {m m' : Machine} {v : Int64}
    (hd : findDefinition .number word.text m = some (some d, m)) :
    (Expr.call word args).eval run m = some (v, m') ↔
      ∃ values m₁ m₂, Expr.evalAll run args m = some (values, m₁) ∧
        run d.body (m₁.enter .number d.params values) = some ((), m₂) ∧ v = m₂.pending.getD 0 ∧
        m' = { m₂ with pending := none, inNumber := m.inNumber, scope := m.scope } := by
  have hcall : (Expr.call word args).eval run m = (Expr.evalAll run args >>= fun values =>
      inFrame true d.params values (run d.body) >>= fun _ => takePending) m := by
    rw [Expr.eval, bind_of_eq_some hd]
  rw [hcall, bind_eq_some_iff]
  have hpop {m₁ m₂ : Machine} {values : List Int64}
      (hbody : run d.body (m₁.enter .number d.params values) = some ((), m₂)) :
      m₂.scope.pop = m₁.scope := by
    have hframe := inFrame_eq_some_iff.2 ⟨m₂, hbody, rfl⟩
    exact (inFrame_restores (hrun d.body) hframe).1
  constructor
  · rintro ⟨values, m₁, hvalues, h⟩
    obtain ⟨_, m₃, hframe, htake⟩ := bind_eq_some_iff.1 h
    obtain ⟨m₂, hbody, rfl⟩ := inFrame_eq_some_iff.1 hframe
    have hargs := evalAll_keeps hrun args hvalues
    cases htake
    refine ⟨values, m₁, m₂, hvalues, hbody, rfl, ?_⟩
    rw [← hargs.inNumber, ← hargs.scope, ← hpop hbody]
  · rintro ⟨values, m₁, m₂, hvalues, hbody, rfl, rfl⟩
    have hargs := evalAll_keeps hrun args hvalues
    refine ⟨values, m₁, hvalues, bind_eq_some_iff.2 ⟨(), _,
      inFrame_eq_some_iff.2 ⟨m₂, hbody, rfl⟩, ?_⟩⟩
    rw [← hargs.inNumber, ← hargs.scope, ← hpop hbody]
    rfl

/-! ## From a `Value` to the end of its number -/

section Loops

variable {bound : Exec Int64} {pass : Int64 → Exec Unit} {k : Nat} {i b : Int64}
  {m m₁ m₂ : Machine}

/-- One round of a loop, once its bound has been read. -/
theorem repeatFrom_of_bound (hbound : bound m = some (b, m₁)) (k : Nat) (i : Int64) :
    repeatFrom bound pass k i m =
      if i ≤ b then
        (pass i m₁).bind fun r =>
          if r.2.pending.isSome then some ((), r.2)
          else
            match k with
            | 0 => some ((), r.2)
            | k + 1 => repeatFrom bound pass k (i + 1) r.2
      else some ((), m₁) := by
  cases k with
  | zero =>
    rw [repeatFrom, bind_of_eq_some hbound]
    split
    · exact unlessPending_apply _ _ m₁
    · rfl
  | succ k =>
    rw [repeatFrom, bind_of_eq_some hbound]
    split
    · exact unlessPending_apply _ _ m₁
    · rfl

/-- A pass that leaves a result pending is the last one. -/
theorem repeatFrom_of_pending (hbound : bound m = some (b, m₁)) (hi : i ≤ b)
    (hpass : pass i m₁ = some ((), m₂)) (hpending : m₂.pending.isSome = true) :
    repeatFrom bound pass k i m = some ((), m₂) := by
  rw [repeatFrom_of_bound hbound, if_pos hi, hpass]
  exact if_pos hpending

/-- After a pass that leaves nothing pending, the loop goes on with the next number. -/
theorem repeatFrom_of_none (hbound : bound m = some (b, m₁)) (hi : i ≤ b)
    (hpass : pass i m₁ = some ((), m₂)) (hnone : m₂.pending = none) :
    repeatFrom bound pass (k + 1) i m = repeatFrom bound pass k (i + 1) m₂ := by
  rw [repeatFrom_of_bound hbound, if_pos hi, hpass, Option.bind_some, hnone]
  rfl

end Loops

/-- The statements that start at a moment end in a state. Nothing is said where no statements
start. -/
def Ends (opener : Opener) : Moment → Machine → Prop
  | ⟨n, _, .stmt s, m⟩, m' => s.exec opener (execAt opener n) m = some ((), m')
  | ⟨n, _, .stmts ss, m⟩, m' => Stmt.execAll opener (execAt opener n) ss m = some ((), m')
  | ⟨n, _, .passes name last ss k i, m⟩, m' =>
    repeatFrom (last.eval (execAt opener n)) (passOnce opener (execAt opener n) name ss) k i m =
      some ((), m')
  | ⟨_, _, .expr _, _⟩, _ | ⟨_, _, .exprs _, _⟩, _ | ⟨_, _, .sources _ _, _⟩, _ => False

section Ends

variable {opener : Opener} {M N : Moment} {m' : Machine}

/-- Calls in progress stay in progress in all that follows. -/
theorem calls_suffix_of_leads (h : Leads opener M N) : M.calls <:+ N.calls := by
  cases h with
  | body => exact List.suffix_cons _ _
  | _ => exact List.suffix_rfl

theorem calls_suffix_of_leadsTo (h : LeadsTo opener M N) : M.calls <:+ N.calls := by
  induction h with
  | refl => exact List.suffix_rfl
  | tail _ hstep ih => exact ih.trans (calls_suffix_of_leads hstep)

/-- Statements that leave a result pending end what they are part of, as long as no call lies in
between. -/
theorem ends_of_leads (h : Leads opener M N) (hcalls : N.calls = M.calls) (hne : M.calls ≠ [])
    (hN : Ends opener N m') (hpending : m'.pending.isSome = true) : Ends opener M m' := by
  cases h with
  | left | right | firstExpr | moreExprs | args | operands | bound | value => exact hN.elim
  | source | moreSources | program => exact absurd rfl hne
  | body => exact absurd hcalls (List.cons_ne_self _ _)
  | block => exact hN
  | loop he => exact bind_eq_some_iff.2 ⟨_, _, he, hN⟩
  | @pass n _ name _ ss _ i _ _ m₁ _ he hi hbind =>
    have hpass : passOnce opener (execAt opener n) name ss i m₁ = some ((), m') :=
      bind_eq_some_iff.2 ⟨_, _, hbind, hN⟩
    exact repeatFrom_of_pending he hi hpass hpending
  | nextPass he hi hpass hnone => exact (repeatFrom_of_none he hi hpass hnone).trans hN
  | test hl hr hholds =>
    refine bind_eq_some_iff.2 ⟨_, _, hl, bind_eq_some_iff.2 ⟨_, _, hr, ?_⟩⟩
    rw [if_pos hholds]
    exact hN
  | load hopener hparse htell =>
    simp only [Ends, Stmt.exec, loadSource, hopener, hparse]
    exact bind_eq_some_iff.2 ⟨_, _, htell, hN⟩
  | firstStmt =>
    show Stmt.execAll _ _ _ _ = _
    rw [execAll_cons, hN, Option.bind_some, if_pos hpending]
  | moreStmts hs hnone =>
    show Stmt.execAll _ _ _ _ = _
    rw [execAll_cons, hs, Option.bind_some, hnone]
    exact hN

theorem ends_of_leadsTo (h : LeadsTo opener M N) (hcalls : N.calls = M.calls) (hne : M.calls ≠ [])
    (hN : Ends opener N m') (hpending : m'.pending.isSome = true) : Ends opener M m' := by
  induction h using Relation.ReflTransGen.head_induction_on with
  | refl => exact hN
  | @head M M₁ hstep hrest ih =>
    -- calls are only ever added, so none can have been added on the way
    have hsuffix := calls_suffix_of_leadsTo hrest
    rw [hcalls] at hsuffix
    have hM₁ : M₁.calls = M.calls :=
      hsuffix.eq_of_length_le (calls_suffix_of_leads hstep).length_le
    exact ends_of_leads hstep hM₁ hne (ih (hcalls.trans hM₁.symm) (hM₁ ▸ hne)) hpending

/-- A `Value` in a number ends whatever was started around it in that number. -/
theorem ends_of_value {e : Expr} {v : Int64} {m₁ : Machine} (h : LeadsTo opener M N)
    (hcalls : N.calls = M.calls) (hne : M.calls ≠ []) (hact : N.activity = .stmt (.value e))
    (hnumber : N.machine.inNumber = true)
    (he : e.eval (execAt opener N.depth) N.machine = some (v, m₁)) :
    Ends opener M { m₁ with pending := some v } := by
  refine ends_of_leadsTo h hcalls hne ?_ rfl
  obtain ⟨n, cs, activity, m⟩ := N
  cases hact
  refine bind_eq_some_iff.2 ⟨m, m, rfl, ?_⟩
  rw [if_pos hnumber]
  exact bind_eq_some_iff.2 ⟨v, m₁, he, rfl⟩

end Ends

/-! ## Values end numbers -/

/-- How values and calls act at a moment. Lists of statements are any that could be run there. -/
structure Unwinds (opener : Opener) (M : Moment) : Prop where
  /-- No result is pending when something starts. -/
  quiet : M.machine.pending = none
  /-- The machine knows whether the innermost call is that of a number. -/
  inNumber : M.machine.inNumber = true ↔ M.calls.head? = some .number
  /-- Outside of numbers statements leave nothing pending, each of them is run, and what follows a
  list is run in full. -/
  outside : M.calls.head? ≠ some .number → ∀ ss ts : List Stmt,
    (∀ m', Stmt.execAll opener (execAt opener M.depth) ss M.machine = some ((), m') →
      m'.pending = none) ∧
    Stmt.execAll opener (execAt opener M.depth) ss M.machine =
      (ss.forM fun s => s.exec opener (execAt opener M.depth)) M.machine ∧
    Stmt.execAll opener (execAt opener M.depth) (ss ++ ts) M.machine =
      (Stmt.execAll opener (execAt opener M.depth) ss >>= fun _ =>
        Stmt.execAll opener (execAt opener M.depth) ts) M.machine
  /-- In a number what follows a list is skipped if the list has left a result pending, and run
  otherwise. -/
  inside : M.calls.head? = some .number → ∀ ss ts : List Stmt,
    Stmt.execAll opener (execAt opener M.depth) (ss ++ ts) M.machine =
      (Stmt.execAll opener (execAt opener M.depth) ss M.machine).bind fun r =>
        if r.2.pending.isSome then some ((), r.2)
        else Stmt.execAll opener (execAt opener M.depth) ts r.2
  /-- A `Value` that is come to in a number, with no call in between, ends what started there. -/
  value : M.calls.head? = some .number → ∀ N e v m₁, LeadsTo opener M N → N.calls = M.calls →
    N.activity = .stmt (.value e) → e.eval (execAt opener N.depth) N.machine = some (v, m₁) →
    Ends opener M { m₁ with pending := some v }
  /-- The call of a number returns what its body has left pending, or 0, and takes it away. -/
  number : ∀ word args d, findDefinition .number word.text M.machine = some (some d, M.machine) →
    ∀ v m', (Expr.call word args).eval (execAt opener M.depth) M.machine = some (v, m') ↔
      ∃ values m₁ m₂,
        Expr.evalAll (execAt opener M.depth) args M.machine = some (values, m₁) ∧
        execAt opener M.depth d.body (m₁.enter .number d.params values) = some ((), m₂) ∧
        v = m₂.pending.getD 0 ∧
        m' = { m₂ with
          pending := none, inNumber := M.machine.inNumber, scope := M.machine.scope }
  /-- The call of a command never keeps what follows it from being run. -/
  command : ∀ word args ss,
    Stmt.execAll opener (execAt opener M.depth) (.call word args :: ss) M.machine =
      ((Stmt.call word args).exec opener (execAt opener M.depth) >>= fun _ =>
        Stmt.execAll opener (execAt opener M.depth) ss) M.machine

/-- At every moment of every run, a `Value` ends the innermost number and nothing else. -/
theorem values_end_numbers (settings : Settings) (depth : Nat) (name : String) (program : Program)
    (M : Moment) (hM : Reached settings depth name program M) : Unwinds settings.opener M := by
  have hquiet := quiet_of_reached hM
  have hrun := execAt_keeps settings.opener M.depth
  refine ⟨hquiet.pending, hquiet.inNumber, fun hout ss ts => ?_, fun _ ss ts => ?_,
    fun hin N e v m₁ hN hcalls hact he => ?_, fun word args d hd v m' => ?_,
    fun word args ss => ?_⟩
  · have hfalse := hquiet.inNumber_eq_false hout
    refine ⟨fun m' h => (execAll_keeps hrun _ ss h).pending hfalse hquiet.pending, ?_, ?_⟩
    · exact execAll_eq_forM hrun hquiet.pending hfalse ss
    · exact execAll_append_of_outside hrun hquiet.pending hfalse ss ts
  · exact execAll_append hquiet.pending ss ts
  · have hnumber : N.machine.inNumber = true := by
      rw [(quiet_of_reached (hM.trans hN)).inNumber, hcalls, hin]
    refine ends_of_value hN hcalls (fun hnil => ?_) hact hnumber he
    rw [hnil] at hin
    cases hin
  · exact numberCall_eq_some_iff hrun hd
  · rw [execAll_cons]
    apply Option.bind_congr
    rintro ⟨u, m₁⟩ h₁
    simp only [(call_keeps hrun _ word args h₁).pending hquiet.pending]
    rfl

/-- The number `Find`, which looks for `X` among the numbers from 1 to 5, and a program that paints
with what it finds. -/
def findingProgram : Program :=
  let here : Position := .start ""
  let x : Expr := .name ⟨"X", here, here⟩
  let i : Expr := .name ⟨"I", here, here⟩
  [.define .number "Find" ["X"]
      [.loop "I" (.literal "1") (.literal "5") [.test .same i x [.value i]], .value (.literal "9")],
    .paper (.call ⟨"Find", here, here⟩ [.literal "3"])]

/-- The moment at which the body of `Find` starts. -/
theorem finding_unwinds : ∃ M : Moment, M.calls = [.number] ∧
    Reached { length := 1, library := [] } 3 "find" findingProgram M ∧ Unwinds .none M := by
  have hreached : ∃ M : Moment, M.calls = [.number] ∧
      Reached { length := 1, library := [] } 3 "find" findingProgram M := by
    refine ⟨_, ?_, .tail (.tail (.tail (.tail (.tail (.tail .refl (.program rfl))
      (.moreStmts rfl rfl)) .firstStmt) .operands) .firstExpr) (.body .number rfl rfl)⟩
    rfl
  obtain ⟨M, hcalls, hM⟩ := hreached
  exact ⟨M, hcalls, hM, values_end_numbers _ _ _ _ M hM⟩

end DrawLang
