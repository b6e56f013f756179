import DrawLang.Interpreter

/-!
# Calls leave nothing behind

Statements bind names in the innermost frame only, and a call opens a frame of its own and drops it
when its body has ended, however it has ended. So a call leaves its caller with the bindings it had.
What is pending is part of this: a result is left pending only inside a number, and the call of that
number takes it.

* `Keeps`: what every step does to the state, with one lemma for each way to build steps.
* `Contained`: what statements leave alone; `Restored`: what expressions and calls leave alone.
* `inFrame_restores`: a body in a frame of its own.
* `eval_keeps`, `exec_keeps`, `execAt_keeps`: expressions, statements, and bodies to any depth.
-/

namespace DrawLang

/-! ## What steps do to the state -/

/-- Whether a relation holds between the states before and after a step, if the step ends. -/
def Keeps (R : Machine → Machine → Prop) {α : Type} (x : Exec α) : Prop :=
  ∀ ⦃m a m'⦄, x m = some (a, m') → R m m'

/-- Relations that hold of any number of steps in a row if they hold of each. -/
class Chained (R : Machine → Machine → Prop) : Prop where
  refl : ∀ m, R m m
  trans : ∀ {m m₁ m'}, R m m₁ → R m₁ m' → R m m'

namespace Keeps

variable {R S : Machine → Machine → Prop} {α β : Type}

theorem mono {x : Exec α} (hx : Keeps R x) (h : ∀ {m m'}, R m m' → S m m') : Keeps S x :=
  fun _ _ _ hm => h (hx hm)

theorem failure : Keeps R (failure : Exec α) := by
  intro m a m' h
  cases h

theorem modify {f : Machine → Machine} (h : ∀ m, R m (f m)) : Keeps R (modify f) := by
  intro m u m' hm
  obtain rfl := modify_eq_some_iff.1 hm
  exact h m

variable [Chained R]

theorem pure (a : α) : Keeps R (Pure.pure a) := by
  intro m b m' h
  obtain ⟨-, rfl⟩ := pure_eq_some_iff.1 h
  exact Chained.refl m

theorem get : Keeps R MonadState.get := by
  intro m a m' h
  obtain ⟨-, rfl⟩ := get_eq_some_iff.1 h
  exact Chained.refl m

theorem bind {x : Exec α} {f : α → Exec β} (hx : Keeps R x) (hf : ∀ a, Keeps R (f a)) :
    Keeps R (x >>= f) := by
  intro m b m' h
  obtain ⟨a, m₁, ha, hb⟩ := bind_eq_some_iff.1 h
  exact Chained.trans (hx ha) (hf a hb)

end Keeps

/-! ## Expressions and statements -/

/-- What the evaluation of an expression leaves alone: all bindings, and which call is in progress.
No result is left pending. -/
structure Restored (m m' : Machine) : Prop where
  scope : m'.scope = m.scope
  inNumber : m'.inNumber = m.inNumber
  pending : m.pending = none → m'.pending = none

/-- What a statement leaves alone: all frames but the innermost, and which call is in progress. No
result is left pending outside of numbers. -/
structure Contained (m m' : Machine) : Prop where
  outer : m'.scope.frames.tail = m.scope.frames.tail
  inNumber : m'.inNumber = m.inNumber
  pending : m.inNumber = false → m.pending = none → m'.pending = none

instance : Chained Restored where
  refl _ := ⟨rfl, rfl, id⟩
  trans h h' := ⟨h'.scope.trans h.scope, h'.inNumber.trans h.inNumber, h'.pending ∘ h.pending⟩

instance : Chained Contained where
  refl _ := ⟨rfl, rfl, fun _ => id⟩
  trans h h' := ⟨h'.outer.trans h.outer, h'.inNumber.trans h.inNumber,
    fun hn hp => h'.pending (h.inNumber.trans hn) (h.pending hn hp)⟩

theorem Restored.contained {m m' : Machine} (h : Restored m m') : Contained m m' :=
  ⟨by rw [h.scope], h.inNumber, fun _ => h.pending⟩

theorem Keeps.contained {α : Type} {x : Exec α} (h : Keeps Restored x) : Keeps Contained x :=
  h.mono Restored.contained

/-! ### Elementary steps -/

theorem report_keeps (fault : Fault) : Keeps Restored (report fault) :=
  .modify fun _ => ⟨rfl, rfl, id⟩

theorem tell_keeps (event : Event) : Keeps Restored (tell event) :=
  .modify fun _ => ⟨rfl, rfl, id⟩

theorem draw_keeps (change : Canvas → Rgba → Canvas) : Keeps Restored (draw change) :=
  .bind (.modify fun _ => ⟨rfl, rfl, id⟩) fun _ => .modify fun _ => ⟨rfl, rfl, id⟩

theorem bindName_keeps (name : String) (binding : Binding) :
    Keeps Contained (bindName name binding) :=
  .modify fun m => ⟨m.scope.tail_frames_set name binding, rfl, fun _ => id⟩

theorem isPending_keeps : Keeps Restored isPending :=
  .bind .get fun _ => .pure _

theorem readName_keeps (word : Word) : Keeps Restored (readName word) := by
  refine .bind .get fun m => ?_
  split
  · exact .pure _
  · exact .bind (report_keeps _) fun _ => .pure _

theorem operate_keeps (op : Operator) (a b : Int64) (place : Position) :
    Keeps Restored (operate op a b place) := by
  unfold operate
  split
  · exact .pure _
  · exact .bind (report_keeps _) fun _ => .pure _

theorem findDefinition_keeps (role : Role) (name : String) :
    Keeps Restored (findDefinition role name) :=
  .bind .get fun _ => .pure _

/-! ### Calls -/

/-- A body that is contained in its frame leaves the frames of its caller alone. A result can be
left pending if the body is that of a number. -/
theorem inFrame_restores {b : Bool} {params : List String} {values : List Int64}
    {body : Exec Unit} (hbody : Keeps Contained body) {m m' : Machine} {u : Unit}
    (h : inFrame b params values body m = some (u, m')) :
    m'.scope = m.scope ∧ m'.inNumber = m.inNumber ∧
      (b = false → m.pending = none → m'.pending = none) := by
  obtain ⟨_, m₁, h₁, h⟩ := bind_eq_some_iff.1 h
  obtain rfl := modify_eq_some_iff.1 h₁
  obtain ⟨_, m₂, h₂, h⟩ := bind_eq_some_iff.1 h
  obtain ⟨rfl, rfl⟩ := get_eq_some_iff.1 h₂
  obtain ⟨_, m₃, h₃, h⟩ := bind_eq_some_iff.1 h
  obtain rfl := modify_eq_some_iff.1 h₃
  obtain ⟨_, m₄, h₄, h⟩ := bind_eq_some_iff.1 h
  obtain rfl := modify_eq_some_iff.1 h
  have hcontained := hbody h₄
  refine ⟨?_, rfl, hcontained.pending⟩
  apply Scope.pop_of_tail
  rw [hcontained.outer]
  show (m.scope.push.setAll params values).frames.tail = m.scope.frames
  rw [Scope.tail_frames_setAll, Scope.frames_push, List.tail_cons]

theorem commandCall_keeps {params : List String} {values : List Int64} {body : Exec Unit}
    (hbody : Keeps Contained body) : Keeps Restored (inFrame false params values body) := by
  intro m u m' h
  obtain ⟨hscope, hnumber, hpending⟩ := inFrame_restores hbody h
  exact ⟨hscope, hnumber, hpending rfl⟩

/-- The call of a number takes what its body has left pending. -/
theorem numberCall_keeps {params : List String} {values : List Int64} {body : Exec Unit}
    (hbody : Keeps Contained body) :
    Keeps Restored (inFrame true params values body >>= fun _ => takePending) := by
  intro m n m' h
  obtain ⟨_, m₁, h₁, h⟩ := bind_eq_some_iff.1 h
  obtain ⟨hscope, hnumber, -⟩ := inFrame_restores hbody h₁
  obtain ⟨_, m₂, h₂, h⟩ := bind_eq_some_iff.1 h
  obtain ⟨rfl, rfl⟩ := get_eq_some_iff.1 h₂
  obtain ⟨_, m₃, h₃, h⟩ := bind_eq_some_iff.1 h
  obtain rfl := modify_eq_some_iff.1 h₃
  obtain ⟨-, rfl⟩ := pure_eq_some_iff.1 h
  exact ⟨hscope, hnumber, fun _ => rfl⟩

/-! ### Trees -/

section Trees

variable {run : BodyRunner}

mutual

/-- Expressions restore what they find, if bodies are contained in their frames. -/
theorem eval_keeps (hrun : ∀ body, Keeps Contained (run body)) :
    ∀ e : Expr, Keeps Restored (e.eval run)
  | .literal _ => .pure _
  | .name word => readName_keeps word
  | .binary op l r place => by
    apply Keeps.bind (eval_keeps hrun l)
    intro a
    apply Keeps.bind (eval_keeps hrun r)
    intro b
    exact operate_keeps op a b place
  | .call word args => by
    apply Keeps.bind (findDefinition_keeps _ _)
    intro d
    cases d with
    | none => exact .bind (report_keeps _) fun _ => .pure _
    | some d => exact .bind (evalAll_keeps hrun args) fun _ => numberCall_keeps (hrun d.body)

theorem evalAll_keeps (hrun : ∀ body, Keeps Contained (run body)) :
    ∀ es : List Expr, Keeps Restored (Expr.evalAll run es)
  | [] => .pure _
  | e :: es => by
    apply Keeps.bind (eval_keeps hrun e)
    intro n
    apply Keeps.bind (evalAll_keeps hrun es)
    intro ns
    exact .pure _

end

theorem repeatFrom_keeps {bound : Exec Int64} {pass : Int64 → Exec Unit}
    (hbound : Keeps Contained bound) (hpass : ∀ i, Keeps Contained (pass i)) (n : Nat)
    (i : Int64) : Keeps Contained (repeatFrom bound pass n i) := by
  induction n generalizing i with
  | zero =>
    apply Keeps.bind hbound
    intro last
    split
    · apply Keeps.bind (hpass i)
      intro _
      apply Keeps.bind isPending_keeps.contained
      intro pending
      split <;> exact .pure _
    · exact .pure _
  | succ n ih =>
    apply Keeps.bind hbound
    intro last
    split
    · apply Keeps.bind (hpass i)
      intro _
      apply Keeps.bind isPending_keeps.contained
      intro pending
      split
      · exact .pure _
      · exact ih (i + 1)
    · exact .pure _

theorem loadSource_keeps (hrun : ∀ body, Keeps Contained (run body)) (opener : Opener)
    (path : Word) : Keeps Contained (loadSource opener run path) := by
  unfold loadSource
  split
  · exact (report_keeps _).contained
  · exact (report_keeps _).contained
  · split
    · exact (report_keeps _).contained
    · exact .bind (tell_keeps _).contained fun _ => hrun _

/-- Calls of commands restore what they find, as expressions do. -/
theorem call_keeps (hrun : ∀ body, Keeps Contained (run body)) (opener : Opener) (word : Word)
    (args : List Expr) : Keeps Restored ((Stmt.call word args).exec opener run) := by
  apply Keeps.bind (findDefinition_keeps _ _)
  intro d
  cases d with
  | none => exact report_keeps _
  | some d => exact .bind (evalAll_keeps hrun args) fun _ => commandCall_keeps (hrun d.body)

/-- A `Value` leaves a result pending inside a number only. -/
theorem value_keeps (hrun : ∀ body, Keeps Contained (run body)) (opener : Opener)
    (result : Expr) : Keeps Contained ((Stmt.value result).exec opener run) := by
  intro m u m' h
  obtain ⟨_, m₁, h₁, h⟩ := bind_eq_some_iff.1 h
  obtain ⟨rfl, rfl⟩ := get_eq_some_iff.1 h₁
  cases hnumber : m.inNumber with
  | false =>
    simp only [hnumber] at h
    exact (tell_keeps _).contained h
  | true =>
    simp only [hnumber] at h
    obtain ⟨n, m₂, h₂, h⟩ := bind_eq_some_iff.1 h
    obtain rfl := modify_eq_some_iff.1 h
    have heval := eval_keeps hrun result h₂
    refine ⟨by rw [← heval.scope], heval.inNumber, fun hfalse => ?_⟩
    rw [hnumber] at hfalse
    cases hfalse

mutual

/-- Statements are contained in their frame, if bodies are contained in theirs. -/
theorem exec_keeps (hrun : ∀ body, Keeps Contained (run body)) (opener : Opener) :
    ∀ s : Stmt, Keeps Contained (s.exec opener run)
  | .paper ink => .bind (eval_keeps hrun ink).contained fun _ => (draw_keeps _).contained
  | .pen ink => by
    apply Keeps.bind (eval_keeps hrun ink).contained
    intro n
    exact .modify fun _ => ⟨rfl, rfl, fun _ => id⟩
  | .line x₁ y₁ x₂ y₂ => by
    apply Keeps.bind (eval_keeps hrun x₁).contained
    intro _
    apply Keeps.bind (eval_keeps hrun y₁).contained
    intro _
    apply Keeps.bind (eval_keeps hrun x₂).contained
    intro _
    apply Keeps.bind (eval_keeps hrun y₂).contained
    intro _
    exact .bind .get fun _ => (draw_keeps _).contained
  | .assign name result =>
    .bind (eval_keeps hrun result).contained fun n => bindName_keeps name (.value n)
  | .setPixel x y ink => by
    apply Keeps.bind (eval_keeps hrun x).contained
    intro _
    apply Keeps.bind (eval_keeps hrun y).contained
    intro _
    apply Keeps.bind (eval_keeps hrun ink).contained
    intro _
    exact .bind .get fun _ => (draw_keeps _).contained
  | .readPixel name x y => by
    apply Keeps.bind (eval_keeps hrun x).contained
    intro _
    apply Keeps.bind (eval_keeps hrun y).contained
    intro _
    exact .bind .get fun _ => bindName_keeps name _
  | .block body => execAll_keeps hrun opener body
  | .loop name first last body => by
    apply Keeps.bind (eval_keeps hrun first).contained
    intro i
    refine repeatFrom_keeps (eval_keeps hrun last).contained (fun i => ?_) _ i
    exact .bind (bindName_keeps name (.value i)) fun _ => execAll_keeps hrun opener body
  | .test relation left right body => by
    apply Keeps.bind (eval_keeps hrun left).contained
    intro a
    apply Keeps.bind (eval_keeps hrun right).contained
    intro b
    split
    · exact execAll_keeps hrun opener body
    · exact .pure _
  | .define role name params body => bindName_keeps name _
  | .call word args => (call_keeps hrun opener word args).contained
  | .value result => value_keeps hrun opener result
  | .load path => loadSource_keeps hrun opener path

theorem execAll_keeps (hrun : ∀ body, Keeps Contained (run body)) (opener : Opener) :
    ∀ ss : List Stmt, Keeps Contained (Stmt.execAll opener run ss)
  | [] => .pure _
  | s :: ss => by
    apply Keeps.bind (exec_keeps hrun opener s)
    intro _
    apply Keeps.bind isPending_keeps.contained
    intro _
    split
    · exact .pure _
    · exact execAll_keeps hrun opener ss

end

end Trees

/-- Bodies are contained in their frames, however deep they go. -/
theorem execAt_keeps (opener : Opener) (n : Nat) (body : List Stmt) :
    Keeps Contained (execAt opener n body) := by
  induction n generalizing body with
  | zero => exact .failure
  | succ n ih => exact execAll_keeps ih opener body

/-! ## Calls -/

/-- In a state in which no result is pending, an expression or the call of a command leaves all
bindings as they were, and so which call is in progress, and no result pending. Any statement leaves
as they were the number of frames, all frames but the innermost, and which call is in progress. -/
theorem calls_leave_bindings (opener : Opener) (depth : Nat) (m : Machine)
    (hpending : m.pending = none) :
    (∀ (e : Expr) (n : Int64) (m' : Machine), e.eval (execAt opener depth) m = some (n, m') →
      m'.scope = m.scope ∧ m'.inNumber = m.inNumber ∧ m'.pending = none) ∧
    (∀ (word : Word) (args : List Expr) (m' : Machine),
      (Stmt.call word args).exec opener (execAt opener depth) m = some ((), m') →
      m'.scope = m.scope ∧ m'.inNumber = m.inNumber ∧ m'.pending = none) ∧
    ∀ (s : Stmt) (m' : Machine), s.exec opener (execAt opener depth) m = some ((), m') →
      m'.scope.frames.length = m.scope.frames.length ∧
      m'.scope.frames.tail = m.scope.frames.tail ∧ m'.inNumber = m.inNumber := by
  have hrun := execAt_keeps opener depth
  refine ⟨fun e n m' h => ?_, fun word args m' h => ?_, fun s m' h => ?_⟩
  · obtain ⟨hscope, hnumber, hnone⟩ := eval_keeps hrun e h
    exact ⟨hscope, hnumber, hnone hpending⟩
  · obtain ⟨hscope, hnumber, hnone⟩ := call_keeps hrun opener word args h
    exact ⟨hscope, hnumber, hnone hpending⟩
  · obtain ⟨houter, hnumber, -⟩ := exec_keeps hrun opener s h
    exact ⟨Scope.length_frames_of_tail houter, houter, hnumber⟩

/-- A machine on which `A` is 5, and `F` a number with a parameter `A`, which sets `A` and `B` to
the sum of `A` and `A` before it gives `A` as its result. -/
def doublingMachine : Machine :=
  let here : Position := .start ""
  let a : Expr := .name ⟨"A", here, here⟩
  let sum : Expr := .binary .add a a here
  let double : Definition := ⟨"F", ["A"], [.assign "A" sum, .assign "B" sum, .value a]⟩
  { Machine.start 1 (.new false 0 1) with
    scope := ⟨[], [("A", .value 5), ("F", .routine .number double)]⟩ }

/-- The caller still has its own `A`, and no `B`. -/
theorem doubling_leaves_bindings : doublingMachine.pending = none ∧ ∃ m',
    (Expr.call ⟨"F", .start "", .start ""⟩ [.name ⟨"A", .start "", .start ""⟩]).eval
      (execAt .none 1) doublingMachine = some (10, m') ∧
    m'.scope = doublingMachine.scope ∧ m'.inNumber = false ∧ m'.pending = none := by
  refine ⟨rfl, doublingMachine, ?_⟩
  have hrun : (Expr.call ⟨"F", .start "", .start ""⟩ [.name ⟨"A", .start "", .start ""⟩]).eval
      (execAt .none 1) doublingMachine = some (10, doublingMachine) := by rfl
  exact ⟨hrun, (calls_leave_bindings .none 1 doublingMachine rfl).1 _ _ _ hrun⟩

end DrawLang
