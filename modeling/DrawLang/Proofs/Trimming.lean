import DrawLang.Proofs.Inclusion

/-!
# Values that do nothing

A `Value` gives a number its result and ends it, so what follows in its list is never run. In a
command, and outside of definitions, it is told of and nothing else comes of it. Which of these it
is shows in the text, by the innermost definition around it, though the interpreter asks for the
innermost call: the body of a definition is run in calls of its role only. So both kinds of
statements can be left out.

* `Stmt.trimAll`: statements without those that do nothing.
* `trimmings`: a run beside one that leaves them out.
* `execAll_trimmed`: trimmed statements go in step with the statements.
* `rel_run?_trimmed`: so do whole programs, after libraries that are trimmed too.
-/

namespace DrawLang

/-! ## What is left out -/

mutual

/-- A statement without the statements in it that do nothing. The role is that of the innermost
definition around it; outside of definitions, that of commands. -/
def Stmt.trim (role : Role) : Stmt → Stmt
  | .block body => .block (Stmt.trimAll role body)
  | .loop name first last body => .loop name first last (Stmt.trimAll role body)
  | .test relation left right body => .test relation left right (Stmt.trimAll role body)
  | .define inner name params body => .define inner name params (Stmt.trimAll inner body)
  | s => s

def Stmt.trimAll (role : Role) : List Stmt → List Stmt
  | [] => []
  | .value result :: ss =>
    match role with
    | .number => [.value result]
    | .command => Stmt.trimAll role ss
  | s :: ss => s.trim role :: Stmt.trimAll role ss

end

/-- A list begins with a value, or it is trimmed statement by statement. -/
theorem trimAll_cons (role : Role) (s : Stmt) : (∃ result, s = .value result) ∨
    ∀ ss, Stmt.trimAll role (s :: ss) = s.trim role :: Stmt.trimAll role ss := by
  cases s with
  | value result => exact .inl ⟨result, rfl⟩
  | _ => exact .inr fun _ => rfl

/-! ## Runs without it -/

/-- A run beside one of the same tree in which bodies can be trimmed. What is told is not
compared. -/
def trimmings : Comparison where
  place := id
  Bodies role body body' := body' = body ∨ body' = Stmt.trimAll role body
  Faults := Eq
  Records r _ r' _ := r = r'
  bodies h body := .inl (eq_relocateAll h body).symm
  report := @push_of_relocate_id
  tell _ _ _ h := h
  capture c h := capture_congr c h

section Steps

variable {short : Prop} {opener : Opener} {run run' : BodyRunner}

/-- In a number, a value leaves a result pending. -/
theorem value_inStep (h : trimmings.Tracks short run run') (result : Expr) :
    InStep short (trimmings.Within .number)
      (fun m m' => trimmings.Inside .number m m' ∧ m.pending ≠ none)
      ((Stmt.value result).exec opener run) ((Stmt.value result).exec opener run') := by
  refine .get fun {m m'} hm => ?_
  rw [← hm.inNumber, hm.inside]
  have heval := h.eval trimmings.ignores_id result
  rw [Expr.relocate_id] at heval
  refine .bind (heval.within .number (eval_keeps h.keeps result)) fun n => ?_
  exact .modify fun hm => ⟨⟨{ hm with pending := rfl }, hm.inside⟩, Option.some_ne_none n⟩

/-- What follows a value in a number is skipped. -/
theorem value_cons_inStep (h : trimmings.Tracks short run run') (result : Expr)
    (ss ss' : List Stmt) : InStep short (trimmings.Within .number) (trimmings.Inside .number)
      (Stmt.execAll opener run (.value result :: ss))
      (Stmt.execAll opener run' (.value result :: ss')) := by
  refine .bind (value_inStep h result) fun _ => ?_
  have hskip : InStep short (fun _ _ => False)
      (fun m m' => trimmings.Inside .number m m' ∧ m.pending ≠ none)
      (Stmt.execAll opener run ss) (Stmt.execAll opener run' ss') := fun _ _ hfalse => hfalse.elim
  exact (hskip.unlessPending (fun hm => hm.1.pending) fun hm hnone => hm.2 hnone).mono id And.left

/-- Outside of numbers a value is told of, and the run goes on. -/
theorem value_left_inStep {S : Machine → Machine → Prop} {result : Expr} {ss : List Stmt}
    {y : Exec Unit}
    (h : InStep short (trimmings.Within .command) S (Stmt.execAll opener run ss) y) :
    InStep short (trimmings.Within .command) S
      (Stmt.execAll opener run (.value result :: ss)) y := by
  intro m m' hm
  let told : Machine := { m with events := m.events.push (.valueIgnored result) }
  have hnumber : ¬ m.inNumber = true := by simp [hm.inside]
  have hnothing : ¬ told.pending.isSome = true := by simp [told, hm.nothing]
  have hvalue : (Stmt.value result).exec opener run m = some ((), told) := by
    show (if m.inNumber = true then _ else tell (.valueIgnored result) : Exec Unit) m = _
    rw [if_neg hnumber]
    rfl
  rw [execAll_cons, hvalue, Option.bind_some, if_neg hnothing]
  exact h { hm with }

/-- A statement goes in step with itself in a call in any role. -/
theorem exec_inside (h : trimmings.Tracks short run run') (role : Role) (s : Stmt) :
    InStep short (trimmings.Within role) (trimmings.Inside role) (s.exec opener run)
      (s.exec opener run') := by
  have hs := h.exec trimmings.ignores_id opener s
  rw [Stmt.relocate_id] at hs
  exact (hs.mono Comparison.Within.toReady id).inside (exec_keeps h.keeps opener s)

mutual

/-- A statement goes in step with what is left of it, in a call in the role for which it is
trimmed. -/
theorem exec_trimmed (h : trimmings.Tracks short run run') (role : Role) : ∀ s : Stmt,
    InStep short (trimmings.Within role) (trimmings.Inside role) (s.exec opener run)
      ((s.trim role).exec opener run')
  | .block body => execAll_trimmed h role body
  | .loop name first last body => by
    have hloop := h.loop_inside trimmings.ignores_id role name first last
      (execAll_trimmed h role body)
    rw [Expr.relocate_id, Expr.relocate_id] at hloop
    exact hloop
  | .test relation left right body => by
    have htest := h.test_inside trimmings.ignores_id role relation left right
      (execAll_trimmed h role body)
    rw [Expr.relocate_id, Expr.relocate_id] at htest
    exact htest
  | .define inner name params body => by
    have hbound : trimmings.Bound (.routine inner ⟨name, params, body⟩)
        (.routine inner ⟨name, params, Stmt.trimAll inner body⟩) :=
      .routine inner name params (.inr rfl)
    exact ((bindName_inStep name hbound).alike.mono Comparison.Within.toReady id).inside
      (bindName_keeps _ _)
  | .paper _ | .pen _ | .line _ _ _ _ | .assign _ _ | .setPixel _ _ _ | .readPixel _ _ _
  | .call _ _ | .value _ | .load _ => exec_inside h role _

/-- Statements go in step with what is left of them, in a call in the role for which they are
trimmed. -/
theorem execAll_trimmed (h : trimmings.Tracks short run run') (role : Role) : ∀ ss : List Stmt,
    InStep short (trimmings.Within role) (trimmings.Inside role) (Stmt.execAll opener run ss)
      (Stmt.execAll opener run' (Stmt.trimAll role ss))
  | [] => (InStep.pure ()).mono id Comparison.Within.toInside
  | s :: ss => by
    have hs := exec_trimmed h role s
    have hss := execAll_trimmed h role ss
    rcases trimAll_cons role s with ⟨result, rfl⟩ | htrim
    · cases role with
      | number => exact value_cons_inStep h result ss []
      | command => exact value_left_inStep hss
    · rw [htrim]
      exact .bind hs fun _ => unlessPending_inside hss

end

/-- To a depth, bodies go in step with what is left of them. -/
theorem tracks_trimmed (opener : Opener) (n : Nat) :
    trimmings.Tracks short (execAt opener n) (execAt opener n) := by
  refine .execAt_of_execAll opener (fun _ _ h role body body' hbody => ?_) n
  rcases hbody with rfl | rfl
  · have hself := h.execAll trimmings.ignores_id opener body'
    rw [Stmt.relocateAll_id] at hself
    exact hself.mono Comparison.Within.toReady id
  · exact (execAll_trimmed h role body).mono id Comparison.Inside.toAlike

end Steps

/-! ## Outcomes -/

/-- Whether the program of a text is that of another one, trimmed. If the other one cannot be read,
neither can the text, for the same reason. -/
def TrimsTo (name text text' : String) : Prop :=
  parse? name text' = (parse? name text).map (Stmt.trimAll .command)

def Library.TrimsTo : Library → Library → Prop :=
  List.Forall₂ fun source source' =>
    source'.name = source.name ∧ DrawLang.TrimsTo source.name source.text source'.text

theorem sources_of_trimsTo {library library' : Library} (h : library.TrimsTo library') :
    List.Forall₂ trimmings.Sources library library' := by
  refine h.imp fun source source' hsource => ⟨hsource.1.symm, ?_⟩
  obtain ⟨hname, htext⟩ := hsource
  rw [hname, htext]
  cases parse? source.name source.text with
  | error place => exact .error place
  | ok p => exact .ok (.inr rfl)

/-- A program and what is left of it, after a library and what is left of that. -/
theorem rel_run?_trimmed (settings : Settings) {library' : Library}
    (hlibrary : settings.library.TrimsTo library') (depth : Nat) (name : String) (p : Program) :
    Option.Rel SameResult (p.run? settings depth name)
      (Program.run? { settings with library := library' } depth name
        (Stmt.trimAll .command p)) := by
  let settings' : Settings := { settings with library := library' }
  have hstart : trimmings.Alike (settings.start name p)
      (settings'.start name (Stmt.trimAll .command p)) := .start rfl rfl rfl
  have hend : ∀ m m', trimmings.Alike m m' →
      SameResult (.ofMachine settings m) (.ofMachine settings' m') :=
    fun m m' hm => sameResult_ofMachine rfl hm.canvas hm.records hm.faults
  have htracks : trimmings.Tracks False (execAt settings.opener depth)
      (execAt settings'.opener depth) := tracks_trimmed settings.opener depth
  have hp : trimmings.Bodies .command p (Stmt.trimAll .command p) := .inr rfl
  have hruns := Comparison.rel_run?_of_sources htracks (sources_of_trimsTo hlibrary) hp Iff.rfl
    hstart hend
  exact hruns.resolve_left And.left

end DrawLang
