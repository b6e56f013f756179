import DrawLang.Proofs.Moments
import DrawLang.Proofs.Pointing

/-!
# Where faults come from

A fault that is listed in a run is one that some tree can list by itself: a tree of the program, of
a source of the library, or of a text that has been loaded on the way. The trees that are run are
those at hand, the bodies of definitions that are bound, and what is loaded at the moments that are
reached. So all faults of a run are of a kind, if those of the texts that it comes by are.

* `Machine.FaultsIn`: all faults are of a kind that are listed, or that bound bodies can list.
* `Activity.FaultsIn`: all faults are of a kind that what starts at a moment can list.
* `faultsIn_invariant`: a run adds no others, unless it loads texts that do.
* `faultsIn_of_run`: the faults of a whole run.
-/

namespace DrawLang

/-! ## States -/

section States

variable (opener : Opener) (G : Fault → Prop)

def Binding.FaultsIn : Binding → Prop
  | .value _ => True
  | .routine _ d => Stmt.AllFaultsIn opener G d.body

def Scope.FaultsIn (s : Scope) : Prop :=
  ∀ frame ∈ s.frames, ∀ e ∈ frame, e.2.FaultsIn opener G

/-- Whether the faults that are listed are of a kind, and those of all bodies that are bound. -/
structure Machine.FaultsIn (m : Machine) : Prop where
  faults : ∀ f ∈ m.faults, G f
  scope : m.scope.FaultsIn opener G

end States

section Scopes

variable {opener : Opener} {G : Fault → Prop} {s : Scope}

theorem eq_or_mem_of_mem_set {frame : Bindings} {name : String} {b : Binding}
    {e : String × Binding} (h : e ∈ Bindings.set frame name b) : e = (name, b) ∨ e ∈ frame := by
  induction frame with
  | nil => exact .inl (List.mem_singleton.1 h)
  | cons e' rest ih =>
    unfold Bindings.set at h
    split at h
    · rcases List.mem_cons.1 h with rfl | h
      · exact .inl rfl
      · exact .inr (List.mem_cons_of_mem _ h)
    · rcases List.mem_cons.1 h with rfl | h
      · exact .inr List.mem_cons_self
      · exact (ih h).imp_right (List.mem_cons_of_mem _)

namespace Scope.FaultsIn

theorem get? (hs : s.FaultsIn opener G) {name : String} {b : Binding}
    (h : s.get? name = some b) : b.FaultsIn opener G := by
  obtain ⟨frame, hframe, hlookup⟩ := List.exists_of_findSome?_eq_some h
  obtain ⟨l₁, l₂, rfl, -⟩ := List.lookup_eq_some_iff.1 hlookup
  exact hs _ hframe (name, b) (by simp)

theorem set (hs : s.FaultsIn opener G) (name : String) {b : Binding} (hb : b.FaultsIn opener G) :
    (s.set name b).FaultsIn opener G := by
  have hset {frame : Bindings} (hframe : frame ∈ s.frames) :
      ∀ e ∈ Bindings.set frame name b, e.2.FaultsIn opener G := by
    intro e he
    rcases eq_or_mem_of_mem_set he with rfl | he
    · exact hb
    · exact hs frame hframe e he
  obtain ⟨inner, root⟩ := s
  cases inner with
  | nil => exact List.forall_mem_singleton.2 (hset List.mem_cons_self)
  | cons frame outer =>
    have houter : ∀ frame ∈ outer ++ [root], ∀ e ∈ frame, e.2.FaultsIn opener G :=
      fun frame hframe => hs frame (List.mem_cons_of_mem _ hframe)
    exact List.forall_mem_cons.2 ⟨hset List.mem_cons_self, houter⟩

theorem push (hs : s.FaultsIn opener G) : s.push.FaultsIn opener G :=
  List.forall_mem_cons.2 ⟨nofun, hs⟩

theorem pop (hs : s.FaultsIn opener G) : s.pop.FaultsIn opener G := by
  obtain ⟨inner, root⟩ := s
  cases inner with
  | nil => exact hs
  | cons frame outer => exact (List.forall_mem_cons.1 hs).2

theorem setAll (hs : s.FaultsIn opener G) (params : List String) (values : List Int64) :
    (s.setAll params values).FaultsIn opener G := by
  unfold Scope.setAll
  induction params.zip values generalizing s with
  | nil => exact hs
  | cons p ps ih => exact ih (hs.set p.1 trivial)

end Scope.FaultsIn

end Scopes

namespace Machine.FaultsIn

variable {opener : Opener} {G : Fault → Prop} {m : Machine}

theorem report (hm : m.FaultsIn opener G) {f : Fault} (hf : G f) :
    Machine.FaultsIn opener G { m with faults := m.faults.push f } := by
  refine ⟨fun f' hf' => ?_, hm.scope⟩
  rcases Array.mem_push.1 hf' with hf' | rfl
  · exact hm.faults f' hf'
  · exact hf

/-- A definition that is found is bound somewhere. -/
theorem definition (hm : m.FaultsIn opener G) {role : Role} {name : String} {d : Definition}
    (h : findDefinition role name m = some (some d, m)) : Stmt.AllFaultsIn opener G d.body := by
  obtain ⟨hd, -⟩ := Prod.mk.inj (Option.some.inj h)
  obtain ⟨b, hb, hd⟩ := Option.bind_eq_some_iff.1 hd
  have hbound := hm.scope.get? hb
  cases b with
  | value n => cases hd
  | routine r d' =>
    simp only [Binding.definition?] at hd
    split at hd
    · cases hd
      exact hbound
    · cases hd

end Machine.FaultsIn

/-! ## Moments -/

def Activity.FaultsIn (opener : Opener) (G : Fault → Prop) : Activity → Prop
  | .expr e => e.FaultsIn G
  | .exprs es => Expr.AllFaultsIn G es
  | .stmt s => s.FaultsIn opener G
  | .stmts ss => Stmt.AllFaultsIn opener G ss
  | .passes _ last body _ _ => last.FaultsIn G ∧ Stmt.AllFaultsIn opener G body
  | .sources library program =>
    (∀ source ∈ library, TextFaultsIn opener G source.name source.text) ∧
      Stmt.AllFaultsIn opener G program

/-- Whether all faults are of a kind that are listed at a moment, that bound bodies can list there,
and that can be listed for what starts there. -/
structure Moment.FaultsIn (opener : Opener) (G : Fault → Prop) (M : Moment) : Prop where
  activity : M.activity.FaultsIn opener G
  machine : M.machine.FaultsIn opener G

section Moments

variable {opener : Opener} {G : Fault → Prop} {M₀ M N : Moment}

/-- Whether the faults of all texts are of a kind that are loaded from some moment on. -/
def LoadsFaultsIn (opener : Opener) (G : Fault → Prop) (M₀ : Moment) : Prop :=
  ∀ N path bytes, LeadsTo opener M₀ N → N.activity = .stmt (.load path) →
    opener path.text = .contents bytes →
    TextFaultsIn opener G path.text (Text.decode bytes)

theorem operands_faultsIn {s : Stmt} (h : s.FaultsIn opener G) :
    Expr.AllFaultsIn G s.operands := by
  cases s <;> simp_all [Stmt.FaultsIn, Stmt.operands, Expr.AllFaultsIn]

theorem textFaultsIn_ok {file text : String} {program : Program}
    (h : TextFaultsIn opener G file text) (hparse : parse? file text = .ok program) :
    Stmt.AllFaultsIn opener G program := by
  unfold TextFaultsIn at h
  rwa [hparse] at h

theorem textFaultsIn_error {file text : String} {place : Position}
    (h : TextFaultsIn opener G file text) (hparse : parse? file text = .error place) :
    G (.misplacedToken place) := by
  unfold TextFaultsIn at h
  rwa [hparse] at h

/-- What follows from a moment is a part of what starts there, the body of a definition that is
bound, or a text that is loaded. -/
theorem activity_faultsIn_of_leads (hloads : LoadsFaultsIn opener G M₀)
    (hM₀ : LeadsTo opener M₀ M) (hM : M.FaultsIn opener G) (h : Leads opener M N) :
    N.activity.FaultsIn opener G := by
  have hactivity := hM.activity
  cases h with
  | left => exact hactivity.1
  | right _ => exact hactivity.2.1
  | firstExpr => exact hactivity.1
  | moreExprs _ => exact hactivity.2
  | args role _ => cases role <;> exact hactivity.2
  | body _ hd _ => exact hM.machine.definition hd
  | operands => exact operands_faultsIn hactivity
  | block => exact hactivity
  | loop _ => exact hactivity.2
  | bound => exact hactivity.1
  | pass _ _ _ => exact hactivity.2
  | nextPass _ _ _ _ => exact hactivity
  | test _ _ _ => exact hactivity.2.2
  | value _ => exact hactivity
  | load hopener hparse _ => exact textFaultsIn_ok (hloads _ _ _ hM₀ rfl hopener) hparse
  | firstStmt => exact hactivity.1
  | moreStmts _ _ => exact hactivity.2
  | source hparse => exact textFaultsIn_ok (hactivity.1 _ List.mem_cons_self) hparse
  | moreSources _ =>
    exact ⟨fun source hsource => hactivity.1 source (List.mem_cons_of_mem _ hsource), hactivity.2⟩
  | program _ => exact hactivity.2

/-- A fault that is listed at a moment is one that what starts there can list. -/
theorem fault_of_lists (hloads : LoadsFaultsIn opener G M₀) (hM₀ : LeadsTo opener M₀ M)
    (hM : M.FaultsIn opener G) {f : Fault} (h : M.activity.Lists opener f) : G f := by
  obtain ⟨n, cs, activity, m⟩ := M
  have hactivity := hM.activity
  cases h with
  | name => exact hactivity
  | quotient => exact hactivity.2.2 rfl
  | call role => cases role <;> exact hactivity.1
  | unopened hopener =>
    refine hactivity _ ?_
    simp [Opener.refusal?, hopener]
  | unreadable hopener =>
    refine hactivity _ ?_
    simp [Opener.refusal?, hopener]
  | load hopener hparse => exact textFaultsIn_error (hloads _ _ _ hM₀ rfl hopener) hparse
  | source hparse => exact textFaultsIn_error (hactivity.1 _ List.mem_cons_self) hparse

/-- If the faults of all texts that are loaded are of a kind, moments pass on that all faults are. -/
theorem faultsIn_invariant (hloads : LoadsFaultsIn opener G M₀) :
    Invariant opener (fun M => LeadsTo opener M₀ M ∧ M.FaultsIn opener G)
      (Machine.FaultsIn opener G) where
  holds hM := hM.2.machine
  leads hM h hN := ⟨hM.1.tail h, activity_faultsIn_of_leads hloads hM.1 hM.2 h, hN⟩
  report hM h hm := hm.report (fault_of_lists hloads hM.1 hM.2 h)
  draw _ hm h _ := by
    obtain ⟨_, _, h₁, h⟩ := bind_eq_some_iff.1 h
    obtain rfl := modify_eq_some_iff.1 h₁
    obtain rfl := modify_eq_some_iff.1 h
    exact ⟨hm.faults, hm.scope⟩
  define hM := ⟨hM.2.machine.faults, hM.2.machine.scope.set _ hM.2.activity⟩
  bindValue hm name n := ⟨hm.faults, hm.scope.set name trivial⟩
  tell hm _ := ⟨hm.faults, hm.scope⟩
  usePen hm _ := ⟨hm.faults, hm.scope⟩
  settle hm _ := ⟨hm.faults, hm.scope⟩
  enter hm _ params values := ⟨hm.faults, hm.scope.push.setAll params values⟩
  leave hm _ := ⟨hm.faults, hm.scope.pop⟩

end Moments

/-! ## Whole runs -/

/-- The faults of a run are of a kind, if those of the program, of the library, and of all texts
that are loaded are. -/
theorem faultsIn_of_run {G : Fault → Prop} {settings : Settings} {depth : Nat} {name : String}
    {program : Program} {o : Outcome} (hprogram : Stmt.AllFaultsIn settings.opener G program)
    (hlibrary : ∀ source ∈ settings.library,
      TextFaultsIn settings.opener G source.name source.text)
    (hloads : ∀ M path bytes, Reached settings depth name program M →
      M.activity = .stmt (.load path) → settings.opener path.text = .contents bytes →
      TextFaultsIn settings.opener G path.text (Text.decode bytes))
    (ho : program.run? settings depth name = some o) : ∀ f ∈ o.faults, G f := by
  obtain ⟨-, m, hm, rfl⟩ := run?_program_eq_some_iff.1 ho
  have hstart : (settings.start name program).FaultsIn settings.opener G := by
    refine ⟨by simp [Settings.start, Machine.start], ?_⟩
    exact List.forall_mem_singleton.2 fun e he => absurd he List.not_mem_nil
  have hmoment : Moment.FaultsIn settings.opener G
      ⟨depth, [], .sources settings.library program, settings.start name program⟩ :=
    ⟨⟨hlibrary, hprogram⟩, hstart⟩
  exact ((faultsIn_invariant hloads).program settings.library ⟨.refl, hmoment⟩ hm).faults

end DrawLang
