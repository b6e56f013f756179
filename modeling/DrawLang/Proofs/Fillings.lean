import DrawLang.Proofs.Lockstep
import DrawLang.Proofs.Unwinding

/-!
# Places to fill

A sketch is a program with places that are left open. They can be filled with statements that do
nothing but list faults: with loads that fail, for instance, or with nothing at all. However they
are filled, the runs go in step, and their faults differ by what stands in the places only.

* `Sketch`, `Sketch.fill`: programs with places.
* `ListsOnly`, `Filling`: what places are filled with.
* `fillings`: what is compared of the runs.
* `rel_run?_filled`: the runs of a sketch that is filled in two ways.
-/

namespace DrawLang

/-! ## Sketches and fillings -/

/-- Statements with places that are left open, at any depth and also in the bodies of definitions.
The places are numbered below `k`, and one number can stand for any number of them. -/
inductive Sketch (k : Nat) where
  | nil
  | keep (s : Stmt) (rest : Sketch k)
  | place (i : Fin k) (rest : Sketch k)
  | block (body rest : Sketch k)
  | loop (name : String) (first last : Expr) (body rest : Sketch k)
  | test (relation : Relation) (left right : Expr) (body rest : Sketch k)
  | define (role : Role) (name : String) (params : List String) (body rest : Sketch k)

namespace Sketch

variable {k : Nat}

def fill (stmts : Fin k → List Stmt) : Sketch k → List Stmt
  | nil => []
  | keep s rest => s :: rest.fill stmts
  | place i rest => stmts i ++ rest.fill stmts
  | block body rest => .block (body.fill stmts) :: rest.fill stmts
  | loop name first last body rest =>
    .loop name first last (body.fill stmts) :: rest.fill stmts
  | test relation left right body rest =>
    .test relation left right (body.fill stmts) :: rest.fill stmts
  | define role name params body rest =>
    .define role name params (body.fill stmts) :: rest.fill stmts

def ofStmts : List Stmt → Sketch k
  | [] => nil
  | s :: ss => keep s (ofStmts ss)

theorem fill_ofStmts (stmts : Fin k → List Stmt) (ss : List Stmt) :
    (ofStmts ss).fill stmts = ss := by
  induction ss with
  | nil => rfl
  | cons s ss ih => rw [ofStmts, fill, ih]

end Sketch

/-- Whether statements do nothing but list given faults. -/
def ListsOnly (opener : Opener) (ss : List Stmt) (fs : List Fault) : Prop :=
  ∀ (run : BodyRunner) (m : Machine), m.pending = none →
    Stmt.execAll opener run ss m = some ((), { m with faults := m.faults ++ fs })

/-- What the places of a sketch are filled with: statements that do nothing but list faults. -/
structure Filling (opener : Opener) (k : Nat) where
  stmts : Fin k → List Stmt
  faults : Fin k → List Fault
  lists : ∀ i, ListsOnly opener (stmts i) (faults i)

/-- What is listed in the run of a sketch, in order: a fault, or whatever stands in a place. -/
abbrev Log (k : Nat) := List (Fault ⊕ Fin k)

/-- The faults of a log, with those in the places that a filling lists there. -/
def Filling.listed {opener : Opener} {k : Nat} (φ : Filling opener k) (log : Log k) : List Fault :=
  log.flatMap (Sum.elim (fun f => [f]) φ.faults)

section Lockstep

variable {opener : Opener} {k : Nat} {φ ψ : Filling opener k}

theorem Filling.listed_append (log log' : Log k) :
    φ.listed (log ++ log') = φ.listed log ++ φ.listed log' :=
  List.flatMap_append

theorem Filling.listed_fault (f : Fault) : φ.listed [.inl f] = [f] := rfl

theorem Filling.listed_place (i : Fin k) : φ.listed [.inr i] = φ.faults i :=
  List.append_nil _

/-- A run of a sketch beside one of the same sketch that is filled in another way. The places take
the same turns in both lists of faults. -/
def fillings (φ ψ : Filling opener k) : Comparison where
  place := id
  Bodies _ ss ss' := ∃ sketch : Sketch k, ss = sketch.fill φ.stmts ∧ ss' = sketch.fill ψ.stmts
  Faults fs fs' := ∃ log : Log k, fs.toList = φ.listed log ∧ fs'.toList = ψ.listed log
  Records r _ r' _ := r = r'
  bodies h body := by
    rw [← eq_relocateAll h body]
    exact ⟨.ofStmts body, (Sketch.fill_ofStmts _ _).symm, (Sketch.fill_ofStmts _ _).symm⟩
  report := by
    rintro fs fs' f f' ⟨log, hfs, hfs'⟩ hf
    rw [Fault.relocate_id, Fault.relocate_id] at hf
    refine ⟨log ++ [.inl f], ?_, ?_⟩
    · rw [Array.toList_push, hfs, Filling.listed_append, Filling.listed_fault]
    · rw [Array.toList_push, hfs', Filling.listed_append, Filling.listed_fault, hf]
  tell _ _ _ h := h
  capture c h := capture_congr c h

/-- States that are alike are so still when what stands in a place has been listed in both. -/
theorem ready_place {m m' : Machine} (hm : (fillings φ ψ).Ready m m') (i : Fin k) :
    (fillings φ ψ).Ready { m with faults := m.faults ++ φ.faults i }
      { m' with faults := m'.faults ++ ψ.faults i } := by
  obtain ⟨log, hfs, hfs'⟩ := hm.faults
  refine { hm with faults := ⟨log ++ [.inr i], ?_, ?_⟩ }
  · rw [Array.toList_appendList, hfs, Filling.listed_append, Filling.listed_place]
  · rw [Array.toList_appendList, hfs', Filling.listed_append, Filling.listed_place]

variable {short : Prop} {run run' : BodyRunner}

/-- Behind a place the run goes on with the faults listed that stand there. -/
theorem execAll_place (φ : Filling opener k) (i : Fin k) (ss : List Stmt) {m : Machine}
    (hm : m.pending = none) : Stmt.execAll opener run (φ.stmts i ++ ss) m =
      Stmt.execAll opener run ss { m with faults := m.faults ++ φ.faults i } := by
  rw [execAll_append hm, φ.lists i run m hm, Option.bind_some, if_neg (by simp [hm])]

/-- Statements behind a place go in step, whatever stands in the place. -/
theorem place_inStep (i : Fin k) {ss ss' : List Stmt}
    (hss : InStep short (fillings φ ψ).Ready (fillings φ ψ).Alike (Stmt.execAll opener run ss)
      (Stmt.execAll opener run' ss')) :
    InStep short (fillings φ ψ).Ready (fillings φ ψ).Alike
      (Stmt.execAll opener run (φ.stmts i ++ ss))
      (Stmt.execAll opener run' (ψ.stmts i ++ ss')) := by
  intro m m' hm
  rw [execAll_place φ i ss hm.nothing, execAll_place ψ i ss' (hm.pending ▸ hm.nothing)]
  exact hss (ready_place hm i)

/-- The statements of a sketch go in step with those of the same sketch filled in another way. -/
theorem execAll_filled (h : (fillings φ ψ).Tracks short run run') (sketch : Sketch k) :
    InStep short (fillings φ ψ).Ready (fillings φ ψ).Alike
      (Stmt.execAll opener run (sketch.fill φ.stmts))
      (Stmt.execAll opener run' (sketch.fill ψ.stmts)) := by
  have hid := (fillings φ ψ).ignores_id
  induction sketch with
  | nil => exact (InStep.pure _).alike
  | keep s rest ih =>
    have hs := h.exec hid opener s
    rw [Stmt.relocate_id] at hs
    exact .bind hs fun _ => unlessPending_inStep ih
  | place i rest ih => exact place_inStep i ih
  | block body rest ihbody ih => exact .bind ihbody fun _ => unlessPending_inStep ih
  | loop name first last body rest ihbody ih =>
    have hs := h.loop hid name first last ihbody
    rw [Expr.relocate_id, Expr.relocate_id] at hs
    exact .bind hs fun _ => unlessPending_inStep ih
  | test relation left right body rest ihbody ih =>
    have hs := h.test hid relation left right ihbody
    rw [Expr.relocate_id, Expr.relocate_id] at hs
    exact .bind hs fun _ => unlessPending_inStep ih
  | define role name params body rest _ ih =>
    have hbound := Comparison.Bound.routine role name params (C := fillings φ ψ)
      ⟨body, rfl, rfl⟩
    exact .bind (bindName_inStep name hbound).alike fun _ => unlessPending_inStep ih

/-- Bodies go in step with the same bodies filled in another way. -/
theorem tracks_filled (φ ψ : Filling opener k) (n : Nat) :
    (fillings φ ψ).Tracks short (execAt opener n) (execAt opener n) := by
  refine .execAt_of_execAll opener (fun _ _ h _ _ _ hbody => ?_) n
  obtain ⟨sketch, rfl, rfl⟩ := hbody
  exact (execAll_filled h sketch).mono Comparison.Within.toReady id

end Lockstep

/-! ## Outcomes -/

/-- Whether two outcomes show the same, and their faults are those of one log, with its places
filled in two ways. -/
structure SameShow {opener : Opener} {k : Nat} (φ ψ : Filling opener k) (log : Log k)
    (o o' : Outcome) : Prop where
  canvas : o.canvas = o'.canvas
  frames : o.frames = o'.frames
  left : o.faults.toList = φ.listed log
  right : o'.faults.toList = ψ.listed log

/-- Two runs of a sketch that is filled in two ways. -/
theorem rel_run?_filled (settings : Settings) (depth : Nat) (name : String) {k : Nat}
    (sketch : Sketch k) (φ ψ : Filling settings.opener k) :
    Option.Rel (fun o o' => ∃ log, SameShow φ ψ log o o')
      (Program.run? settings depth name (sketch.fill φ.stmts))
      (Program.run? settings depth name (sketch.fill ψ.stmts)) := by
  have hstart : (fillings φ ψ).Alike (settings.start name (sketch.fill φ.stmts))
      (settings.start name (sketch.fill ψ.stmts)) := .start rfl ⟨[], rfl, rfl⟩ rfl
  have hend : ∀ m m', (fillings φ ψ).Alike m m' →
      ∃ log, SameShow φ ψ log (.ofMachine settings m) (.ofMachine settings m') := by
    intro m m' hm
    have hrecorder : m.recorder = m'.recorder := hm.records
    obtain ⟨log, hfs, hfs'⟩ := hm.faults
    refine ⟨log, ?_, ?_, hfs, hfs'⟩
    · simp only [Outcome.ofMachine, hm.canvas]
    · simp only [Outcome.ofMachine, hrecorder]
  have htracks : (fillings φ ψ).Tracks False (execAt settings.opener depth)
      (execAt settings.opener depth) := tracks_filled φ ψ depth
  have hruns := Comparison.rel_run? (S := fun o o' => ∃ log, SameShow φ ψ log o o') htracks rfl
    ⟨sketch, rfl, rfl⟩ Iff.rfl hstart hend
  rcases hruns with ⟨h, -⟩ | hrel
  · exact h.elim
  · exact hrel

end DrawLang
