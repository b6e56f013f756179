import DrawLang.Proofs.LibraryTrees
import DrawLang.Run
import Mathlib.Data.List.Forall2

/-!
# The library before a program

The sources of the standard library do nothing but define names. So running them binds these names
in the root frame and changes nothing else of a state: no fault is listed, and nothing is drawn.

* `Stmt.defines`, `Library.Defines`: statements and sources that only define some names.
* `standardNames`, `standard_defines`: what the standard library defines.
* `Beside`: states that differ in the bindings of some names only.
* `library_beside`: what a library of definitions does.
-/

namespace DrawLang

open Grammar

/-! ## Sources that only define names -/

/-- Whether a statement defines one of some names. -/
def Stmt.defines (names : List String) : Stmt → Bool
  | .define _ name _ _ => decide (name ∈ names)
  | _ => false

/-- Whether all sources are programs that do nothing but define some names. -/
def Library.Defines (names : List String) (library : Library) : Prop :=
  ∀ source ∈ library, ∃ p, parse? source.name source.text = .ok p ∧
    ∀ s ∈ p, s.defines names = true

theorem Stmt.defines_outline (names : List String) (s : Stmt) :
    s.outline.defines names = s.defines names := by
  cases s <;> rfl

/-- A program that is made of definitions, apart from places, only defines their names. -/
theorem defines_of_outline {names : List String} {p : Program} {ds : List (Role × Definition)}
    (hp : p.outline = Program.outline (ds.map fun d => d.2.stmt d.1))
    (hnames : ∀ d ∈ ds, d.2.name ∈ names) : ∀ s ∈ p, s.defines names = true := by
  intro s hs
  have hmem : s.outline ∈ p.outline := by
    rw [Program.outline, outlineAll_eq_map]
    exact List.mem_map_of_mem hs
  rw [hp, Program.outline, outlineAll_eq_map, List.map_map] at hmem
  obtain ⟨d, hd, hstmt⟩ := List.mem_map.1 hmem
  rw [← Stmt.defines_outline, ← hstmt]
  exact decide_eq_true (hnames d hd)

/-! ## The standard library -/

namespace Library

def letterNames : List String := glyphs.map fun g => String.ofList g.command

example : letterNames = (List.range 26).map fun i => "letter".push (Char.ofNat (65 + i)) := by
  decide +kernel

def graphicsNames : List String :=
  ["Max", "Min", "Abs", "Clamp", "Rect", "FillRect", "Square", "Cross"]

def standardNames : List String := letterNames ++ graphicsNames

theorem standard_defines : standard.Defines standardNames := by
  have hletters : ∀ d ∈ letterDefinitions, d.2.name ∈ standardNames := by decide +kernel
  have hgraphics : ∀ d ∈ graphicsDefinitions, d.2.name ∈ standardNames := by decide +kernel
  obtain ⟨p, q, hparse, hparse', hp, hq⟩ := standard_outline
  intro source hsource
  simp only [standard, List.mem_cons, List.not_mem_nil, or_false] at hsource
  rcases hsource with rfl | rfl
  · exact ⟨p, hparse, defines_of_outline hp hletters⟩
  · exact ⟨q, hparse', defines_of_outline hq hgraphics⟩

end Library

/-! ## States beside each other -/

/-- Whether two frames bind all names alike but some. -/
def Bindings.AgreeOutside (names : List String) (frame frame' : Bindings) : Prop :=
  ∀ name ∉ names, frame.lookup name = frame'.lookup name

structure Scope.AgreeOutside (names : List String) (s s' : Scope) : Prop where
  inner : List.Forall₂ (Bindings.AgreeOutside names) s.inner s'.inner
  root : Bindings.AgreeOutside names s.root s'.root

namespace Scope.AgreeOutside

variable {names : List String} {s s' : Scope}

theorem refl (names : List String) (s : Scope) : s.AgreeOutside names s :=
  ⟨List.forall₂_same.2 fun _ _ _ _ => rfl, fun _ _ => rfl⟩

theorem get? (h : s.AgreeOutside names s') {name : String} (hname : name ∉ names) :
    s.get? name = s'.get? name := by
  have hframes : List.Forall₂ (Bindings.AgreeOutside names) s.frames s'.frames :=
    List.rel_append h.inner (.cons h.root .nil)
  unfold Scope.get?
  generalize s.frames = frames at hframes ⊢
  generalize s'.frames = frames' at hframes ⊢
  induction hframes with
  | nil => rfl
  | cons hframe _ ih => rw [List.findSome?_cons, List.findSome?_cons, hframe name hname, ih]

theorem set (h : s.AgreeOutside names s') (name : String) (b : Binding) :
    (s.set name b).AgreeOutside names (s'.set name b) := by
  have hset {frame frame' : Bindings} (hframe : Bindings.AgreeOutside names frame frame') :
      Bindings.AgreeOutside names (Bindings.set frame name b) (Bindings.set frame' name b) := by
    intro n hn
    rw [Bindings.lookup_set, Bindings.lookup_set, hframe n hn]
  obtain ⟨inner, root⟩ := s
  obtain ⟨inner', root'⟩ := s'
  obtain ⟨hinner, hroot⟩ := h
  cases hinner with
  | nil => exact ⟨.nil, hset hroot⟩
  | cons hframe houter => exact ⟨.cons (hset hframe) houter, hroot⟩

/-- Binding one of the names makes no difference. -/
theorem set_left (h : s.AgreeOutside names s') {name : String} (hname : name ∈ names)
    (b : Binding) : (s.set name b).AgreeOutside names s' := by
  have hset {frame frame' : Bindings} (hframe : Bindings.AgreeOutside names frame frame') :
      Bindings.AgreeOutside names (Bindings.set frame name b) frame' := by
    intro n hn
    have hne : n ≠ name := by
      rintro rfl
      exact hn hname
    rw [Bindings.lookup_set, if_neg hne, hframe n hn]
  obtain ⟨inner, root⟩ := s
  obtain ⟨inner', root'⟩ := s'
  obtain ⟨hinner, hroot⟩ := h
  cases hinner with
  | nil => exact ⟨.nil, hset hroot⟩
  | cons hframe houter => exact ⟨.cons (hset hframe) houter, hroot⟩

theorem push (h : s.AgreeOutside names s') : s.push.AgreeOutside names s'.push :=
  ⟨.cons (fun _ _ => rfl) h.inner, h.root⟩

theorem pop (h : s.AgreeOutside names s') : s.pop.AgreeOutside names s'.pop := by
  obtain ⟨inner, root⟩ := s
  obtain ⟨inner', root'⟩ := s'
  obtain ⟨hinner, hroot⟩ := h
  cases hinner with
  | nil => exact ⟨.nil, hroot⟩
  | cons _ houter => exact ⟨houter, hroot⟩

theorem setAll (h : s.AgreeOutside names s') (params : List String) (values : List Int64) :
    (s.setAll params values).AgreeOutside names (s'.setAll params values) := by
  unfold Scope.setAll
  induction params.zip values generalizing s s' with
  | nil => exact h
  | cons p ps ih => exact ih (h.set p.1 (.value p.2))

end Scope.AgreeOutside

/-- Whether two states differ in the bindings of some names only, and in what has been told. -/
structure Beside (names : List String) (m m' : Machine) : Prop where
  canvas : m.canvas = m'.canvas
  pen : m.pen = m'.pen
  scope : m.scope.AgreeOutside names m'.scope
  faults : m.faults = m'.faults
  recorder : m.recorder = m'.recorder
  pending : m.pending = m'.pending
  inNumber : m.inNumber = m'.inNumber

theorem Beside.refl (names : List String) (m : Machine) : Beside names m m :=
  ⟨rfl, rfl, .refl names m.scope, rfl, rfl, rfl, rfl⟩

/-! ## Running definitions -/

section Runs

variable {names : List String} {opener : Opener} {run : BodyRunner} {m m' : Machine}

/-- Statements that only define names succeed, and nothing else comes of them. -/
theorem execAll_beside {p : Program} (hp : ∀ s ∈ p, s.defines names = true)
    (hm : Beside names m m') (hnone : m'.pending = none) :
    ∃ m₁, Stmt.execAll opener run p m = some ((), m₁) ∧ Beside names m₁ m' := by
  induction p generalizing m with
  | nil => exact ⟨m, rfl, hm⟩
  | cons s p ih =>
    obtain ⟨hs, hps⟩ := List.forall_mem_cons.1 hp
    cases s with
    | define role name params body =>
      let bound : Binding := .routine role ⟨name, params, body⟩
      have hname : name ∈ names := of_decide_eq_true hs
      have hbeside : Beside names { m with scope := m.scope.set name bound } m' :=
        { hm with scope := hm.scope.set_left hname bound }
      obtain ⟨m₁, hexec, hm₁⟩ := ih hps hbeside
      refine ⟨m₁, ?_, hm₁⟩
      show (if m.pending.isSome = true then pure () else Stmt.execAll opener run p : Exec Unit)
        { m with scope := m.scope.set name bound } = _
      rw [if_neg (by simp [hm.pending, hnone])]
      exact hexec
    | _ => cases hs

/-- A library that only defines names succeeds, and nothing else comes of it. -/
theorem library_beside {library : Library} (hlibrary : library.Defines names) (n : Nat)
    (hm : Beside names m m') (hnone : m'.pending = none) :
    ∃ m₁, library.exec (execAt opener (n + 1)) m = some ((), m₁) ∧ Beside names m₁ m' := by
  induction library generalizing m with
  | nil => exact ⟨m, rfl, hm⟩
  | cons source sources ih =>
    obtain ⟨⟨p, hparse, hp⟩, hsources⟩ := List.forall_mem_cons.1 hlibrary
    obtain ⟨m₁, hexec, hm₁⟩ : ∃ m₁, execAt opener (n + 1) p m = some ((), m₁) ∧
        Beside names m₁ m' := execAll_beside hp hm hnone
    have htold : Beside names
        { m₁ with events := m₁.events.push (.libraryLoaded source.name) } m' := { hm₁ with }
    obtain ⟨m₂, hrest, hm₂⟩ := ih hsources htold
    refine ⟨m₂, ?_, hm₂⟩
    unfold Library.exec
    rw [hparse]
    exact (bind_of_eq_some hexec).trans hrest

end Runs

end DrawLang
