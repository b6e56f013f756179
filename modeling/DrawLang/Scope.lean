import DrawLang.Syntax

/-!
# Scopes

Names are bound in frames. The root frame is always there; every call in progress has a frame of its
own on top of those of its callers, so a callee sees the bindings of its caller. A name means its
binding in the innermost frame that has one, and it is always bound in the innermost frame.

* `Scope.get?`, `Scope.set`, `Scope.push`, `Scope.pop`.
* `Scope.get?_set`: what binding a name changes.
* `Scope.pop_push`: a frame leaves nothing behind.
-/

namespace DrawLang

/-- What a name can be bound to. -/
inductive Binding where
  | value (n : Int64)
  | routine (role : Role) (definition : Definition)
  deriving Repr

namespace Binding

def value? : Binding → Option Int64
  | value n => some n
  | routine _ _ => none

def definition? (role : Role) : Binding → Option Definition
  | value _ => none
  | routine r d => if r = role then some d else none

end Binding

abbrev Bindings := List (String × Binding)

def Bindings.set : Bindings → String → Binding → Bindings
  | [], name, binding => [(name, binding)]
  | (n, b) :: rest, name, binding =>
    if n = name then (name, binding) :: rest else (n, b) :: Bindings.set rest name binding

theorem Bindings.lookup_set (frame : Bindings) (name n : String) (binding : Binding) :
    (Bindings.set frame name binding).lookup n =
      if n = name then some binding else frame.lookup n := by
  induction frame with
  | nil =>
    rw [Bindings.set, List.lookup_cons]
    by_cases h : n = name
    · simp [h]
    · have hn : (n == name) = false := by simpa using h
      simp [h, hn]
  | cons e rest ih =>
    obtain ⟨m, b⟩ := e
    by_cases hm : m = name <;> by_cases h : n = name
    · simp [Bindings.set, hm, h]
    · have hn : (n == name) = false := by simpa using h
      simp [Bindings.set, List.lookup_cons, hm, h, hn]
    · have hn : (n == m) = false := by simpa [h] using fun e => hm e.symm
      rw [Bindings.set, if_neg hm, List.lookup_cons, hn, ih]
      simp [h]
    · simp only [Bindings.set, hm, ↓reduceIte, List.lookup_cons, ih, h]

/-- The frames of the calls in progress, the innermost first, and the root frame. -/
structure Scope where
  inner : List Bindings
  root : Bindings
  deriving Repr

namespace Scope

def empty : Scope := ⟨[], []⟩

def frames (s : Scope) : List Bindings := s.inner ++ [s.root]

def get? (s : Scope) (name : String) : Option Binding := s.frames.findSome? (·.lookup name)

def set (s : Scope) (name : String) (binding : Binding) : Scope :=
  match s.inner with
  | [] => { s with root := Bindings.set s.root name binding }
  | frame :: outer => { s with inner := Bindings.set frame name binding :: outer }

def push (s : Scope) : Scope := { s with inner := [] :: s.inner }

/-- The scope without its innermost frame; the root frame stays. -/
def pop (s : Scope) : Scope := { s with inner := s.inner.tail }

/-- The scope with parameters bound to values, in order, as far as both reach. -/
def setAll (s : Scope) (params : List String) (values : List Int64) : Scope :=
  (params.zip values).foldl (fun s p => s.set p.1 (.value p.2)) s

/-! ## Laws -/

@[simp] theorem get?_empty (name : String) : empty.get? name = none := rfl

@[simp] theorem get?_push (s : Scope) (name : String) : s.push.get? name = s.get? name := by
  simp only [get?, frames, push, List.cons_append, List.findSome?_cons, List.lookup_nil]

theorem get?_set (s : Scope) (name n : String) (binding : Binding) :
    (s.set name binding).get? n = if n = name then some binding else s.get? n := by
  unfold set get? frames
  split
  · rename_i h
    simp only [h, List.nil_append, List.findSome?_cons, List.findSome?_nil, Bindings.lookup_set]
    by_cases hn : n = name <;> simp [hn]
  · rename_i frame outer h
    simp only [h, List.cons_append, List.findSome?_cons, Bindings.lookup_set]
    by_cases hn : n = name <;> simp [hn]

/-- Binding a name keeps the number of frames. -/
@[simp] theorem length_inner_set (s : Scope) (name : String) (binding : Binding) :
    (s.set name binding).inner.length = s.inner.length := by
  unfold set
  split <;> simp_all

theorem frames_ne_nil (s : Scope) : s.frames ≠ [] :=
  List.append_ne_nil_of_right_ne_nil _ (List.cons_ne_nil _ _)

/-- Binding a name changes the innermost frame only. -/
theorem tail_frames_set (s : Scope) (name : String) (binding : Binding) :
    (s.set name binding).frames.tail = s.frames.tail := by
  unfold set frames
  split
  · rename_i h
    simp only [h, List.nil_append, List.tail_cons]
  · rename_i frame outer h
    simp only [h, List.cons_append, List.tail_cons]

theorem tail_frames_setAll (s : Scope) (params : List String) (values : List Int64) :
    (s.setAll params values).frames.tail = s.frames.tail := by
  unfold setAll
  induction params.zip values generalizing s with
  | nil => rfl
  | cons p ps ih => rw [List.foldl_cons, ih, tail_frames_set]

theorem get?_setAll_of_notMem {params : List String} {name : String} (hname : name ∉ params)
    (s : Scope) (values : List Int64) : (s.setAll params values).get? name = s.get? name := by
  induction params generalizing s values with
  | nil => rfl
  | cons param params ih =>
    obtain ⟨hparam, hrest⟩ := not_or.1 (mt List.mem_cons.2 hname)
    cases values with
    | nil => rfl
    | cons value values =>
      show (setAll (s.set param (.value value)) params values).get? name = _
      rw [ih hrest, get?_set, if_neg hparam]

/-- Parameters of different names stand for the values that they are bound to. -/
theorem get?_setAll_of_mem {params : List String} {values : List Int64} (hparams : params.Nodup)
    {name : String} {value : Int64} (h : (name, value) ∈ params.zip values) (s : Scope) :
    (s.setAll params values).get? name = some (.value value) := by
  induction params generalizing s values with
  | nil => cases h
  | cons param params ih =>
    obtain ⟨hparam, hrest⟩ := List.nodup_cons.1 hparams
    cases values with
    | nil => cases h
    | cons first values =>
      show (setAll (s.set param (.value first)) params values).get? name = _
      rcases List.mem_cons.1 h with heq | h
      · obtain ⟨rfl, rfl⟩ := Prod.mk.inj heq
        rw [get?_setAll_of_notMem hparam, get?_set, if_pos rfl]
      · exact ih hrest h _

@[simp] theorem frames_push (s : Scope) : s.push.frames = [] :: s.frames := rfl

/-- Scopes that differ in the innermost frame only have the same number of frames. -/
theorem length_frames_of_tail {s t : Scope} (h : s.frames.tail = t.frames.tail) :
    s.frames.length = t.frames.length := by
  have hs := List.length_pos_iff.2 s.frames_ne_nil
  have ht := List.length_pos_iff.2 t.frames_ne_nil
  have hlength := congrArg List.length h
  rw [List.length_tail, List.length_tail] at hlength
  omega

/-- Without its innermost frame, a scope is what its other frames say. -/
theorem pop_of_tail {s t : Scope} (h : s.frames.tail = t.frames) : s.pop = t := by
  obtain ⟨sinner, sroot⟩ := s
  obtain ⟨tinner, troot⟩ := t
  cases sinner with
  | nil => exact absurd h.symm (frames_ne_nil _)
  | cons frame outer =>
    have happend : outer ++ [sroot] = tinner ++ [troot] := h
    obtain ⟨rfl, hroot⟩ := List.append_inj' happend rfl
    obtain ⟨rfl, -⟩ := List.cons.inj hroot
    rfl

end Scope

end DrawLang
