import DrawLang.Scope

/-!
# What a scope owes to its history

A scope is what a row of operations has made of it: frames put on top and popped again, and names
bound. A lookup searches the frames from the innermost outwards, but what it finds can be told from
the row of operations alone: it is what the latest assignment to the name gave it, of those whose
frame has not been popped since.

* `Operation`, `Scope.run`: rows of operations, and the scopes that they lead to.
* `Outlasts`, `Finds`: frames that have not been popped, and the latest assignment in one of them.
* `Scope.remains`: the part of a scope that a row of operations has not popped.
* `lookups_find_latest`: lookups in a new scope after any row of operations.
-/

namespace DrawLang

/-! ## Rows of operations -/

inductive Operation where
  | push
  | pop
  | set (name : String) (binding : Binding)

namespace Scope

def apply (s : Scope) : Operation → Scope
  | .push => s.push
  | .pop => s.pop
  | .set name binding => s.set name binding

def run (s : Scope) (history : List Operation) : Scope := history.foldl apply s

theorem run_append (s : Scope) (before later : List Operation) :
    s.run (before ++ later) = (s.run before).run later := List.foldl_append

end Scope

/-! ## Assignments that stand -/

/-- How many frames there are above the root frame after an operation, if there were `depth`. The
root frame is not popped. -/
def Operation.depthAfter (depth : Nat) : Operation → Nat
  | push => depth + 1
  | pop => depth - 1
  | set _ _ => depth

/-- Whether a frame with `above` frames on top of it is popped by one of these operations. -/
def pops : Nat → List Operation → Bool
  | _, [] => false
  | above, .push :: later => pops (above + 1) later
  | 0, .pop :: _ => true
  | above + 1, .pop :: later => pops above later
  | above, .set _ _ :: later => pops above later

/-- Whether the innermost frame, of `depth` above the root frame, is still there after some more
operations: it is the root frame, or none of them pops it. -/
def Outlasts (depth : Nat) (later : List Operation) : Prop := depth = 0 ∨ pops 0 later = false

/-- What a row of operations has bound a name to, from a scope with `depth` frames above its root
frame on: what the latest assignment says whose frame has not been popped since, or what the name
meant before if there is none. -/
inductive Finds (depth : Nat) (former : Option Binding) (history : List Operation) (name : String) :
    Option Binding → Prop where
  | latest {before later : List Operation} {binding : Binding} :
      history = before ++ .set name binding :: later →
      Outlasts (before.foldl Operation.depthAfter depth) later →
      (∀ between other rest, later = between ++ .set name other :: rest →
        ¬ Outlasts ((before ++ .set name binding :: between).foldl Operation.depthAfter depth)
          rest) →
      Finds depth former history name (some binding)
  | former : (∀ before binding later, history = before ++ .set name binding :: later →
        ¬ Outlasts (before.foldl Operation.depthAfter depth) later) →
      Finds depth former history name former

/-- Of two places in one row, one comes first, unless they are the same. -/
theorem eq_or_split {α : Type} {before before' later later' : List α} {x y : α}
    (h : before ++ x :: later = before' ++ y :: later') :
    x = y ∨ (∃ between, before' = before ++ x :: between ∧ later = between ++ y :: later') ∨
      ∃ between, before = before' ++ y :: between ∧ later' = between ++ x :: later := by
  rcases List.append_eq_append_iff.1 h with ⟨between, rfl, hrest⟩ | ⟨between, rfl, hrest⟩
  · cases between with
    | nil => exact .inl (List.cons.inj hrest).1
    | cons first between =>
      obtain ⟨rfl, hlater⟩ := List.cons.inj hrest
      exact .inr (.inl ⟨between, rfl, hlater⟩)
  · cases between with
    | nil => exact .inl (List.cons.inj hrest).1.symm
    | cons first between =>
      obtain ⟨rfl, hlater⟩ := List.cons.inj hrest
      exact .inr (.inr ⟨between, rfl, hlater⟩)

namespace Finds

variable {depth : Nat} {former former' result : Option Binding} {name : String}
  {op : Operation} {later : List Operation}

/-- An assignment that stands, or none, in front of the operations that follow. -/
theorem cons (h : Finds (op.depthAfter depth) former' later name result)
    (hset : ∀ binding, op = .set name binding → Outlasts depth later → former' = some binding)
    (hother : (∀ binding, op = .set name binding → ¬ Outlasts depth later) → former' = former) :
    Finds depth former (op :: later) name result := by
  cases h with
  | @latest before rest binding hlater hstands hlast =>
    have hsplit : op :: later = (op :: before) ++ .set name binding :: rest := by
      rw [hlater, List.cons_append]
    exact .latest hsplit hstands hlast
  | former hnone =>
    by_cases hop : ∃ binding, op = .set name binding ∧ Outlasts depth later
    · obtain ⟨binding, rfl, hstands⟩ := hop
      have hsplit : Operation.set name binding :: later = [] ++ .set name binding :: later := rfl
      rw [hset binding rfl hstands]
      exact .latest hsplit hstands hnone
    · have hop' : ∀ binding, op = .set name binding → ¬ Outlasts depth later :=
        fun binding he hstands => hop ⟨binding, he, hstands⟩
      rw [hother hop']
      refine .former fun before binding rest hsplit => ?_
      cases before with
      | nil =>
        obtain ⟨rfl, rfl⟩ := List.cons.inj hsplit
        exact hop' binding rfl
      | cons first before =>
        obtain ⟨rfl, rfl⟩ := List.cons.inj hsplit
        exact hnone before binding rest rfl

/-- There is only one that is the latest. -/
theorem unique {history : List Operation} {result' : Option Binding}
    (h : Finds depth former history name result) (h' : Finds depth former history name result') :
    result = result' := by
  cases h with
  | former hnone =>
    cases h' with
    | former => rfl
    | latest hsplit hstands => exact absurd hstands (hnone _ _ _ hsplit)
  | latest hsplit hstands hlast =>
    cases h' with
    | former hnone => exact absurd hstands (hnone _ _ _ hsplit)
    | latest hsplit' hstands' hlast' =>
      rcases eq_or_split (hsplit.symm.trans hsplit') with hop | ⟨between, rfl, hlater⟩ |
        ⟨between, rfl, hlater⟩
      · cases hop
        rfl
      · exact absurd hstands' (hlast between _ _ hlater)
      · exact absurd hstands (hlast' between _ _ hlater)

end Finds

/-! ## What is left of a scope -/

namespace Scope

/-- What operations have not popped of a scope that has `above` frames on top of it. -/
def remains (s : Scope) : Nat → List Operation → Scope
  | _, [] => s
  | above, .push :: later => s.remains (above + 1) later
  | 0, .pop :: later => s.pop.remains 0 later
  | above + 1, .pop :: later => s.remains above later
  | above, .set _ _ :: later => s.remains above later

@[simp] theorem length_inner_push (s : Scope) : s.push.inner.length = s.inner.length + 1 := rfl

@[simp] theorem length_inner_pop (s : Scope) : s.pop.inner.length = s.inner.length - 1 := by
  simp [pop]

theorem length_inner_apply (s : Scope) (op : Operation) :
    (s.apply op).inner.length = op.depthAfter s.inner.length := by
  cases op <;> simp [apply, Operation.depthAfter]

/-- Without its innermost frame, a scope has lost what was bound there. -/
theorem pop_set {s : Scope} (h : s.inner ≠ []) (name : String) (binding : Binding) :
    (s.set name binding).pop = s.pop := by
  unfold set
  split
  · rename_i hnil
    exact absurd hnil h
  · rename_i hcons
    simp [pop, hcons]

theorem pop_of_inner {s : Scope} (h : s.inner = []) : s.pop = s := by
  obtain ⟨inner, root⟩ := s
  cases h
  rfl

/-- A frame without bindings is as good as one that is not there. -/
theorem get?_remains_push (s : Scope) (above : Nat) (history : List Operation) (name : String) :
    (s.push.remains above history).get? name = (s.remains (above + 1) history).get? name := by
  induction history generalizing above with
  | nil => exact get?_push s name
  | cons op later ih =>
    cases op with
    | push => exact ih (above + 1)
    | set => exact ih above
    | pop =>
      cases above with
      | zero => rfl
      | succ above => exact ih above

/-- What is bound in the innermost frame is found until that frame is popped. -/
theorem get?_remains_set (s : Scope) (above : Nat) (history : List Operation) (name n : String)
    (binding : Binding) : ((s.set name binding).remains above history).get? n =
      if n = name ∧ (s.inner.length = 0 ∨ pops above history = false) then some binding
      else (s.remains above history).get? n := by
  induction history generalizing above with
  | nil => simp [remains, pops, get?_set]
  | cons op later ih =>
    cases op with
    | push => exact ih (above + 1)
    | set => exact ih above
    | pop =>
      cases above with
      | succ above => exact ih above
      | zero =>
        by_cases hroot : s.inner = []
        · -- the root frame stays
          have hroot' : (s.set name binding).inner = [] := by simp [set, hroot]
          simp only [remains, pop_of_inner hroot, pop_of_inner hroot', ih 0, hroot,
            List.length_nil, true_or]
        · simp [remains, pops, pop_set hroot, hroot]

theorem remains_empty (above : Nat) (history : List Operation) :
    empty.remains above history = empty := by
  induction history generalizing above with
  | nil => rfl
  | cons op later ih =>
    cases op with
    | push => exact ih (above + 1)
    | set => exact ih above
    | pop =>
      cases above with
      | zero => exact ih 0
      | succ above => exact ih above

/-- A lookup finds the latest assignment that stands, and otherwise what was bound before. -/
theorem finds_run (s : Scope) (history : List Operation) (name : String) :
    Finds s.inner.length ((s.remains 0 history).get? name) history name
      ((s.run history).get? name) := by
  induction history generalizing s with
  | nil => exact .former fun before binding later h => absurd h (by simp)
  | cons op later ih =>
    have hlater := ih (s.apply op)
    rw [length_inner_apply] at hlater
    refine hlater.cons ?_ ?_
    · rintro binding rfl hstands
      exact (get?_remains_set s 0 later name name binding).trans (if_pos ⟨rfl, hstands⟩)
    · intro hop
      cases op with
      | push => exact get?_remains_push s 0 later name
      | pop => rfl
      | set n binding =>
        refine (get?_remains_set s 0 later n name binding).trans (if_neg ?_)
        rintro ⟨rfl, hstands⟩
        exact hop binding rfl hstands

end Scope

/-- **Lookups find the latest assignment that stands.** Whatever has been pushed, popped and bound in
a new scope, a name means what the latest assignment to it says whose frame has not been popped
since; if there is none, it means nothing. To pop the root frame changes nothing. -/
theorem lookups_find_latest (history : List Operation) :
    (∀ name result, (Scope.empty.run history).get? name = result ↔
      Finds 0 none history name result) ∧
    ((Scope.empty.run history).frames.length = 1 →
      Scope.empty.run (history ++ [.pop]) = Scope.empty.run history) := by
  constructor
  · intro name result
    have hfinds := Scope.finds_run .empty history name
    rw [Scope.remains_empty, Scope.get?_empty] at hfinds
    constructor
    · rintro rfl
      exact hfinds
    · exact fun h => hfinds.unique h
  · intro hroot
    rw [Scope.run_append]
    apply Scope.pop_of_inner
    simpa [Scope.frames] using hroot

/-- A name bound in the root frame after a pop too many, and again in two frames that are popped. -/
def shadowing : List Operation :=
  [.pop, .set "A" (.value 1), .push, .set "A" (.value 2), .push, .set "A" (.value 3), .pop, .pop]

/-- In the end it means what it meant at first, and another pop changes nothing. -/
theorem shadowed_name_returns :
    Finds 0 none shadowing "A" (some (.value 1)) ∧
      (Scope.empty.run shadowing).frames.length = 1 ∧
      Scope.empty.run (shadowing ++ [.pop]) = Scope.empty.run shadowing :=
  ⟨((lookups_find_latest shadowing).1 "A" (some (.value 1))).1 rfl, rfl,
    (lookups_find_latest shadowing).2 rfl⟩

end DrawLang
