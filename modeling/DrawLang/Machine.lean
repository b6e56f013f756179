import DrawLang.Canvas.Line
import DrawLang.Fault
import DrawLang.Recorder
import DrawLang.Scope

/-!
# The state of a run

A run draws on a canvas with a pen, binds names, and lists faults, captures and events. While a
number is being called, a `Value` leaves its result pending until the call takes it. The steps of a
run are computations on that state. They end without a result only when calls and loads nest deeper
than the run was allowed to go.

* `Machine`: the state; `Machine.start` is where a run begins.
* `Exec`: a step; `report`, `tell`, `bindName`, `draw` and `inFrame` are the elementary ones.
-/

namespace DrawLang

structure Machine where
  canvas : Canvas
  pen : Rgba
  scope : Scope
  faults : Array Fault
  recorder : Recorder
  events : Array Event
  /-- The result of the number that is being called, once a `Value` has given it one. -/
  pending : Option Int64
  /-- Whether the innermost call in progress is that of a number. -/
  inNumber : Bool

def Machine.start (length : UInt64) (recorder : Recorder) : Machine :=
  { canvas := .blank length.toNat length.toNat
    pen := .black
    scope := .empty
    faults := #[]
    recorder
    events := #[]
    pending := none
    inNumber := false }

abbrev Exec := StateT Machine Option

section Laws

variable {α β : Type} {m m' : Machine}

/-- Two steps in a row end if both end, the second one where the first has led. -/
theorem bind_eq_some_iff {x : Exec α} {f : α → Exec β} {b : β} :
    (x >>= f) m = some (b, m') ↔ ∃ a m₁, x m = some (a, m₁) ∧ f a m₁ = some (b, m') := by
  show (x m).bind (fun r => f r.1 r.2) = some (b, m') ↔ _
  rw [Option.bind_eq_some_iff]
  constructor
  · rintro ⟨⟨a, m₁⟩, hx, hf⟩
    exact ⟨a, m₁, hx, hf⟩
  · rintro ⟨a, m₁, hx, hf⟩
    exact ⟨(a, m₁), hx, hf⟩

/-- After a step that ends, the next one goes on where it has led. -/
theorem bind_of_eq_some {x : Exec α} {f : α → Exec β} {a : α} (h : x m = some (a, m')) :
    (x >>= f) m = f a m' := by
  show (x m).bind (fun r => f r.1 r.2) = _
  rw [h, Option.bind_some]

theorem pure_eq_some_iff {a b : α} : (pure a : Exec α) m = some (b, m') ↔ a = b ∧ m = m' := by
  show some (a, m) = some (b, m') ↔ _
  rw [Option.some.injEq, Prod.mk.injEq]

theorem modify_eq_some_iff {f : Machine → Machine} {u : Unit} :
    (modify f : Exec Unit) m = some (u, m') ↔ f m = m' := by
  show some ((), f m) = some (u, m') ↔ _
  rw [Option.some.injEq, Prod.mk.injEq]
  exact and_iff_right rfl

theorem get_eq_some_iff {m₁ : Machine} :
    (get : Exec Machine) m = some (m₁, m') ↔ m = m₁ ∧ m = m' := by
  show some (m, m) = some (m₁, m') ↔ _
  rw [Option.some.injEq, Prod.mk.injEq]

end Laws

/-! ## Elementary steps -/

def report (fault : Fault) : Exec Unit :=
  modify fun m => { m with faults := m.faults.push fault }

def tell (event : Event) : Exec Unit :=
  modify fun m => { m with events := m.events.push event }

def bindName (name : String) (binding : Binding) : Exec Unit :=
  modify fun m => { m with scope := m.scope.set name binding }

def capture : Exec Unit := modify fun m =>
  { m with
    recorder := m.recorder.capture m.canvas
    events := match m.recorder.captureEvent with
      | some event => m.events.push event
      | none => m.events }

/-- Changes the canvas with the pen at hand, and captures it. -/
def draw (change : Canvas → Rgba → Canvas) : Exec Unit := do
  modify fun m => { m with canvas := change m.canvas m.pen }
  capture

def setPending (result : Int64) : Exec Unit :=
  modify fun m => { m with pending := some result }

/-- Whether a result is pending, so that statements are skipped. -/
def isPending : Exec Bool := do
  return (← get).pending.isSome

/-- Takes the pending result away; a number that has come to no `Value` is 0. -/
def takePending : Exec Int64 := do
  let m ← get
  modify fun m => { m with pending := none }
  return m.pending.getD 0

/-- Runs the body of a call, of a number or not, in a frame of its own, in which parameters are
bound to values. -/
def inFrame (inNumber : Bool) (params : List String) (values : List Int64) (body : Exec Unit) :
    Exec Unit := do
  modify fun m => { m with scope := m.scope.push.setAll params values }
  let outer := (← get).inNumber
  modify fun m => { m with inNumber }
  body
  modify fun m => { m with inNumber := outer, scope := m.scope.pop }

/-- A body in a frame starts with its parameters bound. Once it has ended, its frame is dropped and
the outer call is in progress again. -/
theorem inFrame_eq_some_iff {inNumber : Bool} {params : List String} {values : List Int64}
    {body : Exec Unit} {m m' : Machine} {u : Unit} :
    inFrame inNumber params values body m = some (u, m') ↔
      ∃ m₁, body { m with scope := m.scope.push.setAll params values, inNumber } = some (u, m₁) ∧
        m' = { m₁ with inNumber := m.inNumber, scope := m₁.scope.pop } := by
  show (body { m with scope := m.scope.push.setAll params values, inNumber }).bind _ = _ ↔ _
  rw [Option.bind_eq_some_iff]
  constructor
  · rintro ⟨⟨_, m₁⟩, h₁, h⟩
    cases h
    exact ⟨m₁, h₁, rfl⟩
  · rintro ⟨m₁, h₁, rfl⟩
    exact ⟨(u, m₁), h₁, rfl⟩

/-- The row of the canvas for a height above its bottom row. -/
def Machine.flip (m : Machine) (y : Int64) : Int64 := Int64.ofNat m.canvas.height - 1 - y

/-- The point of the canvas for two coordinates of a program. -/
def Machine.point (m : Machine) (x y : Int64) : Point := (x.toInt, (m.flip y).toInt)

end DrawLang
