import DrawLang.Proofs.Calls
import DrawLang.Run

/-!
# What whole runs keep

A run is made of elementary steps: a fault or an event is listed, a name is bound, the pen is
changed, the canvas is drawn on, a result is left pending or taken, a call is entered or left. A
relation between states that holds across each of these, and across any number of steps in a row,
holds across everything that is built from them: expressions, statements, bodies to any depth, the
library and the program.

* `library_keeps`: the sources of a library.
* `Keeps.draw`: drawing.
* `Stable`: relations that hold across every elementary step.
* `Stable.of_picture`: those that are about the canvas, the pen and the recorder only.
* `Stable.exec`, `Stable.execAt`, `Stable.program`: what is built from the steps.
* `Settings.Fits`: whether the picture can be laid out; canvases never change their size.
* `run?_eq_map`: the outcome of a run, from the state in which it ends.
-/

namespace DrawLang

/-- The sources of a library do what their bodies do, and list what comes of each. -/
theorem library_keeps {R : Machine → Machine → Prop} [Chained R] {run : BodyRunner}
    (hreport : ∀ fault, Keeps R (report fault)) (htell : ∀ event, Keeps R (tell event))
    (hrun : ∀ body, Keeps R (run body)) : ∀ library : Library, Keeps R (library.exec run)
  | [] => .pure _
  | source :: sources => by
    have hsources := library_keeps hreport htell hrun sources
    unfold Library.exec
    split
    · refine .bind (htell _) fun _ => ?_
      exact .bind (hreport _) fun _ => hsources
    · refine .bind (hrun _) fun _ => ?_
      exact .bind (htell _) fun _ => hsources

/-- What holds across a change of the canvas that is captured at once holds across drawing, whatever
is told of the capture. -/
theorem Keeps.draw {R : Machine → Machine → Prop} {change : Canvas → Rgba → Canvas}
    (h : ∀ m events, R m { m with
      canvas := change m.canvas m.pen
      recorder := m.recorder.capture (change m.canvas m.pen)
      events }) : Keeps R (draw change) := by
  intro m u m' hm
  obtain ⟨_, m₁, h₁, hm⟩ := bind_eq_some_iff.1 hm
  obtain rfl := modify_eq_some_iff.1 h₁
  obtain rfl := modify_eq_some_iff.1 hm
  exact h m _

/-- Relations between the states before and after that hold across every elementary step, and so
across any number of them. -/
class Stable (R : Machine → Machine → Prop) : Prop extends Chained R where
  report : ∀ fault, Keeps R (report fault)
  tell : ∀ event, Keeps R (tell event)
  bindName : ∀ name binding, Keeps R (bindName name binding)
  usePen : ∀ ink, Keeps R (modify fun m => { m with pen := .ofInk ink })
  paper : ∀ ink, Keeps R (draw fun canvas _ => canvas.fill (.ofInk ink))
  line : ∀ p q, Keeps R (draw fun canvas pen => canvas.line p q pen)
  setPixel : ∀ p ink, Keeps R (draw fun canvas _ => canvas.set p (.ofInk ink))
  setPending : ∀ result, Keeps R (setPending result)
  takePending : Keeps R takePending
  enter : ∀ m inNumber params values,
    R m { m with scope := m.scope.push.setAll params values, inNumber }
  leave : ∀ m inNumber, R m { m with scope := m.scope.pop, inNumber }

namespace Stable

variable {R : Machine → Machine → Prop}

/-- Relations that only look at the canvas, the pen and the recorder. -/
theorem of_picture [Chained R]
    (same : ∀ {m m' : Machine}, m'.canvas = m.canvas → m'.pen = m.pen → m'.recorder = m.recorder →
      R m m')
    (usePen : ∀ (m : Machine) ink, R m { m with pen := .ofInk ink })
    (paper : ∀ ink, Keeps R (draw fun canvas _ => canvas.fill (.ofInk ink)))
    (line : ∀ p q, Keeps R (draw fun canvas pen => canvas.line p q pen))
    (setPixel : ∀ p ink, Keeps R (draw fun canvas _ => canvas.set p (.ofInk ink))) : Stable R where
  report _ := .modify fun _ => same rfl rfl rfl
  tell _ := .modify fun _ => same rfl rfl rfl
  bindName _ _ := .modify fun _ => same rfl rfl rfl
  usePen ink := .modify fun m => usePen m ink
  paper := paper
  line := line
  setPixel := setPixel
  setPending _ := .modify fun _ => same rfl rfl rfl
  takePending := .bind .get fun _ => .bind (.modify fun _ => same rfl rfl rfl) fun _ => .pure _
  enter _ _ _ _ := same rfl rfl rfl
  leave _ _ := same rfl rfl rfl

variable [Stable R] {run : BodyRunner}

theorem inFrame {b : Bool} {params : List String} {values : List Int64} {body : Exec Unit}
    (hbody : Keeps R body) : Keeps R (inFrame b params values body) := by
  intro m u m' h
  obtain ⟨m₁, h₁, rfl⟩ := inFrame_eq_some_iff.1 h
  have hentered := Chained.trans (Stable.enter m b params values) (hbody h₁)
  exact Chained.trans hentered (Stable.leave m₁ _)

/-! ## Expressions -/

theorem readName (word : Word) : Keeps R (readName word) := by
  refine .bind .get fun m => ?_
  split
  · exact .pure _
  · exact .bind (Stable.report _) fun _ => .pure _

theorem operate (op : Operator) (a b : Int64) (place : Position) :
    Keeps R (operate op a b place) := by
  unfold DrawLang.operate
  split
  · exact .pure _
  · exact .bind (Stable.report _) fun _ => .pure _

theorem findDefinition (role : Role) (name : String) : Keeps R (findDefinition role name) :=
  .bind .get fun _ => .pure _

theorem isPending : Keeps R isPending :=
  .bind .get fun _ => .pure _

mutual

theorem eval (hrun : ∀ body, Keeps R (run body)) : ∀ e : Expr, Keeps R (e.eval run)
  | .literal _ => .pure _
  | .name word => readName word
  | .binary op l r place => by
    refine .bind (eval hrun l) fun a => ?_
    refine .bind (eval hrun r) fun b => ?_
    exact operate op a b place
  | .call word args => by
    refine .bind (findDefinition _ _) fun d => ?_
    cases d with
    | none => exact .bind (Stable.report _) fun _ => .pure _
    | some d =>
      refine .bind (evalAll hrun args) fun values => ?_
      exact .bind (inFrame (hrun d.body)) fun _ => Stable.takePending

theorem evalAll (hrun : ∀ body, Keeps R (run body)) :
    ∀ es : List Expr, Keeps R (Expr.evalAll run es)
  | [] => .pure _
  | e :: es => by
    refine .bind (eval hrun e) fun n => ?_
    refine .bind (evalAll hrun es) fun ns => ?_
    exact .pure _

end

/-! ## Statements -/

theorem repeatFrom {bound : Exec Int64} {pass : Int64 → Exec Unit} (hbound : Keeps R bound)
    (hpass : ∀ i, Keeps R (pass i)) (n : Nat) (i : Int64) :
    Keeps R (repeatFrom bound pass n i) := by
  induction n generalizing i with
  | zero =>
    unfold DrawLang.repeatFrom
    refine .bind hbound fun last => ?_
    split
    · refine .bind (hpass i) fun _ => ?_
      refine .bind isPending fun pending => ?_
      split <;> exact .pure _
    · exact .pure _
  | succ n ih =>
    unfold DrawLang.repeatFrom
    refine .bind hbound fun last => ?_
    split
    · refine .bind (hpass i) fun _ => ?_
      refine .bind isPending fun pending => ?_
      split
      · exact .pure _
      · exact ih (i + 1)
    · exact .pure _

theorem loadSource (hrun : ∀ body, Keeps R (run body)) (opener : Opener) (path : Word) :
    Keeps R (loadSource opener run path) := by
  unfold DrawLang.loadSource
  split
  · exact Stable.report _
  · exact Stable.report _
  · split
    · exact Stable.report _
    · exact .bind (Stable.tell _) fun _ => hrun _

mutual

theorem exec (hrun : ∀ body, Keeps R (run body)) (opener : Opener) :
    ∀ s : Stmt, Keeps R (s.exec opener run)
  | .paper ink => .bind (eval hrun ink) fun _ => Stable.paper _
  | .pen ink => .bind (eval hrun ink) fun _ => Stable.usePen _
  | .line x₁ y₁ x₂ y₂ => by
    refine .bind (eval hrun x₁) fun _ => ?_
    refine .bind (eval hrun y₁) fun _ => ?_
    refine .bind (eval hrun x₂) fun _ => ?_
    refine .bind (eval hrun y₂) fun _ => ?_
    exact .bind .get fun _ => Stable.line _ _
  | .assign name result => .bind (eval hrun result) fun _ => Stable.bindName _ _
  | .setPixel x y ink => by
    refine .bind (eval hrun x) fun _ => ?_
    refine .bind (eval hrun y) fun _ => ?_
    refine .bind (eval hrun ink) fun _ => ?_
    exact .bind .get fun _ => Stable.setPixel _ _
  | .readPixel name x y => by
    refine .bind (eval hrun x) fun _ => ?_
    refine .bind (eval hrun y) fun _ => ?_
    exact .bind .get fun _ => Stable.bindName _ _
  | .block body => execAll hrun opener body
  | .loop name first last body => by
    refine .bind (eval hrun first) fun i => ?_
    refine repeatFrom (eval hrun last) (fun i => ?_) _ i
    exact .bind (Stable.bindName _ _) fun _ => execAll hrun opener body
  | .test relation left right body => by
    refine .bind (eval hrun left) fun a => ?_
    refine .bind (eval hrun right) fun b => ?_
    split
    · exact execAll hrun opener body
    · exact .pure _
  | .define role name params body => Stable.bindName _ _
  | .call word args => by
    refine .bind (findDefinition _ _) fun d => ?_
    cases d with
    | none => exact Stable.report _
    | some d => exact .bind (evalAll hrun args) fun _ => inFrame (hrun d.body)
  | .value result => by
    refine .bind .get fun m => ?_
    split
    · exact .bind (eval hrun result) fun _ => Stable.setPending _
    · exact Stable.tell _
  | .load path => loadSource hrun opener path

theorem execAll (hrun : ∀ body, Keeps R (run body)) (opener : Opener) :
    ∀ ss : List Stmt, Keeps R (Stmt.execAll opener run ss)
  | [] => .pure _
  | s :: ss => by
    refine .bind (exec hrun opener s) fun _ => ?_
    refine .bind isPending fun pending => ?_
    split
    · exact .pure _
    · exact execAll hrun opener ss

end

/-! ## Bodies, libraries and programs -/

theorem execAt (opener : Opener) (n : Nat) (body : List Stmt) : Keeps R (execAt opener n body) := by
  induction n generalizing body with
  | zero => exact .failure
  | succ n ih => exact execAll ih opener body

theorem library (hrun : ∀ body, Keeps R (run body)) (l : Library) : Keeps R (l.exec run) :=
  library_keeps Stable.report Stable.tell hrun l

theorem whitePaper : Keeps R (draw fun canvas _ => canvas.fill .white) := by
  rw [← Rgba.ofInk_zero]
  exact Stable.paper 0

theorem program (hrun : ∀ body, Keeps R (run body)) (l : Library) (p : Program) :
    Keeps R (p.exec run l) := by
  refine .bind (library hrun l) fun _ => ?_
  exact .bind whitePaper fun _ => hrun p

end Stable

/-! ## Sizes -/

def SameSize (m m' : Machine) : Prop :=
  m'.canvas.width = m.canvas.width ∧ m'.canvas.height = m.canvas.height

instance : Chained SameSize where
  refl _ := ⟨rfl, rfl⟩
  trans h h' := ⟨h'.1.trans h.1, h'.2.trans h.2⟩

instance : Stable SameSize :=
  .of_picture (fun hcanvas _ _ => by rw [SameSize, hcanvas]; exact ⟨rfl, rfl⟩)
    (fun _ _ => ⟨rfl, rfl⟩)
    (fun _ => .draw fun _ _ => ⟨rfl, rfl⟩)
    (fun _ _ => .draw fun _ _ => ⟨Canvas.width_paint _ _ _, Canvas.height_paint _ _ _⟩)
    (fun _ _ => .draw fun _ _ => ⟨Canvas.width_set _ _ _, Canvas.height_set _ _ _⟩)

def Settings.edge (settings : Settings) : Nat := settings.length.toNat * max settings.scale.toNat 1

/-- Whether the picture can be laid out. -/
def Settings.Fits (settings : Settings) : Prop := Canvas.Fits settings.edge settings.edge

instance (settings : Settings) : Decidable settings.Fits :=
  inferInstanceAs (Decidable (Canvas.Fits _ _))

/-- If the picture can be laid out, so can the canvas. -/
theorem Settings.Fits.canvas {settings : Settings} (h : settings.Fits) :
    Canvas.Fits settings.length.toNat settings.length.toNat :=
  have hle : settings.length.toNat ≤ settings.edge :=
    Nat.le_mul_of_pos_right _ (Nat.le_max_right _ _)
  h.mono hle hle

/-- A canvas of the configured size is scaled if the picture can be laid out, and not otherwise. -/
theorem scaled?_of_length {settings : Settings} {c : Canvas}
    (hwidth : c.width = settings.length.toNat) (hheight : c.height = settings.length.toNat)
    (hcanvas : Canvas.Fits settings.length.toNat settings.length.toNat) :
    c.scaled? .checked settings.scale.toNat =
      if settings.Fits then some (c.inBlocks settings.scale.toNat) else none := by
  have hfits : settings.Fits ↔ Canvas.Fits (c.width * max settings.scale.toNat 1)
      (c.height * max settings.scale.toNat 1) := by
    rw [Settings.Fits, Settings.edge, hwidth, hheight]
  by_cases h : settings.Fits
  · rw [if_pos h, Canvas.scaled?_of_fits (hfits.1 h)]
  · have hscale : 2 ≤ settings.scale.toNat := by
      refine Nat.le_of_not_lt fun hlt => h ?_
      -- below 2 the picture is as large as the canvas
      rw [hfits, hwidth, hheight, Nat.max_eq_right (by omega), Nat.mul_one]
      exact hcanvas
    rw [if_neg h]
    rw [hfits, Nat.max_eq_left (by omega)] at h
    exact Canvas.scaled?_of_not_fits hscale h

/-! ## Outcomes -/

namespace Outcome

def unexecuted (settings : Settings) (fault : Fault) : Outcome :=
  { canvas := (Canvas.blank settings.length.toNat settings.length.toNat).inBlocks
      settings.scale.toNat
    frames := #[]
    faults := #[fault]
    events := #[] }

def ofMachine (settings : Settings) (m : Machine) : Outcome :=
  { canvas := m.canvas.inBlocks settings.scale.toNat
    frames := m.recorder.frames
    faults := m.faults
    events := m.events }

theorem unexecuted?_eq (settings : Settings) (fault : Fault) :
    unexecuted? settings fault =
      if settings.Fits then some (unexecuted settings fault) else none := by
  unfold unexecuted? Canvas.new?
  by_cases hcanvas : Canvas.Fits settings.length.toNat settings.length.toNat
  · rw [if_pos hcanvas]
    show (Canvas.scaled? _ (Canvas.blank _ _) _).bind _ = _
    rw [scaled?_of_length rfl rfl hcanvas]
    split <;> rfl
  · rw [if_neg hcanvas, if_neg fun h => hcanvas h.canvas]
    rfl

theorem ofMachine?_eq {settings : Settings} {m : Machine}
    (hwidth : m.canvas.width = settings.length.toNat)
    (hheight : m.canvas.height = settings.length.toNat)
    (hcanvas : Canvas.Fits settings.length.toNat settings.length.toNat) :
    ofMachine? settings m = if settings.Fits then some (ofMachine settings m) else none := by
  unfold ofMachine?
  rw [scaled?_of_length hwidth hheight hcanvas]
  split <;> rfl

end Outcome

/-- The outcome of a run shows the state that it ends in, if the picture can be laid out. -/
theorem run?_eq_map (settings : Settings) (depth : Nat) (name : String) (p : Program) :
    p.run? settings depth name =
      if settings.Fits then
        (p.exec (execAt settings.opener depth) settings.library (settings.start name p)).map
          fun r => .ofMachine settings r.2
      else none := by
  unfold Program.run?
  by_cases hcanvas : Canvas.Fits settings.length.toNat settings.length.toNat
  · rw [guard_of hcanvas]
    show (p.exec (execAt settings.opener depth) settings.library (settings.start name p)).bind _ = _
    cases h : p.exec (execAt settings.opener depth) settings.library (settings.start name p) with
    | none => split <;> rfl
    | some r =>
      obtain ⟨hwidth, hheight⟩ : SameSize (settings.start name p) r.2 :=
        Stable.program (fun body => Stable.execAt settings.opener depth body) settings.library p h
      exact Outcome.ofMachine?_eq hwidth hheight hcanvas
  · rw [guard_of_not hcanvas, if_neg fun h => hcanvas h.canvas]
    rfl

theorem run?_program_eq_some_iff {settings : Settings} {depth : Nat} {name : String}
    {program : Program} {o : Outcome} : program.run? settings depth name = some o ↔
      settings.Fits ∧ ∃ m, program.exec (execAt settings.opener depth) settings.library
        (settings.start name program) = some ((), m) ∧ o = .ofMachine settings m := by
  rw [run?_eq_map]
  split
  · rename_i hfits
    rw [Option.map_eq_some_iff]
    constructor
    · rintro ⟨⟨u, m⟩, hm, rfl⟩
      exact ⟨hfits, m, hm, rfl⟩
    · rintro ⟨-, m, hm, rfl⟩
      exact ⟨((), m), hm, rfl⟩
  · rename_i hfits
    exact ⟨nofun, fun h => absurd h.1 hfits⟩

theorem unexecuted?_eq_some_iff {settings : Settings} {fault : Fault} {o : Outcome} :
    Outcome.unexecuted? settings fault = some o ↔
      settings.Fits ∧ o = .unexecuted settings fault := by
  rw [Outcome.unexecuted?_eq]
  split
  · rename_i hfits
    rw [Option.some.injEq, eq_comm, and_iff_right hfits]
  · rename_i hfits
    exact ⟨nofun, fun h => absurd h.1 hfits⟩

end DrawLang
