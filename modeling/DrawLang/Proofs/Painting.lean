import DrawLang.Proofs.LineBoxes
import DrawLang.Proofs.Readings
import DrawLang.Proofs.Unrolling

/-!
# Steps that paint a region

Lines are drawn with the pen, so a body that is made of lines leaves the pen's color on a region of
the canvas and all other pixels as they were. Regions are given in the coordinates of programs, and
what they have beyond the canvas does not count. The region of a body is the union of the regions of
its parts, whether these are statements in a row or the passes of a loop.

* `Painted`: what is between two states if a region has been painted.
* `Paints`: a step that ends and paints a region, from every state with a property, which it keeps.
* `Paints.execAll`, `Paints.loop`: statements in a row and loops.
* `painted_line`: a line whose coordinates are read.
* `exists_call`: the call of a command whose body paints a region.
-/

namespace DrawLang

/-! ## Regions -/

/-- A set of places on and beyond the canvas, in the coordinates of programs. -/
abbrev Region := Int → Int → Prop

def Machine.OnCanvas (m : Machine) (x y : Int) : Prop :=
  0 ≤ x ∧ x < m.canvas.width ∧ 0 ≤ y ∧ y < m.canvas.height

/-- From a state to one in which a region has the color of the pen as far as it lies on the canvas.
All other pixels are the same, and so are the size of the canvas, the pen, and what went wrong. -/
structure Painted (S : Region) (m m' : Machine) : Prop where
  width : m'.canvas.width = m.canvas.width
  height : m'.canvas.height = m.canvas.height
  inside : ∀ x y, S x y → m.OnCanvas x y → m'.pixelAt x y = m.pen
  outside : ∀ x y, ¬ (S x y ∧ m.OnCanvas x y) → m'.pixelAt x y = m.pixelAt x y
  pen : m'.pen = m.pen
  faults : m'.faults = m.faults

namespace Painted

variable {S T : Region} {m m₁ m' : Machine}

theorem refl (m : Machine) : Painted (fun _ _ => False) m m :=
  ⟨rfl, rfl, fun _ _ h => h.elim, fun _ _ _ => rfl, rfl, rfl⟩

theorem onCanvas_iff (h : Painted S m m') (x y : Int) : m'.OnCanvas x y ↔ m.OnCanvas x y := by
  rw [Machine.OnCanvas, h.width, h.height]
  rfl

theorem trans (h : Painted S m m₁) (h' : Painted T m₁ m') :
    Painted (fun x y => S x y ∨ T x y) m m' where
  width := h'.width.trans h.width
  height := h'.height.trans h.height
  inside x y hST hon := by
    have hon₁ := (h.onCanvas_iff x y).2 hon
    by_cases hT : T x y
    · exact (h'.inside x y hT hon₁).trans h.pen
    · have hS : S x y := hST.resolve_right hT
      exact (h'.outside x y fun hmem => hT hmem.1).trans (h.inside x y hS hon)
  outside x y hout := by
    have hT : ¬ (T x y ∧ m₁.OnCanvas x y) := fun hmem =>
      hout ⟨.inr hmem.1, (h.onCanvas_iff x y).1 hmem.2⟩
    exact (h'.outside x y hT).trans (h.outside x y fun hmem => hout ⟨.inl hmem.1, hmem.2⟩)
  pen := h'.pen.trans h.pen
  faults := h'.faults.trans h.faults

/-- Only what a region has on the canvas counts. -/
theorem congr (h : Painted S m m') (hST : ∀ x y, m.OnCanvas x y → (S x y ↔ T x y)) :
    Painted T m m' where
  width := h.width
  height := h.height
  inside x y hT hon := h.inside x y ((hST x y hon).2 hT) hon
  outside x y hout := h.outside x y fun hmem => hout ⟨(hST x y hmem.2).1 hmem.1, hmem.2⟩
  pen := h.pen
  faults := h.faults

end Painted

/-! ## Steps -/

/-- Whether a step, from any state with a property, ends, keeps the property and paints a region. -/
def Paints (P : Machine → Prop) (S : Region) (x : Exec Unit) : Prop :=
  ∀ m, P m → ∃ m', x m = some ((), m') ∧ P m' ∧ Painted S m m'

section Steps

variable {P : Machine → Prop} {S : Region} {ι : Type} {region : ι → Region} {opener : Opener}
  {run : BodyRunner} {pass : Int64 → Exec Unit} {bound : Exec Int64} {a b : Int64} {m : Machine}

theorem painted_or_exists {is : List ι} {i : ι} {m₁ m' : Machine} (h : Painted (region i) m m₁)
    (h' : Painted (fun x y => ∃ j ∈ is, region j x y) m₁ m') :
    Painted (fun x y => ∃ j ∈ i :: is, region j x y) m m' :=
  (h.trans h').congr fun x y _ => by simp

theorem painted_nil (m : Machine) : Painted (fun x y => ∃ i ∈ ([] : List ι), region i x y) m m :=
  (Painted.refl m).congr fun x y _ => by simp

/-- Statements in a row paint the union of their regions. -/
theorem Paints.execAll (hnone : ∀ m, P m → m.pending = none) {ss : List Stmt} {is : List ι}
    (h : List.Forall₂ (fun s i => Paints P (region i) (s.exec opener run)) ss is) :
    Paints P (fun x y => ∃ i ∈ is, region i x y) (Stmt.execAll opener run ss) := by
  induction h with
  | nil => exact fun m hm => ⟨m, rfl, hm, painted_nil m⟩
  | cons hs _ ih =>
    intro m hm
    obtain ⟨m₁, hexec, hm₁, hpainted⟩ := hs m hm
    obtain ⟨m', hrest, hm', hpainted'⟩ := ih m₁ hm₁
    exact ⟨m', (execAll_of_none hexec (hnone m₁ hm₁)).trans hrest, hm',
      painted_or_exists hpainted hpainted'⟩

/-- The passes of a loop paint the union of their regions. -/
theorem Paints.passEach (hnone : ∀ m, P m → m.pending = none) {region : Int64 → Region}
    (hpass : ∀ i, Paints P (region i) (pass i)) (is : List Int64) :
    Paints P (fun x y => ∃ i ∈ is, region i x y) (passEach pass is) := by
  induction is with
  | nil => exact fun m hm => ⟨m, rfl, hm, painted_nil m⟩
  | cons i is ih =>
    intro m hm
    obtain ⟨m₁, hexec, hm₁, hpainted⟩ := hpass i m hm
    obtain ⟨m', hrest, hm', hpainted'⟩ := ih m₁ hm₁
    refine ⟨m', ?_, hm', painted_or_exists hpainted hpainted'⟩
    rw [passEach_cons, hexec, Option.bind_some, if_neg (by simp [hnone m₁ hm₁])]
    exact hrest

/-- A bound is steady if it reads the same in all states with a property that the passes keep. -/
theorem steady_of_paints {region : Int64 → Region} (hbound : ∀ m, P m → bound m = some (b, m))
    (hpass : ∀ i, Paints P (region i) (pass i)) (hm : P m) : Steady bound pass a b m := by
  have hkeep : ∀ is m₁ m', Passes pass is m₁ m' → P m₁ → P m' := by
    intro is m₁ m' hpasses
    induction hpasses with
    | nil => exact id
    | @cons i is m₁ m₂ m' hexec _ _ ih =>
      intro hm₁
      obtain ⟨m₂', hexec', hm₂, -⟩ := hpass i m₁ hm₁
      obtain rfl : m₂ = m₂' := congrArg Prod.snd (Option.some.inj (hexec.symm.trans hexec'))
      exact ih hm₂
  exact fun is m' _ _ hpasses => hbound m' (hkeep is m m' hpasses hm)

/-- A loop paints the union of the regions of its passes, one for each of its numbers. -/
theorem Paints.loop (hnone : ∀ m, P m → m.pending = none) {region : Int64 → Region} {name : String}
    {first last : Expr} {body : List Stmt} (hfirst : ∀ m, P m → first.eval run m = some (a, m))
    (hlast : ∀ m, P m → last.eval run m = some (b, m))
    (hpass : ∀ i, Paints P (region i) (passOnce opener run name body i)) :
    Paints P (fun x y => ∃ i ∈ countUp a b, region i x y)
      ((Stmt.loop name first last body).exec opener run) := by
  intro m hm
  obtain ⟨m', hexec, hm', hpainted⟩ := Paints.passEach hnone hpass (countUp a b) m hm
  refine ⟨m', ?_, hm', hpainted⟩
  rw [← hexec, ← repeatFrom_eq_passEach (steady_of_paints hlast hpass hm)]
  exact bind_of_eq_some (hfirst m hm)

end Steps

theorem mem_countUp {a b i : Int64} : i ∈ countUp a b ↔ a ≤ i ∧ i ≤ b := by
  rw [countUp, List.mem_map, Int64.le_iff_toInt_le, Int64.le_iff_toInt_le]
  constructor
  · rintro ⟨k, hk, rfl⟩
    have hle := mem_interval.1 hk
    have hleast := a.le_toInt
    have hgreatest := b.toInt_lt
    rw [Int64.toInt_ofInt_of_le (by omega) (by omega)]
    exact hle
  · intro h
    exact ⟨i.toInt, mem_interval.2 h, Int64.ofInt_toInt i⟩

/-! ## Lines -/

section Lines

variable {run : BodyRunner} {x₁ y₁ x₂ y₂ : Expr} {a₁ b₁ a₂ b₂ : Int64} {m : Machine}

/-- The places of a line between two points of a program, on the canvas. -/
def lineRegion (m : Machine) (a₁ b₁ a₂ b₂ : Int64) : Region := fun x y =>
  OnLine (clampPoint (m.point a₁ b₁)) (clampPoint (m.point a₂ b₂)) (x, m.canvas.height - 1 - y)

theorem within_iff_onCanvas {x y : Int} :
    Within m.canvas.width m.canvas.height (x, m.canvas.height - 1 - y) ↔ m.OnCanvas x y := by
  unfold Within Machine.OnCanvas
  omega

/-- A `Line` whose coordinates are read paints the line between its ends, and binds nothing. -/
theorem painted_line (opener : Opener) (hx₁ : ReadsAs m.scope x₁ a₁) (hy₁ : ReadsAs m.scope y₁ b₁)
    (hx₂ : ReadsAs m.scope x₂ a₂) (hy₂ : ReadsAs m.scope y₂ b₂) :
    ∃ m', (Stmt.line x₁ y₁ x₂ y₂).exec opener run m = some ((), m') ∧ m'.scope = m.scope ∧
      m'.pending = m.pending ∧ Painted (lineRegion m a₁ b₁ a₂ b₂) m m' := by
  let drawn : Canvas := m.canvas.line (m.point a₁ b₁) (m.point a₂ b₂) m.pen
  obtain ⟨m', hexec, hcanvas, hpen, hscope, hfaults, hpending⟩ :
      ∃ m', (Stmt.line x₁ y₁ x₂ y₂).exec opener run m = some ((), m') ∧ m'.canvas = drawn ∧
        m'.pen = m.pen ∧ m'.scope = m.scope ∧ m'.faults = m.faults ∧ m'.pending = m.pending := by
    rw [Stmt.exec, bind_of_eq_some (hx₁.eval rfl), bind_of_eq_some (hy₁.eval rfl),
      bind_of_eq_some (hx₂.eval rfl), bind_of_eq_some (hy₂.eval rfl)]
    exact ⟨_, rfl, rfl, rfl, rfl, rfl, rfl⟩
  have hheight : m'.canvas.height = m.canvas.height := by
    rw [hcanvas]
    exact Canvas.height_paint _ _ _
  have hpixel (x y : Int) : m'.pixelAt x y =
      if Within m.canvas.width m.canvas.height (x, m.canvas.height - 1 - y) ∧
        OnLine (clampPoint (m.point a₁ b₁)) (clampPoint (m.point a₂ b₂))
          (x, m.canvas.height - 1 - y) then m.pen
      else m.pixelAt x y := by
    rw [Machine.pixelAt, hheight, hcanvas]
    exact pixel_line _ _ _ _ _
  refine ⟨m', hexec, hscope, hpending, ?_, hheight, fun x y hline hon => ?_, fun x y hout => ?_,
    hpen, hfaults⟩
  · rw [hcanvas]
    exact Canvas.width_paint _ _ _
  · rw [hpixel, if_pos ⟨within_iff_onCanvas.2 hon, hline⟩]
  · rw [hpixel, if_neg fun h => hout ⟨h.2, within_iff_onCanvas.1 h.1⟩]

end Lines

/-! ## Calls -/

/-- The call of a command whose body paints a region ends, and leaves all bindings as they were. -/
theorem exists_call {opener : Opener} {depth : Nat} {S : Region} {word : Word} {args : List Expr}
    {values : List Int64} {d : Definition} {m m₁ : Machine}
    (hfind : findDefinition .command word.text m = some (some d, m))
    (hargs : Expr.evalAll (execAt opener depth) args m = some (values, m₁))
    (hbody : ∃ m₂, execAt opener depth d.body (m₁.enter .command d.params values) =
      some ((), m₂) ∧ Painted S (m₁.enter .command d.params values) m₂)
    (hnone : m.pending = none) :
    ∃ m', (Stmt.call word args).exec opener (execAt opener depth) m = some ((), m') ∧
      Painted S m₁ m' ∧ m'.scope = m.scope ∧ m'.inNumber = m.inNumber ∧ m'.pending = none := by
  obtain ⟨m₂, hexec, hpainted⟩ := hbody
  have hcall : (Stmt.call word args).exec opener (execAt opener depth) m =
      some ((), { m₂ with inNumber := m₁.inNumber, scope := m₂.scope.pop }) := by
    rw [Stmt.exec, bind_of_eq_some hfind]
    exact (bind_of_eq_some hargs).trans (inFrame_eq_some_iff.2 ⟨m₂, hexec, rfl⟩)
  have hrun := execAt_keeps opener depth
  obtain ⟨hscope, hnumber, hpending⟩ := call_keeps hrun opener word args hcall
  exact ⟨_, hcall, { hpainted with }, hscope, hnumber, hpending hnone⟩

end DrawLang
