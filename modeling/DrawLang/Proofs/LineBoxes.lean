import DrawLang.Interpreter
import DrawLang.Proofs.FarLines

/-!
# Lines and the boxes of their ends

A program counts heights from the bottom row of the canvas, and the canvas counts rows from the top.
A `Line` changes pixels in the box of its ends only. But rows are counted in 64-bit words, so the
lowest heights, as many as the canvas has rows, wrap around and stand for heights far above it; a
line to such an end goes up.

* `wrappedHeight`: the height that an end stands for; `toInt_flip`: its row.
* `exec_line`: what a `Line` draws.
* `lines_stay_in_boxes`, `low_line_goes_up`.
-/

namespace DrawLang

/-! ## Heights -/

/-- The height that a number stands for as the end of a line, on a canvas with so many rows. -/
def wrappedHeight (rows : Nat) (y : Int64) : Int :=
  if y.toInt < Int64.minValue.toInt + rows then y.toInt + 2 ^ 64 else y.toInt

def Machine.pixelAt (m : Machine) (x y : Int) : Rgba :=
  m.canvas.pixel (x, m.canvas.height - 1 - y)

theorem toInt_flip {m : Machine} (hheight : m.canvas.height < 2 ^ 31) (y : Int64) :
    (m.flip y).toInt = m.canvas.height - 1 - wrappedHeight m.canvas.height y := by
  have hleast := y.le_toInt
  have hgreatest := y.toInt_lt
  have hrows : (Int64.ofNat m.canvas.height).toInt = m.canvas.height :=
    Int64.toInt_ofNat_of_lt (by omega)
  have htop : (Int64.ofNat m.canvas.height - 1).toInt = m.canvas.height - 1 := by
    rw [Int64.toInt_sub, hrows, Int64.toInt_one]
    exact Int.bmod_eq_of_le (by omega) (by omega)
  rw [Machine.flip, Int64.toInt_sub, htop, wrappedHeight, Int64.toInt_minValue, Int.bmod_def]
  split <;> omega

theorem wrappedHeight_of_le {rows : Nat} {y : Int64} (h : Int64.minValue.toInt + rows ≤ y.toInt) :
    wrappedHeight rows y = y.toInt :=
  if_neg (by omega)

/-- Rows between those of two ends are at heights between theirs. -/
theorem between_flip_iff {rows u v y : Int} :
    Between (rows - 1 - u) (rows - 1 - v) (rows - 1 - y) ↔ Between u v y := by
  unfold Between
  omega

/-! ## Statements that draw lines -/

section Statements

variable {run : BodyRunner} {x₁ y₁ x₂ y₂ : Expr} {a₁ b₁ a₂ b₂ : Int64} {m m₁ : Machine}

theorem evalAll_cons_eq_some_iff {e : Expr} {es : List Expr} {n : Int64} {ns : List Int64}
    {m' : Machine} : Expr.evalAll run (e :: es) m = some (n :: ns, m') ↔
      ∃ m₁, e.eval run m = some (n, m₁) ∧ Expr.evalAll run es m₁ = some (ns, m') := by
  rw [Expr.evalAll, bind_eq_some_iff]
  constructor
  · rintro ⟨_, m₁, he, h⟩
    obtain ⟨_, _, hes, h⟩ := bind_eq_some_iff.1 h
    obtain ⟨heq, rfl⟩ := pure_eq_some_iff.1 h
    obtain ⟨rfl, rfl⟩ := List.cons.inj heq
    exact ⟨m₁, he, hes⟩
  · rintro ⟨m₁, he, hes⟩
    exact ⟨n, m₁, he, by rw [bind_of_eq_some hes]; rfl⟩

/-- A `Line` draws in the state that the evaluation of its coordinates has led to. -/
theorem exec_line (opener : Opener)
    (h : Expr.evalAll run [x₁, y₁, x₂, y₂] m = some ([a₁, b₁, a₂, b₂], m₁)) :
    ∃ m', (Stmt.line x₁ y₁ x₂ y₂).exec opener run m = some ((), m') ∧
      m'.canvas = m₁.canvas.line (m₁.point a₁ b₁) (m₁.point a₂ b₂) m₁.pen := by
  simp only [evalAll_cons_eq_some_iff] at h
  obtain ⟨_, hx₁, _, hy₁, _, hx₂, _, hy₂, h⟩ := h
  obtain ⟨-, rfl⟩ := pure_eq_some_iff.1 h
  rw [Stmt.exec, bind_of_eq_some hx₁, bind_of_eq_some hy₁, bind_of_eq_some hx₂,
    bind_of_eq_some hy₂]
  exact ⟨_, rfl, rfl⟩

/-- What a line between two points of a program changes is in the box of its ends, each end at the
height that it stands for. -/
theorem between_of_line_ne (hwidth : m.canvas.width < 2 ^ 31) (hheight : m.canvas.height < 2 ^ 31)
    {x y : Int} (h : (m.canvas.line (m.point a₁ b₁) (m.point a₂ b₂) m.pen).pixel
      (x, m.canvas.height - 1 - y) ≠ m.pixelAt x y) :
    Between a₁.toInt a₂.toInt x ∧
      Between (wrappedHeight m.canvas.height b₁) (wrappedHeight m.canvas.height b₂) y := by
  have hbox := between_of_pixel_line_ne hwidth hheight h
  simp only [Machine.point, toInt_flip hheight, between_flip_iff] at hbox
  exact hbox

end Statements

/-- **Lines stay in the boxes of their ends.** A `Line` ends, and keeps the size of the canvas. The
pixels that it changes are, from left to right, between its ends, and in height between the heights
that these stand for. Those are the heights as given, unless an end is one of the lowest numbers
that there are, as many of them as the canvas has rows. -/
theorem lines_stay_in_boxes (opener : Opener) (run : BodyRunner) (x₁ y₁ x₂ y₂ : Expr)
    (a₁ b₁ a₂ b₂ : Int64) (m m₁ : Machine)
    (hends : Expr.evalAll run [x₁, y₁, x₂, y₂] m = some ([a₁, b₁, a₂, b₂], m₁))
    (hwidth : m₁.canvas.width < 2 ^ 31) (hheight : m₁.canvas.height < 2 ^ 31) :
    ∃ m', (Stmt.line x₁ y₁ x₂ y₂).exec opener run m = some ((), m') ∧
      m'.canvas.width = m₁.canvas.width ∧ m'.canvas.height = m₁.canvas.height ∧
      (∀ x y : Int, m'.pixelAt x y ≠ m₁.pixelAt x y → Between a₁.toInt a₂.toInt x ∧
        Between (wrappedHeight m₁.canvas.height b₁) (wrappedHeight m₁.canvas.height b₂) y) ∧
      (Int64.minValue.toInt + m₁.canvas.height ≤ b₁.toInt →
        Int64.minValue.toInt + m₁.canvas.height ≤ b₂.toInt →
        ∀ x y : Int, m'.pixelAt x y ≠ m₁.pixelAt x y →
          Between a₁.toInt a₂.toInt x ∧ Between b₁.toInt b₂.toInt y) := by
  obtain ⟨m', hexec, hcanvas⟩ := exec_line opener hends
  have hheight' : m'.canvas.height = m₁.canvas.height := by
    rw [hcanvas, Canvas.line, Canvas.height_paint]
  have hbox : ∀ x y : Int, m'.pixelAt x y ≠ m₁.pixelAt x y → Between a₁.toInt a₂.toInt x ∧
      Between (wrappedHeight m₁.canvas.height b₁) (wrappedHeight m₁.canvas.height b₂) y := by
    intro x y hne
    rw [Machine.pixelAt, hheight', hcanvas] at hne
    exact between_of_line_ne hwidth hheight hne
  refine ⟨m', hexec, ?_, hheight', hbox, fun h₁ h₂ => ?_⟩
  · rw [hcanvas, Canvas.line, Canvas.width_paint]
  · rw [wrappedHeight_of_le h₁, wrappedHeight_of_le h₂] at hbox
    exact hbox

def negated (e : Expr) : Expr := .binary .sub (.literal "0") e (.start "")

/-- A line on a canvas of three rows, from far below its bottom row to the middle one. The top row
keeps its color. -/
theorem deep_line_stays_low :
    let m := Machine.start 3 (.new false 0 1)
    let ends : List Expr :=
      [.literal "0", negated (.literal "9223372036854775805"), .literal "2", .literal "1"]
    Expr.evalAll (execAt .none 0) ends m = some ([0, -9223372036854775805, 2, 1], m) ∧
    m.canvas.width < 2 ^ 31 ∧ m.canvas.height < 2 ^ 31 ∧
    Int64.minValue.toInt + m.canvas.height ≤ (-9223372036854775805 : Int64).toInt ∧
    Int64.minValue.toInt + m.canvas.height ≤ (1 : Int64).toInt ∧
    ∃ m', (Stmt.line (.literal "0") (negated (.literal "9223372036854775805")) (.literal "2")
      (.literal "1")).exec .none (execAt .none 0) m = some ((), m') ∧
      m'.pixelAt 1 2 = m.pixelAt 1 2 := by
  intro m ends
  have hends : Expr.evalAll (execAt .none 0) ends m =
      some ([0, -9223372036854775805, 2, 1], m) := rfl
  have hwidth : m.canvas.width < 2 ^ 31 := by decide
  have hheight : m.canvas.height < 2 ^ 31 := by decide
  have hlow : Int64.minValue.toInt + m.canvas.height ≤ (-9223372036854775805 : Int64).toInt := by
    decide
  have hhigh : Int64.minValue.toInt + m.canvas.height ≤ (1 : Int64).toInt := by decide
  obtain ⟨m', hexec, -, -, -, hbox⟩ := lines_stay_in_boxes .none (execAt .none 0) _ _ _ _ _ _ _ _ m
    m hends hwidth hheight
  refine ⟨hends, hwidth, hheight, hlow, hhigh, m', hexec, ?_⟩
  by_contra hne
  exact absurd (hbox hlow hhigh 1 2 hne).2 (by decide)

/-- A line to the lowest height that there is need not stay in the box of its ends. On a canvas of
one pixel, a line that is below the canvas at both ends is drawn across it. -/
theorem low_line_goes_up :
    ¬ ∀ (opener : Opener) (run : BodyRunner) (x₁ y₁ x₂ y₂ : Expr) (a₁ b₁ a₂ b₂ : Int64)
      (m m₁ m' : Machine),
      Expr.evalAll run [x₁, y₁, x₂, y₂] m = some ([a₁, b₁, a₂, b₂], m₁) →
      m₁.canvas.width < 2 ^ 31 → m₁.canvas.height < 2 ^ 31 →
      (Stmt.line x₁ y₁ x₂ y₂).exec opener run m = some ((), m') →
      ∀ x y : Int, m'.pixelAt x y ≠ m₁.pixelAt x y →
        Between a₁.toInt a₂.toInt x ∧ Between b₁.toInt b₂.toInt y := by
  intro h
  let m := Machine.start 1 (.new false 0 1)
  let low : Expr :=
    .binary .sub (negated (.literal "9223372036854775807")) (.literal "1") (.start "")
  have hends : Expr.evalAll (execAt .none 0)
      [.literal "0", low, .literal "0", negated (.literal "1")] m =
      some ([0, Int64.minValue, 0, -1], m) := rfl
  obtain ⟨m', hexec, hcanvas⟩ := exec_line .none hends
  have hchanged : m'.pixelAt 0 0 ≠ m.pixelAt 0 0 := by
    rw [Machine.pixelAt, hcanvas]
    decide
  have hbox := h _ _ _ _ _ _ _ _ _ _ m m m' hends (by decide) (by decide) hexec 0 0 hchanged
  exact absurd hbox.2 (by decide)

end DrawLang
