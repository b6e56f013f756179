import DrawLang.Canvas

/-!
# Lines

A line joins two points with one pixel for every step along its longer axis. It is walked from the
smaller of its ends, first by `x` and then by `y`, so that the order of the ends does not matter.
While the walk takes steps along the longer axis, an error term says when it moves along the shorter
one as well.

Only the steps that can lie on the canvas are walked. The offset and the error at the first of them
are computed directly.

* `walk`: the steps of a line with the offsets across it.
* `linePoints`: the points of a line that can lie on a canvas.
* `Canvas.line`: a line drawn on a canvas.
-/

namespace DrawLang

/-! ## Intervals -/

def interval (first last : Int) : List Int :=
  (List.range (last + 1 - first).toNat).map fun (k : Nat) => first + k

theorem mem_interval {first last k : Int} :
    k ∈ interval first last ↔ first ≤ k ∧ k ≤ last := by
  unfold interval
  rw [List.mem_map]
  constructor
  · rintro ⟨n, hn, rfl⟩
    have := List.mem_range.1 hn
    omega
  · intro h
    exact ⟨(k - first).toNat, List.mem_range.2 (by omega), by omega⟩

theorem length_interval (first last : Int) :
    (interval first last).length = (last + 1 - first).toNat := by
  simp [interval]

/-- The first and the last of the steps from 0 to `length` that stay within `0, …, limit - 1` when
they start at `start` and go up if `sign` is positive, and down otherwise. -/
def visibleSteps (start sign length : Int) (limit : Nat) : Option (Int × Int) :=
  let lowest := if 0 < sign then -start else start - (limit - 1)
  let highest := if 0 < sign then limit - 1 - start else start
  let first := max lowest 0
  let last := min highest length
  if 0 < limit ∧ first ≤ last then some (first, last) else none

/-! ## Walking along the longer axis -/

/-- The offset across a line at step `k`: the true offset, rounded to nearest, halves to the start. -/
def offsetAt (major minor k : Int) : Int := -((major - 2 * k * minor) / (2 * major))

/-- The error term at step `k`, at which the offset is `offset`. -/
def errorAt (major minor k offset : Int) : Int :=
  2 * (k + 1) * minor - major - 2 * offset * major

/-- Goes on walking for a number of steps, with the step, the offset and the error at hand. -/
def walkFrom (major minor : Int) : Nat → Int → Int → Int → List Point
  | 0, _, _, _ => []
  | n + 1, step, offset, error =>
    (step, offset) ::
      if 0 < error then
        walkFrom major minor n (step + 1) (offset + 1) (error - 2 * major + 2 * minor)
      else
        walkFrom major minor n (step + 1) offset (error + 2 * minor)

/-- The steps from `first` to `last` of a line that is `major` long and `minor` wide, each with its
offset. -/
def walk (major minor first last : Int) : List Point :=
  let offset := offsetAt major minor first
  walkFrom major minor (last + 1 - first).toNat first offset (errorAt major minor first offset)

theorem length_walkFrom (major minor : Int) (n : Nat) (step offset error : Int) :
    (walkFrom major minor n step offset error).length = n := by
  induction n generalizing step offset error with
  | zero => rfl
  | succ n ih =>
    unfold walkFrom
    split <;> simp [ih]

theorem length_walk (major minor first last : Int) :
    (walk major minor first last).length = (last + 1 - first).toNat :=
  length_walkFrom ..

/-! ## Points of a line -/

def clampCoordinate (v : Int) : Int := max Int32.minValue.toInt (min v Int32.maxValue.toInt)

def clampPoint (p : Point) : Point := (clampCoordinate p.1, clampCoordinate p.2)

/-- Whether a point comes first among the ends of a line. -/
def precedes (p q : Point) : Bool := decide (p.1 < q.1) || (p.1 == q.1 && decide (p.2 ≤ q.2))

/-- The points of a line from `a` to `b`, where `a` precedes `b`, that can lie on a canvas. -/
def orderedLinePoints (width height : Nat) (a b : Point) : List Point :=
  let dx := b.1 - a.1
  let dy := b.2 - a.2
  if dx = 0 ∧ dy = 0 then
    [a]
  else if dy = 0 then
    (interval (max a.1 0) (min b.1 (width - 1))).map fun x => (x, a.2)
  else if dx = 0 then
    (interval (max a.2 0) (min b.2 (height - 1))).map fun y => (a.1, y)
  else if dx = dy.natAbs then
    match visibleSteps a.1 1 dx width with
    | none => []
    | some (first, last) =>
      (interval first last).map fun k => (a.1 + k, a.2 + k * dy.sign)
  else if dy.natAbs < dx then
    match visibleSteps a.1 1 dx width with
    | none => []
    | some (first, last) =>
      (walk dx dy.natAbs first last).map fun p => (a.1 + p.1, a.2 + p.2 * dy.sign)
  else
    match visibleSteps a.2 dy.sign dy.natAbs height with
    | none => []
    | some (first, last) =>
      (walk dy.natAbs dx first last).map fun p => (a.1 + p.2, a.2 + p.1 * dy.sign)

def linePoints (width height : Nat) (p q : Point) : List Point :=
  let a := clampPoint p
  let b := clampPoint q
  if precedes a b then orderedLinePoints width height a b else orderedLinePoints width height b a

theorem precedes_or (p q : Point) : precedes p q = true ∨ precedes q p = true := by
  simp only [precedes, Bool.or_eq_true, Bool.and_eq_true, decide_eq_true_eq, beq_iff_eq]
  omega

theorem eq_of_precedes {p q : Point} (h : precedes p q = true) (h' : precedes q p = true) :
    p = q := by
  simp only [precedes, Bool.or_eq_true, Bool.and_eq_true, decide_eq_true_eq, beq_iff_eq] at h h'
  exact Prod.ext (by omega) (by omega)

/-- The order of the ends of a line does not matter. -/
theorem linePoints_comm (width height : Nat) (p q : Point) :
    linePoints width height p q = linePoints width height q p := by
  unfold linePoints
  cases h : precedes (clampPoint p) (clampPoint q) <;>
    cases h' : precedes (clampPoint q) (clampPoint p)
  · rcases precedes_or (clampPoint p) (clampPoint q) with hp | hp <;> simp_all
  · simp [h, h']
  · simp [h, h']
  · simp [eq_of_precedes h h']

def Canvas.line (c : Canvas) (p q : Point) (color : Rgba) : Canvas :=
  c.paint (linePoints c.width c.height p q) color

theorem Canvas.line_comm (c : Canvas) (p q : Point) (color : Rgba) :
    c.line p q color = c.line q p color := by
  unfold Canvas.line
  rw [linePoints_comm]

end DrawLang
