import DrawLang.Proofs.GaplessWalk

/-!
# Lines with far ends

The ends of a line are brought into the range of 32-bit words, coordinate by coordinate, before
anything is drawn. What is then drawn is exact: on the canvas it is the line between the new ends.
That need not be the line between the ends as given, since a line whose ends move by different
amounts is bent. It is that line if its ends are in range, if it runs along an axis or along the
main diagonal, and if it stays off the canvas.

* `exactOffset`, `OnLine`: the points of a line, by a formula with unbounded numbers.
* `onLine_iff`: they are the points of the plain walk.
* `OnLine.between`: they lie in the box of the ends.
* `between_clamp_iff`: on the canvas, bringing ends into range keeps what is between them.
* `lines_join_clamped_ends`, `far_line_bends`.
-/

namespace DrawLang

/-! ## The exact line -/

/-- The offset across a line at step `k`: the true one, rounded to nearest, halves to the start. -/
def exactOffset (major minor k : Int) : Int := ⌈(2 * k * minor - major : ℚ) / (2 * major)⌉

/-- The point of the line from `a` to `b` at step `k` along its longer axis. -/
def exactPoint (a b : Point) (k : Int) : Point :=
  let dx := b.1 - a.1
  let dy := b.2 - a.2
  if |dy| < |dx| then (a.1 + k * dx.sign, a.2 + exactOffset |dx| |dy| k * dy.sign)
  else (a.1 + exactOffset |dy| |dx| k * dx.sign, a.2 + k * dy.sign)

/-- Whether a point is on the line from `a` to `b`. -/
def OnLineFrom (a b r : Point) : Prop :=
  ∃ k, (0 ≤ k ∧ k ≤ max |b.1 - a.1| |b.2 - a.2|) ∧ exactPoint a b k = r

/-- Whether a point is on the line between two points, which starts at the smaller one. -/
def OnLine (p q r : Point) : Prop := if precedes p q then OnLineFrom p q r else OnLineFrom q p r

section Offsets

variable {major minor k : Int}

theorem exactOffset_eq (hmajor : 0 ≤ major) :
    exactOffset major minor k = offsetAt major minor k := by
  rcases Int.lt_or_eq_of_le hmajor with hpos | rfl
  · exact (offsetAt_eq_ceil hpos k).symm
  · simp [exactOffset, offsetAt]

theorem exactOffset_zero_minor (hmajor : 0 ≤ major) : exactOffset major 0 k = 0 := by
  rw [exactOffset_eq hmajor]
  rcases Int.lt_or_eq_of_le hmajor with hpos | rfl
  · exact offsetAt_zero_minor hpos k
  · simp [offsetAt]

theorem exactOffset_mem (hminor : 0 ≤ minor) (hle : minor ≤ major) (hk : 0 ≤ k ∧ k ≤ major) :
    0 ≤ exactOffset major minor k ∧ exactOffset major minor k ≤ minor := by
  rcases Int.lt_or_eq_of_le (hminor.trans hle) with hpos | rfl
  · rw [exactOffset_eq hpos.le]
    exact offsetAt_mem hpos hminor hk
  · obtain rfl : minor = 0 := by omega
    simp [exactOffset_zero_minor]

end Offsets

section Points

variable {a b p q r : Point}

theorem exactPoint_eq_plainPoint (a b : Point) (k : Nat) : exactPoint a b k = plainPoint a b k := by
  simp only [exactPoint, plainPoint, Int.abs_eq_natAbs, Nat.cast_lt]
  split
  · rw [exactOffset_eq (by omega), plainState_eq (by omega) (by omega) (by omega)]
  · rcases Nat.eq_zero_or_pos (b.2 - a.2).natAbs with hzero | hpos
    · have hdx : b.1 - a.1 = 0 := by omega
      simp [hdx]
    · rw [exactOffset_eq (by omega), plainState_eq (by omega) (by omega) (by omega)]

theorem onLineFrom_iff : OnLineFrom a b r ↔ r ∈ plainPoints a b := by
  have hlength : max (b.1 - a.1).natAbs (b.2 - a.2).natAbs = max |b.1 - a.1| |b.2 - a.2| := by
    rw [Nat.cast_max, Int.abs_eq_natAbs, Int.abs_eq_natAbs]
  rw [mem_plainPoints (exactPoint a b) _ (fun k => (exactPoint_eq_plainPoint a b k).symm) hlength]
  rfl

/-- The exact line has the points of the plain walk. -/
theorem onLine_iff : OnLine p q r ↔ r ∈ plainWalk p q := by
  unfold OnLine plainWalk
  split <;> exact onLineFrom_iff

instance (p q r : Point) : Decidable (OnLine p q r) := decidable_of_iff _ onLine_iff.symm

end Points

/-! ## Boxes -/

def Between (u v x : Int) : Prop := min u v ≤ x ∧ x ≤ max u v

instance (u v x : Int) : Decidable (Between u v x) := inferInstanceAs (Decidable (_ ∧ _))

section Boxes

variable {u v x k : Int} {a b p q r : Point}

theorem between_comm : Between u v x ↔ Between v u x := by
  unfold Between
  omega

/-- The numbers between two ends are those that are come to by single steps. -/
theorem exists_step_iff :
    (∃ k, (0 ≤ k ∧ k ≤ |v - u|) ∧ u + k * (v - u).sign = x) ↔ Between u v x := by
  unfold Between
  rcases Int.lt_trichotomy u v with hlt | rfl | hgt
  · rw [Int.sign_eq_one_iff_pos.2 (by omega), abs_of_pos (by omega)]
    constructor
    · rintro ⟨k, hk, rfl⟩
      omega
    · intro h
      exact ⟨x - u, by omega, by omega⟩
  · constructor
    · rintro ⟨k, hk, rfl⟩
      simp
    · intro h
      exact ⟨0, by simp, by omega⟩
  · rw [Int.sign_eq_neg_one_iff_neg.2 (by omega), abs_of_neg (by omega)]
    constructor
    · rintro ⟨k, hk, rfl⟩
      omega
    · intro h
      exact ⟨u - x, by omega, by omega⟩

theorem between_step (hk : 0 ≤ k ∧ k ≤ |v - u|) : Between u v (u + k * (v - u).sign) :=
  exists_step_iff.1 ⟨k, hk, rfl⟩

theorem OnLineFrom.between (h : OnLineFrom a b r) :
    Between a.1 b.1 r.1 ∧ Between a.2 b.2 r.2 := by
  obtain ⟨k, hk, rfl⟩ := h
  unfold exactPoint
  simp only
  split
  · have hflat : k ≤ |b.1 - a.1| := by omega
    exact ⟨between_step ⟨hk.1, hflat⟩,
      between_step (exactOffset_mem (abs_nonneg _) (by omega) ⟨hk.1, hflat⟩)⟩
  · have hsteep : k ≤ |b.2 - a.2| := by omega
    exact ⟨between_step (exactOffset_mem (abs_nonneg _) (by omega) ⟨hk.1, hsteep⟩),
      between_step ⟨hk.1, hsteep⟩⟩

/-- A line stays inside the box of its ends. -/
theorem OnLine.between (h : OnLine p q r) : Between p.1 q.1 r.1 ∧ Between p.2 q.2 r.2 := by
  unfold OnLine at h
  split at h
  · exact h.between
  · rw [between_comm, between_comm (u := p.2)]
    exact h.between

/-! ### Lines that fill a side or the diagonal of their box -/

/-- A line whose points depend on one number that goes from `u` to `v` by single steps. -/
theorem onLineFrom_of_points (f : Int → Point)
    (hpoint : ∀ k, exactPoint a b k = f (u + k * (v - u).sign))
    (hlength : max |b.1 - a.1| |b.2 - a.2| = |v - u|) :
    OnLineFrom a b r ↔ ∃ x, Between u v x ∧ f x = r := by
  unfold OnLineFrom
  rw [hlength]
  constructor
  · rintro ⟨k, hk, rfl⟩
    exact ⟨_, between_step hk, (hpoint k).symm⟩
  · rintro ⟨x, hx, rfl⟩
    obtain ⟨k, hk, rfl⟩ := exists_step_iff.2 hx
    exact ⟨k, hk, hpoint k⟩

theorem onLineFrom_level (h : a.2 = b.2) : OnLineFrom a b r ↔ r.2 = a.2 ∧ Between a.1 b.1 r.1 := by
  have hpoint : ∀ k, exactPoint a b k = (a.1 + k * (b.1 - a.1).sign, a.2) := by
    intro k
    simp only [exactPoint, h, sub_self, abs_zero, abs_pos, Int.sign_zero, mul_zero, add_zero]
    split
    · rfl
    · rename_i hzero
      simp [not_not.1 hzero]
  rw [onLineFrom_of_points (fun x => (x, a.2)) hpoint (by simp [h])]
  constructor
  · rintro ⟨x, hx, rfl⟩
    exact ⟨rfl, hx⟩
  · rintro ⟨hy, hx⟩
    exact ⟨r.1, hx, Prod.ext rfl hy.symm⟩

theorem onLineFrom_upright (h : a.1 = b.1) :
    OnLineFrom a b r ↔ r.1 = a.1 ∧ Between a.2 b.2 r.2 := by
  have hpoint : ∀ k, exactPoint a b k = (a.1, a.2 + k * (b.2 - a.2).sign) := by
    intro k
    simp only [exactPoint, h, sub_self, abs_zero, Int.sign_zero, mul_zero, add_zero,
      not_lt_of_ge (abs_nonneg _), ↓reduceIte]
  rw [onLineFrom_of_points (fun y => (a.1, y)) hpoint (by simp [h])]
  constructor
  · rintro ⟨y, hy, rfl⟩
    exact ⟨rfl, hy⟩
  · rintro ⟨hx, hy⟩
    exact ⟨r.2, hy, Prod.ext hx.symm rfl⟩

/-- A line along the main diagonal. -/
theorem onLineFrom_diagonal (ha : a.1 = a.2) (hb : b.1 = b.2) :
    OnLineFrom a b r ↔ r.1 = r.2 ∧ Between a.1 b.1 r.1 := by
  have hpoint : ∀ k, exactPoint a b k =
      (a.1 + k * (b.1 - a.1).sign, a.1 + k * (b.1 - a.1).sign) := by
    intro k
    simp only [exactPoint, ← ha, ← hb, lt_irrefl, ↓reduceIte]
    rcases Int.lt_or_eq_of_le (abs_nonneg (b.1 - a.1)) with hpos | hzero
    · rw [exactOffset_eq hpos.le, offsetAt_diagonal hpos]
    · simp [abs_eq_zero.1 hzero.symm]
  rw [onLineFrom_of_points (fun x => (x, x)) hpoint (by rw [← ha, ← hb, max_self])]
  constructor
  · rintro ⟨x, hx, rfl⟩
    exact ⟨rfl, hx⟩
  · rintro ⟨heq, hx⟩
    exact ⟨r.1, hx, Prod.ext rfl heq⟩

/-- What holds of a line from either end holds of the line. -/
theorem onLine_of_onLineFrom {s : Prop} (h : OnLineFrom p q r ↔ s) (h' : OnLineFrom q p r ↔ s) :
    OnLine p q r ↔ s := by
  unfold OnLine
  split
  · exact h
  · exact h'

theorem onLine_level (h : p.2 = q.2) : OnLine p q r ↔ r.2 = p.2 ∧ Between p.1 q.1 r.1 := by
  apply onLine_of_onLineFrom (onLineFrom_level h)
  rw [onLineFrom_level h.symm, h, between_comm]

theorem onLine_upright (h : p.1 = q.1) : OnLine p q r ↔ r.1 = p.1 ∧ Between p.2 q.2 r.2 := by
  apply onLine_of_onLineFrom (onLineFrom_upright h)
  rw [onLineFrom_upright h.symm, h, between_comm]

theorem onLine_diagonal (hp : p.1 = p.2) (hq : q.1 = q.2) :
    OnLine p q r ↔ r.1 = r.2 ∧ Between p.1 q.1 r.1 := by
  apply onLine_of_onLineFrom (onLineFrom_diagonal hp hq)
  rw [onLineFrom_diagonal hq hp, between_comm]

end Boxes

/-! ## Ends brought into range -/

section Clamped

variable {u v t : Int} {width height limit : Nat} {p q r : Point}

/-- Bringing the ends into range again changes nothing. -/
theorem linePoints_clampPoint (width height : Nat) (p q : Point) :
    linePoints width height (clampPoint p) (clampPoint q) = linePoints width height p q := by
  unfold linePoints
  rw [clampPoint_of_inRange (inRange_clampPoint p), clampPoint_of_inRange (inRange_clampPoint q)]

/-- On the canvas, a line has the points of the exact line between its ends in range. -/
theorem mem_linePoints_iff_onLine (hr : Within width height r) :
    r ∈ linePoints width height p q ↔ OnLine (clampPoint p) (clampPoint q) r := by
  rw [onLine_iff, ← linePoints_clampPoint]
  exact mem_linePoints_iff (inRange_clampPoint p) (inRange_clampPoint q) hr

/-- Bringing ends into range keeps which coordinates of the canvas are between them. -/
theorem between_clamp_iff (hlimit : limit < 2 ^ 31) (ht : 0 ≤ t ∧ t < limit) :
    Between (clampCoordinate u) (clampCoordinate v) t ↔ Between u v t := by
  simp only [Between, clampCoordinate_eq]
  omega

/-- It keeps as well which coordinate of the canvas an end has, if any. -/
theorem eq_clamp_iff (hlimit : limit < 2 ^ 31) (ht : 0 ≤ t ∧ t < limit) :
    t = clampCoordinate u ↔ t = u := by
  rw [clampCoordinate_eq]
  omega

/-- Lines that keep their course on a canvas when their ends are brought into range: those with ends
in range, those along an axis or the main diagonal, and those whose box is off the canvas. -/
def KeepsCourse (width height : Nat) (p q : Point) : Prop :=
  (InRange p ∧ InRange q) ∨ p.1 = q.1 ∨ p.2 = q.2 ∨ (p.1 = p.2 ∧ q.1 = q.2) ∨
    ∀ r, Within width height r → ¬ (Between p.1 q.1 r.1 ∧ Between p.2 q.2 r.2)

/-- Of what is on the canvas, the box of the ends stays what it is. -/
theorem OnLine.between_of_clamp (hwidth : width < 2 ^ 31) (hheight : height < 2 ^ 31)
    (hr : Within width height r) (h : OnLine (clampPoint p) (clampPoint q) r) :
    Between p.1 q.1 r.1 ∧ Between p.2 q.2 r.2 := by
  obtain ⟨hx, hy⟩ := h.between
  exact ⟨(between_clamp_iff hwidth ⟨hr.1, hr.2.1⟩).1 hx, (between_clamp_iff hheight hr.2.2).1 hy⟩

theorem onLine_clamp_iff (hwidth : width < 2 ^ 31) (hheight : height < 2 ^ 31)
    (hr : Within width height r) (h : KeepsCourse width height p q) :
    OnLine (clampPoint p) (clampPoint q) r ↔ OnLine p q r := by
  have hcolumn : 0 ≤ r.1 ∧ r.1 < width := ⟨hr.1, hr.2.1⟩
  have hrow : 0 ≤ r.2 ∧ r.2 < height := hr.2.2
  rcases h with ⟨hp, hq⟩ | hx | hy | ⟨hp, hq⟩ | hoff
  · rw [clampPoint_of_inRange hp, clampPoint_of_inRange hq]
  · rw [onLine_upright hx, onLine_upright (congrArg clampCoordinate hx)]
    exact and_congr (eq_clamp_iff hwidth hcolumn) (between_clamp_iff hheight hrow)
  · rw [onLine_level hy, onLine_level (congrArg clampCoordinate hy)]
    exact and_congr (eq_clamp_iff hheight hrow) (between_clamp_iff hwidth hcolumn)
  · rw [onLine_diagonal hp hq,
      onLine_diagonal (congrArg clampCoordinate hp) (congrArg clampCoordinate hq)]
    exact and_congr_right fun _ => between_clamp_iff hwidth hcolumn
  · constructor
    · intro h
      exact absurd (h.between_of_clamp hwidth hheight hr) (hoff r hr)
    · intro h
      exact absurd h.between (hoff r hr)

end Clamped

/-! ## Lines on canvases -/

/-- On a canvas, a line sets the points of the exact line between its ends in range. -/
theorem pixel_line (c : Canvas) (p q r : Point) (color : Rgba) :
    (c.line p q color).pixel r =
      if Within c.width c.height r ∧ OnLine (clampPoint p) (clampPoint q) r then color
      else c.pixel r := by
  have hpoints : (r ∈ linePoints c.width c.height p q ∧ (c.index? r).isSome) ↔
      Within c.width c.height r ∧ OnLine (clampPoint p) (clampPoint q) r := by
    rw [isSome_index?_iff, and_comm]
    exact and_congr_right fun hr => mem_linePoints_iff_onLine hr
  rw [Canvas.line, Canvas.pixel_paint]
  exact if_congr hpoints rfl rfl

/-- What a line changes on a canvas is in the box of its ends. -/
theorem between_of_pixel_line_ne {c : Canvas} {p q r : Point} {color : Rgba}
    (hwidth : c.width < 2 ^ 31) (hheight : c.height < 2 ^ 31)
    (h : (c.line p q color).pixel r ≠ c.pixel r) :
    Between p.1 q.1 r.1 ∧ Between p.2 q.2 r.2 := by
  rw [pixel_line] at h
  split at h
  · rename_i hr
    exact hr.2.between_of_clamp hwidth hheight hr.1
  · exact absurd rfl h

/-- **Lines join their ends in range.** On a canvas, a line sets the points of the exact line
between its ends, once these have been brought into the range of 32-bit words, and no others. If
that keeps the course of the line, it sets those of the exact line between the ends as given. -/
theorem lines_join_clamped_ends (c : Canvas) (p q : Point) (color : Rgba)
    (hwidth : c.width < 2 ^ 31) (hheight : c.height < 2 ^ 31) :
    ((c.line p q color).width = c.width ∧ (c.line p q color).height = c.height ∧
      ∀ r, (c.line p q color).pixel r =
        if Within c.width c.height r ∧ OnLine (clampPoint p) (clampPoint q) r then color
        else c.pixel r) ∧
    (KeepsCourse c.width c.height p q → ∀ r, (c.line p q color).pixel r =
      if Within c.width c.height r ∧ OnLine p q r then color else c.pixel r) := by
  refine ⟨⟨Canvas.width_paint _ _ _, Canvas.height_paint _ _ _, fun r => pixel_line c p q r color⟩,
    fun hcourse r => ?_⟩
  rw [pixel_line]
  exact if_congr (and_congr_right fun hr => onLine_clamp_iff hwidth hheight hr hcourse) rfl rfl

/-- An upright line from far above a canvas to far below. -/
theorem far_upright_crosses :
    (Canvas.blank 3 3).width < 2 ^ 31 ∧ (Canvas.blank 3 3).height < 2 ^ 31 ∧
    KeepsCourse 3 3 (1, -2 ^ 40) (1, 2 ^ 40) ∧
    ((Canvas.blank 3 3).line (1, -2 ^ 40) (1, 2 ^ 40) .black).pixel (1, 2) = .black ∧
    ((Canvas.blank 3 3).line (1, -2 ^ 40) (1, 2 ^ 40) .black).pixel (0, 2) = .transparent := by
  have hwidth : (Canvas.blank 3 3).width < 2 ^ 31 := by decide
  have hheight : (Canvas.blank 3 3).height < 2 ^ 31 := by decide
  have hcourse : KeepsCourse 3 3 (1, -2 ^ 40) (1, 2 ^ 40) := .inr (.inl rfl)
  have h := (lines_join_clamped_ends (Canvas.blank 3 3) (1, -2 ^ 40) (1, 2 ^ 40) .black hwidth
    hheight).2 hcourse
  have hline : ∀ r, OnLine (1, -2 ^ 40) (1, 2 ^ 40) r ↔ r.1 = 1 ∧ Between (-2 ^ 40) (2 ^ 40) r.2 :=
    fun r => onLine_upright rfl
  refine ⟨hwidth, hheight, hcourse, ?_, ?_⟩
  · rw [h, if_pos ⟨by decide, (hline _).2 (by decide)⟩]
  · rw [h, if_neg fun hon => absurd ((hline _).1 hon.2) (by decide)]
    rfl

/-- A line whose ends are brought into range need not be the line between the ends as given. The
line from the corner of a canvas to the point `(2 ^ 32, 2 ^ 31)` goes through the pixel next to the
corner, but what is drawn is a diagonal. -/
theorem far_line_bends :
    ¬ ∀ (c : Canvas) (x₁ y₁ x₂ y₂ : Int64) (color : Rgba), c.width < 2 ^ 31 → c.height < 2 ^ 31 →
      ∀ r, (c.line (x₁.toInt, y₁.toInt) (x₂.toInt, y₂.toInt) color).pixel r =
        if Within c.width c.height r ∧ OnLine (x₁.toInt, y₁.toInt) (x₂.toInt, y₂.toInt) r then color
        else c.pixel r := by
  intro h
  have hpixel := h (Canvas.blank 2 2) 0 0 4294967296 2147483648 .black (by decide) (by decide)
    (1, 0)
  have hon : OnLine (0, 0) (4294967296, 2147483648) (1, 0) := by
    have hoffset : exactOffset 4294967296 2147483648 1 = 0 := by
      rw [exactOffset_eq (by decide)]
      decide
    refine ⟨1, by decide, ?_⟩
    simp [exactPoint, hoffset]
  rw [if_pos ⟨by decide, hon⟩] at hpixel
  revert hpixel
  decide

end DrawLang
