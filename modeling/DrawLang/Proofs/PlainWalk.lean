import DrawLang.Canvas.Line
import Mathlib.Tactic.Ring

/-!
# Lines and the plain walk

The plain walk along a line takes every step of the longer axis, wherever the canvas is, and keeps
an error that says when to move along the shorter axis. Lines are drawn by shorter ways: they begin
in the middle, and points, horizontals, verticals and diagonals are drawn without an error term. On
the canvas all of these set the pixels of the plain walk.

* `plainState`, `plainWalk`: the walk.
* `offsetAt_eq_iff`: the offset at a step is the only integer in a half-open interval.
* `plainState_eq`, `walkFrom_eq`: both walks keep to that offset and to the error that goes with it.
* `mem_linePoints_iff`: on the canvas, the points of a line are those of the plain walk.
-/

namespace DrawLang

/-! ## The plain walk -/

def plainState (major minor : Int) : Nat → Int × Int
  | 0 => (0, 2 * minor - major)
  | k + 1 =>
    let (offset, error) := plainState major minor k
    if 0 < error then (offset + 1, error - 2 * major + 2 * minor) else (offset, error + 2 * minor)

/-- The point after a number of steps of the plain walk from `a` to `b`. -/
def plainPoint (a b : Point) (k : Nat) : Point :=
  let dx := b.1 - a.1
  let dy := b.2 - a.2
  if dy.natAbs < dx.natAbs then
    (a.1 + k * dx.sign, a.2 + (plainState dx.natAbs dy.natAbs k).1 * dy.sign)
  else
    (a.1 + (plainState dy.natAbs dx.natAbs k).1 * dx.sign, a.2 + k * dy.sign)

/-- The points of the plain walk from `a` to `b`, both ends included. -/
def plainPoints (a b : Point) : List Point :=
  (List.range (max (b.1 - a.1).natAbs (b.2 - a.2).natAbs + 1)).map (plainPoint a b)

/-- The plain walk between two points, which starts at the smaller one. -/
def plainWalk (p q : Point) : List Point :=
  if precedes p q then plainPoints p q else plainPoints q p

/-! ## Offsets and errors -/

section Offsets

variable {major minor : Int}

/-- The offset at a step is the only integer that keeps the error of the step before in bounds. -/
theorem offsetAt_eq_iff (hmajor : 0 < major) {k offset : Int} :
    offsetAt major minor k = offset ↔
      -(2 * major) < errorAt major minor k offset - 2 * minor ∧
        errorAt major minor k offset - 2 * minor ≤ 0 := by
  have hquotient := Int.ediv_eq_iff_of_pos (x := major - 2 * k * minor) (y := -offset)
    (show 0 < 2 * major by omega)
  have hneg : offsetAt major minor k = offset ↔
      (major - 2 * k * minor) / (2 * major) = -offset := by
    unfold offsetAt
    omega
  have herror : errorAt major minor k offset - 2 * minor =
      -offset * (2 * major) - (major - 2 * k * minor) := by
    unfold errorAt
    ring
  rw [hneg, hquotient, herror]
  omega

theorem offsetAt_zero_minor (hmajor : 0 < major) (k : Int) : offsetAt major 0 k = 0 := by
  rw [offsetAt_eq_iff hmajor]
  unfold errorAt
  omega

theorem offsetAt_diagonal (hmajor : 0 < major) (k : Int) : offsetAt major major k = k := by
  rw [offsetAt_eq_iff hmajor]
  have h : errorAt major major k k - 2 * major = -major := by
    unfold errorAt
    ring
  omega

/-- The error at the next step, if the offset there goes with the error at this one. -/
theorem errorAt_succ (k offset : Int) :
    errorAt major minor (k + 1)
        (if 0 < errorAt major minor k offset then offset + 1 else offset) =
      if 0 < errorAt major minor k offset then
        errorAt major minor k offset - 2 * major + 2 * minor
      else errorAt major minor k offset + 2 * minor := by
  split
  · unfold errorAt
    ring
  · unfold errorAt
    ring

/-- The offset moves on when the error is positive, and stays otherwise. This is where a line must
not be steeper than a diagonal. -/
theorem offsetAt_succ (hmajor : 0 < major) (hminor : 0 ≤ minor) (hle : minor ≤ major) (k : Int) :
    offsetAt major minor (k + 1) =
      if 0 < errorAt major minor k (offsetAt major minor k) then offsetAt major minor k + 1
      else offsetAt major minor k := by
  obtain ⟨hlow, hhigh⟩ := (offsetAt_eq_iff hmajor).1 (rfl : offsetAt major minor k = _)
  rw [offsetAt_eq_iff hmajor, errorAt_succ]
  split <;> omega

/-- The plain walk keeps to the offset that is nearest to the line. -/
theorem plainState_eq (hmajor : 0 < major) (hminor : 0 ≤ minor) (hle : minor ≤ major) (k : Nat) :
    plainState major minor k =
      (offsetAt major minor k, errorAt major minor k (offsetAt major minor k)) := by
  induction k with
  | zero =>
    have hoffset : offsetAt major minor 0 = 0 := by
      rw [offsetAt_eq_iff hmajor]
      unfold errorAt
      omega
    simp [plainState, hoffset, errorAt]
  | succ k ih =>
    simp only [plainState, ih, Nat.cast_succ, offsetAt_succ hmajor hminor hle, errorAt_succ]
    split <;> rfl

/-- So does a walk that begins anywhere. -/
theorem walkFrom_eq (hmajor : 0 < major) (hminor : 0 ≤ minor) (hle : minor ≤ major) (n : Nat)
    (k : Int) : walkFrom major minor n k (offsetAt major minor k)
        (errorAt major minor k (offsetAt major minor k)) =
      (List.range n).map fun i : Nat => (k + i, offsetAt major minor (k + i)) := by
  induction n generalizing k with
  | zero => rfl
  | succ n ih =>
    have htail := ih (k + 1)
    have hcast : ∀ i : Nat, k + 1 + (i : Int) = k + (i + 1 : Nat) := by
      intro i
      omega
    rw [offsetAt_succ hmajor hminor hle, errorAt_succ] at htail
    simp only [hcast] at htail
    rw [walkFrom, List.range_succ_eq_map, List.map_cons, List.map_map]
    apply congrArg₂ List.cons (by simp)
    split at htail
    · rw [if_pos ‹_›]
      exact htail
    · rw [if_neg ‹_›]
      exact htail

/-- A part of a line is the part of the plain walk between the same steps. -/
theorem walk_eq (hmajor : 0 < major) (hminor : 0 ≤ minor) (hle : minor ≤ major)
    (first last : Int) : walk major minor first last =
      (interval first last).map fun k => (k, offsetAt major minor k) := by
  unfold walk interval
  rw [walkFrom_eq hmajor hminor hle, List.map_map]
  rfl

end Offsets

/-! ## Steps on the canvas -/

section Steps

variable {start sign length : Int} {limit : Nat}

theorem visibleSteps_eq_some {first last : Int} :
    visibleSteps start sign length limit = some (first, last) ↔
      (0 < limit ∧ first ≤ last) ∧
        first = max (if 0 < sign then -start else start - (limit - 1)) 0 ∧
        last = min (if 0 < sign then limit - 1 - start else start) length := by
  simp only [visibleSteps, Option.ite_none_right_eq_some, Option.some.injEq, Prod.mk.injEq]
  constructor
  · rintro ⟨h, rfl, rfl⟩
    exact ⟨h, rfl, rfl⟩
  · rintro ⟨h, rfl, rfl⟩
    exact ⟨h, rfl, rfl⟩

/-- The visible steps are those whose coordinate lies on the canvas. -/
theorem visibleSteps_iff (hsign : sign = 1 ∨ sign = -1) (k : Int) :
    (∃ first last, visibleSteps start sign length limit = some (first, last) ∧
        first ≤ k ∧ k ≤ last) ↔
      (0 ≤ k ∧ k ≤ length) ∧ 0 ≤ start + k * sign ∧ start + k * sign < limit := by
  simp only [visibleSteps_eq_some]
  constructor
  · rintro ⟨first, last, ⟨h, hfirst, hlast⟩, hk⟩
    rcases hsign with rfl | rfl
    · rw [if_pos (by decide)] at hfirst hlast
      omega
    · rw [if_neg (by decide)] at hfirst hlast
      omega
  · rintro ⟨hk, hstart⟩
    rcases hsign with rfl | rfl
    · refine ⟨max (-start) 0, min (limit - 1 - start) length, ?_⟩
      rw [if_pos (by decide), if_pos (by decide)]
      omega
    · refine ⟨max (start - (limit - 1)) 0, min start length, ?_⟩
      rw [if_neg (by decide), if_neg (by decide)]
      omega

/-- There are at most as many visible steps as pixels along the canvas. -/
theorem visibleSteps_length {first last : Int}
    (h : visibleSteps start sign length limit = some (first, last)) :
    last + 1 - first ≤ limit := by
  obtain ⟨-, hfirst, hlast⟩ := visibleSteps_eq_some.1 h
  split at hfirst
  · rw [if_pos ‹_›] at hlast
    omega
  · rw [if_neg ‹_›] at hlast
    omega

variable {f : Int → Point} {r : Point}

/-- A point on the canvas is at a visible step if it is at any step of the line. -/
theorem mem_visible (hsign : sign = 1 ∨ sign = -1)
    (hr : ∀ k, f k = r → 0 ≤ start + k * sign ∧ start + k * sign < limit) :
    (r ∈ match visibleSteps start sign length limit with
      | none => []
      | some (first, last) => (interval first last).map f) ↔
      ∃ k, (0 ≤ k ∧ k ≤ length) ∧ f k = r := by
  have hvisible := @visibleSteps_iff start sign length limit hsign
  constructor
  · intro h
    cases hsteps : visibleSteps start sign length limit with
    | none => simp [hsteps] at h
    | some steps =>
      rw [hsteps] at h
      obtain ⟨k, hk, rfl⟩ := List.mem_map.1 h
      exact ⟨k, ((hvisible k).1 ⟨_, _, hsteps, mem_interval.1 hk⟩).1, rfl⟩
  · rintro ⟨k, hk, rfl⟩
    obtain ⟨first, last, hsteps, hle⟩ := (hvisible k).2 ⟨hk, hr k rfl⟩
    rw [hsteps]
    exact List.mem_map.2 ⟨k, mem_interval.2 hle, rfl⟩

/-- A point on the canvas is on the part of a side that the canvas cuts out if it is anywhere on
that side. -/
theorem mem_span {stop : Int} (hr : ∀ v, f v = r → 0 ≤ v ∧ v < limit) :
    r ∈ (interval (max start 0) (min stop (limit - 1))).map f ↔
      ∃ k, (0 ≤ k ∧ k ≤ stop - start) ∧ f (start + k) = r := by
  rw [List.mem_map]
  constructor
  · rintro ⟨v, hv, rfl⟩
    have hbounds := mem_interval.1 hv
    refine ⟨v - start, by omega, ?_⟩
    rw [add_sub_cancel]
  · rintro ⟨k, hk, h⟩
    have hbounds := hr _ h
    exact ⟨start + k, mem_interval.2 (by omega), h⟩

end Steps

/-! ## Points on the canvas -/

def Within (width height : Nat) (p : Point) : Prop :=
  0 ≤ p.1 ∧ p.1 < width ∧ 0 ≤ p.2 ∧ p.2 < height

instance (width height : Nat) (p : Point) : Decidable (Within width height p) :=
  inferInstanceAs (Decidable (_ ∧ _))

section Points

variable {a b r : Point} {width height : Nat}

/-- Points of the plain walk, when the point at each step is known. -/
theorem mem_plainPoints (f : Int → Point) (length : Int) (hf : ∀ k : Nat, plainPoint a b k = f k)
    (hlength : max (b.1 - a.1).natAbs (b.2 - a.2).natAbs = length) :
    r ∈ plainPoints a b ↔ ∃ k, (0 ≤ k ∧ k ≤ length) ∧ f k = r := by
  unfold plainPoints
  rw [List.mem_map]
  constructor
  · rintro ⟨k, hk, rfl⟩
    have hle := List.mem_range.1 hk
    exact ⟨k, by omega, (hf k).symm⟩
  · rintro ⟨k, hk, rfl⟩
    refine ⟨k.toNat, List.mem_range.2 (by omega), ?_⟩
    rw [hf, Int.toNat_of_nonneg hk.1]

/-- Points of a line that is wider than it is high. -/
theorem plainPoint_flat (h : (b.2 - a.2).natAbs < b.1 - a.1) (k : Nat) :
    plainPoint a b k = (a.1 + k,
      a.2 + offsetAt (b.1 - a.1) (b.2 - a.2).natAbs k * (b.2 - a.2).sign) := by
  have hx : ((b.1 - a.1).natAbs : Int) = b.1 - a.1 := by omega
  have hsign : (b.1 - a.1).sign = 1 := Int.sign_eq_one_iff_pos.2 (by omega)
  have hflat : (b.2 - a.2).natAbs < (b.1 - a.1).natAbs := by omega
  simp only [plainPoint, if_pos hflat, hx, hsign, Int.mul_one]
  rw [plainState_eq (by omega) (by omega) (by omega)]

/-- Points of a line that is at least as high as it is wide, and not a single point. -/
theorem plainPoint_steep (hx : 0 ≤ b.1 - a.1) (hy : b.2 - a.2 ≠ 0)
    (h : b.1 - a.1 ≤ (b.2 - a.2).natAbs) (k : Nat) :
    plainPoint a b k = (a.1 + offsetAt (b.2 - a.2).natAbs (b.1 - a.1) k,
      a.2 + k * (b.2 - a.2).sign) := by
  have habs : ((b.1 - a.1).natAbs : Int) = b.1 - a.1 := by omega
  have hsteep : ¬ (b.2 - a.2).natAbs < (b.1 - a.1).natAbs := by omega
  have hoffset : offsetAt (b.2 - a.2).natAbs (b.1 - a.1) k * (b.1 - a.1).sign =
      offsetAt (b.2 - a.2).natAbs (b.1 - a.1) k := by
    rcases Int.lt_or_eq_of_le hx with hpos | hzero
    · rw [Int.sign_eq_one_iff_pos.2 hpos, Int.mul_one]
    · rw [← hzero, offsetAt_zero_minor (by omega), Int.zero_mul]
  simp only [plainPoint, if_neg hsteep, habs]
  rw [plainState_eq (by omega) (by omega) (by omega), hoffset]

theorem sign_eq {v : Int} (h : v ≠ 0) : v.sign = 1 ∨ v.sign = -1 := by
  rcases Int.lt_or_gt_of_ne h with h | h
  · exact .inr (Int.sign_eq_neg_one_iff_neg.2 h)
  · exact .inl (Int.sign_eq_one_iff_pos.2 h)

theorem precedes_iff {p q : Point} :
    precedes p q = true ↔ 0 ≤ q.1 - p.1 ∧ (q.1 - p.1 = 0 → 0 ≤ q.2 - p.2) := by
  simp only [precedes, Bool.or_eq_true, Bool.and_eq_true, decide_eq_true_eq, beq_iff_eq]
  omega

/-! ### One lemma for each way to draw a line -/

theorem mem_point (hx : b.1 - a.1 = 0) (hy : b.2 - a.2 = 0) : r ∈ [a] ↔ r ∈ plainPoints a b := by
  have hplain : ∀ k : Nat, plainPoint a b k = a := by
    intro k
    simp [plainPoint, hx, hy]
  rw [mem_plainPoints (fun _ => a) 0 hplain (by omega), List.mem_singleton]
  constructor
  · rintro rfl
    exact ⟨0, by omega, rfl⟩
  · rintro ⟨_, -, h⟩
    exact h.symm

theorem mem_level (hx : 0 < b.1 - a.1) (hy : b.2 - a.2 = 0) (hr : 0 ≤ r.1 ∧ r.1 < width) :
    r ∈ (interval (max a.1 0) (min b.1 (width - 1))).map (fun x => (x, a.2)) ↔
      r ∈ plainPoints a b := by
  have hplain : ∀ k : Nat, plainPoint a b k = (a.1 + k, a.2) := by
    intro k
    rw [plainPoint_flat (by omega), hy, Int.sign_zero, Int.mul_zero, Int.add_zero]
  rw [mem_plainPoints (fun k => (a.1 + k, a.2)) (b.1 - a.1) hplain (by omega)]
  apply mem_span
  rintro v rfl
  exact hr

theorem mem_upright (hx : b.1 - a.1 = 0) (hy : 0 < b.2 - a.2) (hr : 0 ≤ r.2 ∧ r.2 < height) :
    r ∈ (interval (max a.2 0) (min b.2 (height - 1))).map (fun y => (a.1, y)) ↔
      r ∈ plainPoints a b := by
  have hplain : ∀ k : Nat, plainPoint a b k = (a.1, a.2 + k) := by
    intro k
    rw [plainPoint_steep (by omega) (by omega) (by omega), hx, offsetAt_zero_minor (by omega),
      Int.sign_eq_one_iff_pos.2 hy, Int.mul_one, Int.add_zero]
  rw [mem_plainPoints (fun k => (a.1, a.2 + k)) (b.2 - a.2) hplain (by omega)]
  apply mem_span
  rintro v rfl
  exact hr

theorem mem_diagonal (hy : b.2 - a.2 ≠ 0) (h : b.1 - a.1 = (b.2 - a.2).natAbs)
    (hr : 0 ≤ r.1 ∧ r.1 < width) :
    (r ∈ match visibleSteps a.1 1 (b.1 - a.1) width with
      | none => []
      | some (first, last) =>
        (interval first last).map fun k => (a.1 + k, a.2 + k * (b.2 - a.2).sign)) ↔
      r ∈ plainPoints a b := by
  have hplain : ∀ k : Nat, plainPoint a b k = (a.1 + k, a.2 + k * (b.2 - a.2).sign) := by
    intro k
    rw [plainPoint_steep (by omega) hy (by omega), h, offsetAt_diagonal (by omega)]
  rw [mem_plainPoints (fun k => (a.1 + k, a.2 + k * (b.2 - a.2).sign)) (b.1 - a.1) hplain
    (by omega)]
  apply mem_visible (.inl rfl)
  rintro k rfl
  simpa using hr

theorem mem_flat (h : (b.2 - a.2).natAbs < b.1 - a.1) (hr : 0 ≤ r.1 ∧ r.1 < width) :
    (r ∈ match visibleSteps a.1 1 (b.1 - a.1) width with
      | none => []
      | some (first, last) =>
        (walk (b.1 - a.1) (b.2 - a.2).natAbs first last).map fun p : Point =>
          (a.1 + p.1, a.2 + p.2 * (b.2 - a.2).sign)) ↔
      r ∈ plainPoints a b := by
  simp only [walk_eq (show 0 < b.1 - a.1 by omega)
    (show 0 ≤ ((b.2 - a.2).natAbs : Int) by omega) (by omega), List.map_map]
  rw [mem_plainPoints (fun k => (a.1 + k,
    a.2 + offsetAt (b.1 - a.1) (b.2 - a.2).natAbs k * (b.2 - a.2).sign)) (b.1 - a.1)
    (plainPoint_flat h) (by omega)]
  apply mem_visible (.inl rfl)
  rintro k rfl
  simpa using hr

theorem mem_steep (hx : 0 ≤ b.1 - a.1) (hy : b.2 - a.2 ≠ 0)
    (h : b.1 - a.1 ≤ (b.2 - a.2).natAbs) (hr : 0 ≤ r.2 ∧ r.2 < height) :
    (r ∈ match visibleSteps a.2 (b.2 - a.2).sign (b.2 - a.2).natAbs height with
      | none => []
      | some (first, last) =>
        (walk (b.2 - a.2).natAbs (b.1 - a.1) first last).map fun p : Point =>
          (a.1 + p.2, a.2 + p.1 * (b.2 - a.2).sign)) ↔
      r ∈ plainPoints a b := by
  simp only [walk_eq (show 0 < ((b.2 - a.2).natAbs : Int) by omega) hx h, List.map_map]
  rw [mem_plainPoints (fun k => (a.1 + offsetAt (b.2 - a.2).natAbs (b.1 - a.1) k,
    a.2 + k * (b.2 - a.2).sign)) (b.2 - a.2).natAbs (plainPoint_steep hx hy h) (by omega)]
  apply mem_visible (sign_eq hy)
  rintro k rfl
  exact hr

/-- On the canvas, the points of a line are those of the plain walk. -/
theorem mem_orderedLinePoints (hab : precedes a b = true) (hr : Within width height r) :
    r ∈ orderedLinePoints width height a b ↔ r ∈ plainPoints a b := by
  obtain ⟨hx, hup⟩ := precedes_iff.1 hab
  obtain ⟨hleft, hright, hrow⟩ := hr
  have hcolumn : 0 ≤ r.1 ∧ r.1 < width := ⟨hleft, hright⟩
  unfold orderedLinePoints
  simp only
  by_cases hpoint : b.1 - a.1 = 0 ∧ b.2 - a.2 = 0
  · rw [if_pos hpoint]
    exact mem_point hpoint.1 hpoint.2
  rw [if_neg hpoint]
  by_cases hlevel : b.2 - a.2 = 0
  · rw [if_pos hlevel]
    exact mem_level (by omega) hlevel hcolumn
  rw [if_neg hlevel]
  by_cases hupright : b.1 - a.1 = 0
  · rw [if_pos hupright]
    exact mem_upright hupright (by omega) hrow
  rw [if_neg hupright]
  by_cases hdiagonal : b.1 - a.1 = (b.2 - a.2).natAbs
  · rw [if_pos hdiagonal]
    exact mem_diagonal hlevel hdiagonal hcolumn
  rw [if_neg hdiagonal]
  by_cases hflat : (b.2 - a.2).natAbs < b.1 - a.1
  · rw [if_pos hflat]
    exact mem_flat hflat hcolumn
  · rw [if_neg hflat]
    exact mem_steep hx hlevel (by omega) hrow

/-! ### Lengths -/

theorem length_visible {start sign length : Int} {limit : Nat} {steps : Int → Int → List Point}
    (hsteps : ∀ first last, (steps first last).length = (last + 1 - first).toNat) :
    (match visibleSteps start sign length limit with
      | none => []
      | some (first, last) => steps first last).length ≤ limit := by
  cases h : visibleSteps start sign length limit with
  | none => exact Nat.zero_le _
  | some bounds =>
    have hlength := visibleSteps_length h
    show (steps bounds.1 bounds.2).length ≤ limit
    rw [hsteps]
    omega

/-- A line has at most as many points to visit as pixels along the longer side of the canvas. -/
theorem length_orderedLinePoints (width height : Nat) (a b : Point) :
    (orderedLinePoints width height a b).length ≤ max (max width height) 1 := by
  unfold orderedLinePoints
  simp only
  split
  · exact Nat.le_max_right _ _
  · refine Nat.le_trans ?_ (Nat.le_max_left _ _)
    split
    · rw [List.length_map, length_interval]
      omega
    · split
      · rw [List.length_map, length_interval]
        omega
      · split
        · refine Nat.le_trans (length_visible fun first last => ?_) (Nat.le_max_left _ _)
          rw [List.length_map, length_interval]
        · split
          · refine Nat.le_trans (length_visible fun first last => ?_) (Nat.le_max_left _ _)
            rw [List.length_map, length_walk]
          · refine Nat.le_trans (length_visible fun first last => ?_) (Nat.le_max_right _ _)
            rw [List.length_map, length_walk]

theorem length_linePoints (width height : Nat) (p q : Point) :
    (linePoints width height p q).length ≤ max (max width height) 1 := by
  unfold linePoints
  simp only
  split <;> exact length_orderedLinePoints _ _ _ _

end Points

/-! ## Lines on canvases -/

/-- Whether a coordinate is in the range of 32-bit words. -/
def CoordinateInRange (v : Int) : Prop := Int32.minValue.toInt ≤ v ∧ v ≤ Int32.maxValue.toInt

def InRange (p : Point) : Prop := CoordinateInRange p.1 ∧ CoordinateInRange p.2

instance (v : Int) : Decidable (CoordinateInRange v) := inferInstanceAs (Decidable (_ ∧ _))

instance (p : Point) : Decidable (InRange p) := inferInstanceAs (Decidable (_ ∧ _))

theorem clampCoordinate_of_inRange {v : Int} (h : CoordinateInRange v) : clampCoordinate v = v := by
  obtain ⟨hleast, hgreatest⟩ := h
  rw [clampCoordinate, Int.min_eq_left hgreatest, Int.max_eq_right hleast]

theorem clampPoint_of_inRange {p : Point} (h : InRange p) : clampPoint p = p :=
  Prod.ext (clampCoordinate_of_inRange h.1) (clampCoordinate_of_inRange h.2)

theorem coordinateInRange_iff {v : Int} : CoordinateInRange v ↔ -2 ^ 31 ≤ v ∧ v < 2 ^ 31 := by
  have hleast : Int32.minValue.toInt = -2 ^ 31 := by decide
  have hgreatest : Int32.maxValue.toInt = 2 ^ 31 - 1 := by decide
  rw [CoordinateInRange, hleast, hgreatest]
  omega

theorem clampCoordinate_eq (v : Int) :
    clampCoordinate v = max (-2 ^ 31) (min v (2 ^ 31 - 1)) := rfl

theorem inRange_clampPoint (p : Point) : InRange (clampPoint p) := by
  simp only [InRange, coordinateInRange_iff, clampPoint, clampCoordinate_eq]
  omega

/-- On the canvas, a line has the points of the plain walk. -/
theorem mem_linePoints_iff {width height : Nat} {p q r : Point} (hp : InRange p) (hq : InRange q)
    (hr : Within width height r) : r ∈ linePoints width height p q ↔ r ∈ plainWalk p q := by
  unfold linePoints plainWalk
  simp only [clampPoint_of_inRange hp, clampPoint_of_inRange hq]
  by_cases h : precedes p q = true
  · rw [if_pos h, if_pos h]
    exact mem_orderedLinePoints h hr
  · rw [if_neg h, if_neg h]
    exact mem_orderedLinePoints ((precedes_or p q).resolve_left h) hr

theorem isSome_index?_iff {c : Canvas} {p : Point} :
    (c.index? p).isSome ↔ Within c.width c.height p := by
  unfold Canvas.index? Within
  split
  · rename_i h
    exact ⟨fun _ => h, fun _ => rfl⟩
  · rename_i h
    exact ⟨fun hsome => (by cases hsome), fun hwithin => absurd hwithin h⟩

/-- A line sets the pixels of the plain walk between its ends and no others. The order of the ends
does not matter, and no more points are visited than the canvas has pixels along its longer side. -/
theorem line_sets_plain_walk (c : Canvas) (p q : Point) (color : Rgba) (hp : InRange p)
    (hq : InRange q) :
    ((c.line p q color).width = c.width ∧ (c.line p q color).height = c.height ∧
      ∀ r, (c.line p q color).pixel r =
        if Within c.width c.height r ∧ r ∈ plainWalk p q then color else c.pixel r) ∧
    c.line p q color = c.line q p color ∧
    (linePoints c.width c.height p q).length ≤ max (max c.width c.height) 1 := by
  refine ⟨⟨Canvas.width_paint _ _ _, Canvas.height_paint _ _ _, fun r => ?_⟩, c.line_comm p q color,
    length_linePoints _ _ _ _⟩
  have hpoints : (r ∈ linePoints c.width c.height p q ∧ (c.index? r).isSome) ↔
      Within c.width c.height r ∧ r ∈ plainWalk p q := by
    rw [isSome_index?_iff, and_comm]
    exact and_congr_right fun hr => mem_linePoints_iff hp hq hr
  unfold Canvas.line
  rw [Canvas.pixel_paint]
  exact if_congr hpoints rfl rfl

/-- A line that enters a canvas at its left edge, eight steps after it began. -/
theorem line_enters_midway : InRange (-7, -2) ∧ InRange (15, 6) ∧
    ((Canvas.blank 10 10).line (-7, -2) (15, 6) .black).pixel (0, 1) = .black ∧
    ((Canvas.blank 10 10).line (-7, -2) (15, 6) .black).pixel (0, 0) = .transparent := by
  have hp : InRange (-7, -2) := by decide
  have hq : InRange (15, 6) := by decide
  have h := (line_sets_plain_walk (Canvas.blank 10 10) (-7, -2) (15, 6) .black hp hq).1.2.2
  refine ⟨hp, hq, ?_, ?_⟩
  · rw [h, if_pos (by decide)]
  · rw [h, if_neg (by decide)]
    rfl

end DrawLang
