import DrawLang.Proofs.PlainWalk
import Mathlib.Data.Rat.Floor

/-!
# Lines without gaps

The walk along a line has one point for each step of the longer axis, from one end to the other. Its
offset is the true offset of the line, rounded to the nearest integer, and a half is rounded towards
the start; so from one step to the next it stays, or grows by 1. A walk over a part of the steps is
that part of the whole walk. None of its errors leaves a machine word.

* `IsRasterised`: the points of a line, said without the walk.
* `offsetAt_eq_ceil`, `offsetAt_near`: the offset at a step.
* `walks_gapless`: the walk over all steps, and over some of them.
-/

namespace DrawLang

/-! ## Points of a line -/

/-- The points of a line from the start to `(major, minor)`: one for each step, next to that of the
step before, and the one nearest to the line. Where two are at the same distance, it is the one
nearer to the start. -/
structure IsRasterised (major minor : Int) (points : List Point) : Prop where
  length : (points.length : Int) = major + 1
  first : points.head? = some (0, 0)
  last : points.getLast? = some (major, minor)
  step : ∀ k (h : k < points.length), points[k].1 = k
  gapless : ∀ k (h : k + 1 < points.length),
    points[k].2 ≤ points[k + 1].2 ∧ points[k + 1].2 ≤ points[k].2 + 1
  near : ∀ k (h : k < points.length), 2 * |points[k].2 * major - k * minor| ≤ major
  half : ∀ k (h : k < points.length), 2 * (points[k].2 * major - k * minor) ≠ major
  ceil : ∀ k (h : k < points.length),
    points[k].2 = ⌈(2 * k * minor - major : ℚ) / (2 * major)⌉

/-- Whether a number is that of a 64-bit word. -/
def FitsWord (v : Int) : Prop := Int64.minValue.toInt ≤ v ∧ v ≤ Int64.maxValue.toInt

/-- Whether the error at a step fits a word, and so does what is made of it on the way to the next
step, where it may be made smaller before it is made larger. -/
def ErrorFits (major minor k : Int) : Prop :=
  let error := errorAt major minor k (offsetAt major minor k)
  FitsWord error ∧ FitsWord (error - 2 * major) ∧ FitsWord (error + 2 * minor)

/-! ## Offsets -/

section Offsets

variable {major minor : Int}

/-- How far the offset at a step lies from the line. -/
theorem offsetAt_bounds (hmajor : 0 < major) (minor k : Int) :
    -major ≤ 2 * (offsetAt major minor k * major - k * minor) ∧
      2 * (offsetAt major minor k * major - k * minor) < major := by
  obtain ⟨hlow, hhigh⟩ := (offsetAt_eq_iff hmajor).1 (rfl : offsetAt major minor k = _)
  have herror : errorAt major minor k (offsetAt major minor k) - 2 * minor =
      -(2 * (offsetAt major minor k * major - k * minor)) - major := by
    unfold errorAt
    ring
  rw [herror] at hlow hhigh
  omega

theorem offsetAt_near (hmajor : 0 < major) (k : Int) :
    2 * |offsetAt major minor k * major - k * minor| ≤ major := by
  obtain ⟨hlow, hhigh⟩ := offsetAt_bounds hmajor minor k
  rcases abs_cases (offsetAt major minor k * major - k * minor) with ⟨habs, -⟩ | ⟨habs, -⟩
  · omega
  · omega

/-- The offset is a quotient, rounded up. -/
theorem offsetAt_eq_ceil (hmajor : 0 < major) (k : Int) :
    offsetAt major minor k = ⌈(2 * k * minor - major : ℚ) / (2 * major)⌉ := by
  obtain ⟨n, rfl⟩ := Int.eq_ofNat_of_zero_le hmajor.le
  have hquotient : (2 * k * minor - (n : Int) : ℚ) / (2 * (n : Int)) =
      ((2 * k * minor - n : Int) : ℚ) / (2 * n : Nat) := by
    push_cast
    rfl
  rw [hquotient, Rat.ceil_intCast_div_natCast, offsetAt, Int.neg_sub]
  rfl

theorem offsetAt_zero (hmajor : 0 < major) (hminor : 0 ≤ minor) (hle : minor ≤ major) :
    offsetAt major minor 0 = 0 := by
  rw [offsetAt_eq_iff hmajor]
  unfold errorAt
  omega

theorem offsetAt_self (hmajor : 0 < major) : offsetAt major minor major = minor := by
  have herror : errorAt major minor major minor - 2 * minor = -major := by
    unfold errorAt
    ring
  rw [offsetAt_eq_iff hmajor, herror]
  omega

/-- Between the ends of a line, its offset is between theirs. -/
theorem offsetAt_mem (hmajor : 0 < major) (hminor : 0 ≤ minor) {k : Int}
    (hk : 0 ≤ k ∧ k ≤ major) :
    0 ≤ offsetAt major minor k ∧ offsetAt major minor k ≤ minor := by
  obtain ⟨hlow, hhigh⟩ := offsetAt_bounds hmajor minor k
  have hstart : 0 ≤ k * minor := mul_nonneg hk.1 hminor
  have hstop : k * minor ≤ major * minor := mul_le_mul_of_nonneg_right hk.2 hminor
  constructor
  · by_contra hneg
    have : (offsetAt major minor k + 1) * major ≤ 0 :=
      mul_nonpos_of_nonpos_of_nonneg (by omega) hmajor.le
    rw [add_one_mul] at this
    omega
  · by_contra hpast
    have : (minor + 1) * major ≤ offsetAt major minor k * major :=
      mul_le_mul_of_nonneg_right (by omega) hmajor.le
    rw [add_one_mul, mul_comm] at this
    omega

/-- The offset follows the line by single steps. -/
theorem offsetAt_gapless (hmajor : 0 < major) (hminor : 0 ≤ minor) (hle : minor ≤ major) (k : Int) :
    offsetAt major minor k ≤ offsetAt major minor (k + 1) ∧
      offsetAt major minor (k + 1) ≤ offsetAt major minor k + 1 := by
  rw [offsetAt_succ hmajor hminor hle]
  split <;> omega

/-- The error at a step stays within twice the length of the line. -/
theorem errorFits (hmajor : 0 < major) (hminor : 0 ≤ minor) (hle : minor ≤ major)
    (hbound : major < 2 ^ 32) (k : Int) : ErrorFits major minor k := by
  obtain ⟨hlow, hhigh⟩ := (offsetAt_eq_iff hmajor).1 (rfl : offsetAt major minor k = _)
  have hleast : Int64.minValue.toInt = -2 ^ 63 := by decide
  have hgreatest : Int64.maxValue.toInt = 2 ^ 63 - 1 := by decide
  simp only [ErrorFits, FitsWord, hleast, hgreatest]
  omega

end Offsets

/-! ## Walks -/

section Walks

variable {major minor : Int}

theorem interval_zero (hmajor : 0 < major) :
    interval 0 major = (List.range (major.toNat + 1)).map fun k : Nat => (k : Int) := by
  have hcount : (major + 1 - 0).toNat = major.toNat + 1 := by omega
  simp only [interval, hcount, Int.zero_add]

/-- The walk over all steps, step by step. -/
theorem walk_all (hmajor : 0 < major) (hminor : 0 ≤ minor) (hle : minor ≤ major) :
    walk major minor 0 major =
      (List.range (major.toNat + 1)).map fun k : Nat => ((k : Int), offsetAt major minor k) := by
  rw [walk_eq hmajor hminor hle, interval_zero hmajor, List.map_map]
  rfl

/-- The steps of a part of a line are a part of its steps. -/
theorem interval_eq_extract {first last : Int} (hfirst : 0 ≤ first) (hlast : last ≤ major)
    (horder : first ≤ last) :
    interval first last =
      ((interval 0 major).drop first.toNat).take (last + 1 - first).toNat := by
  apply List.ext_getElem
  · simp only [length_interval, List.length_take, List.length_drop]
    omega
  · intro k _ _
    simp only [interval, List.getElem_take, List.getElem_drop, List.getElem_map,
      List.getElem_range]
    omega

theorem isRasterised_walk (hmajor : 0 < major) (hminor : 0 ≤ minor) (hle : minor ≤ major) :
    IsRasterised major minor (walk major minor 0 major) := by
  rw [walk_all hmajor hminor hle]
  have hlast : ((major.toNat : Nat) : Int) = major := Int.toNat_of_nonneg hmajor.le
  refine ⟨?_, ?_, ?_, fun k _ => ?_, fun k _ => ?_, fun k _ => ?_, fun k _ => ?_, fun k _ => ?_⟩
  · rw [List.length_map, List.length_range, Nat.cast_succ, hlast]
  · rw [List.range_succ_eq_map, List.map_cons, List.head?_cons, Nat.cast_zero,
      offsetAt_zero hmajor hminor hle]
  · rw [List.range_succ, List.map_append, List.map_singleton, List.getLast?_concat, hlast,
      offsetAt_self hmajor]
  · rw [List.getElem_map, List.getElem_range]
  · simp only [List.getElem_map, List.getElem_range, Nat.cast_succ]
    exact offsetAt_gapless hmajor hminor hle k
  · simp only [List.getElem_map, List.getElem_range]
    exact offsetAt_near hmajor k
  · simp only [List.getElem_map, List.getElem_range]
    exact (offsetAt_bounds hmajor _ k).2.ne
  · simp only [List.getElem_map, List.getElem_range]
    exact offsetAt_eq_ceil hmajor k

/-- **Walks are gapless.** The walk over all steps of a line goes from one end to the other without
gaps and as close to the line as pixels allow; a walk over some of the steps is that part of it; and
the errors of both fit machine words. -/
theorem walks_gapless (major minor : Int) (hmajor : 0 < major) (hbound : major < 2 ^ 32)
    (hminor : 0 ≤ minor) (hle : minor ≤ major) :
    IsRasterised major minor (walk major minor 0 major) ∧
    (∀ first last, 0 ≤ first → first ≤ last → last ≤ major →
      walk major minor first last =
        ((walk major minor 0 major).drop first.toNat).take (last + 1 - first).toNat) ∧
    ∀ k, 0 ≤ k → k ≤ major → ErrorFits major minor k := by
  refine ⟨isRasterised_walk hmajor hminor hle, fun first last hfirst horder hlast => ?_,
    fun k _ _ => errorFits hmajor hminor hle hbound k⟩
  rw [walk_eq hmajor hminor hle, walk_eq hmajor hminor hle, interval_eq_extract hfirst hlast horder,
    List.map_take, List.map_drop]

/-- A line that is exactly between two pixels after two steps, and the part of it behind them. -/
theorem quarter_gapless : (0 : Int) < 4 ∧ (4 : Int) < 2 ^ 32 ∧ (0 : Int) ≤ 1 ∧ (1 : Int) ≤ 4 ∧
    IsRasterised 4 1 [(0, 0), (1, 0), (2, 0), (3, 1), (4, 1)] ∧
    walk 4 1 2 4 = [(2, 0), (3, 1), (4, 1)] ∧ ErrorFits 4 1 2 := by
  have h := walks_gapless 4 1 (by decide) (by decide) (by decide) (by decide)
  have hpart := h.2.1 2 4 (by decide) (by decide) (by decide)
  have hall : walk 4 1 0 4 = [(0, 0), (1, 0), (2, 0), (3, 1), (4, 1)] := by decide
  rw [hall] at h hpart
  exact ⟨by decide, by decide, by decide, by decide, h.1, hpart, h.2.2 2 (by decide) (by decide)⟩

end Walks

end DrawLang
