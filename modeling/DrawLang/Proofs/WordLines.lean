import DrawLang.Proofs.GaplessWalk

/-!
# Lines in machine words

Lines can be drawn with machine words. Here they are drawn again in such words, where a number that
does not fit its word ends the drawing without a result, and so does a place past the end of the
pixels. Whatever the ends of a line, that never happens, and what is drawn is the same line.

* `WordKind.hold?`: a number in a word.
* `visibleSteps?`, `walk?`, `linePoints?`, `Canvas.line?`: a line in words.
* `walkFrom?_eq`: no error on the way leaves its word; the others take a number each at most.
* `lines_fit_words`.
-/

namespace DrawLang

/-! ## Words -/

structure WordKind where
  least : Int
  greatest : Int

namespace WordKind

def signed : WordKind := ⟨Int64.minValue.toInt, Int64.maxValue.toInt⟩

def wide : WordKind := ⟨-2 ^ 127, 2 ^ 127 - 1⟩

/-- Words without a sign, for places in a row of pixels. -/
def unsigned : WordKind := ⟨0, 2 ^ 64 - 1⟩

def Fits (w : WordKind) (v : Int) : Prop := w.least ≤ v ∧ v ≤ w.greatest

instance (w : WordKind) (v : Int) : Decidable (w.Fits v) := inferInstanceAs (Decidable (_ ∧ _))

def hold? (w : WordKind) (v : Int) : Option Int := if w.Fits v then some v else none

/-- A number that fits goes on as it is. -/
theorem hold?_bind {w : WordKind} {v : Int} (h : w.Fits v) {β : Type} (f : Int → Option β) :
    (w.hold? v >>= f) = f v := by
  rw [hold?, if_pos h]
  rfl

end WordKind

open WordKind

/-! ## Lines in words -/

def visibleSteps? (start sign length : Int) (limit : Nat) : Option (Option (Int × Int)) := do
  let count ← signed.hold? limit
  let last ← signed.hold? (count - 1)
  let lowest ← signed.hold? (if 0 < sign then -start else start - last)
  let highest ← signed.hold? (if 0 < sign then last - start else start)
  let first := max lowest 0
  let last := min highest length
  return if 0 < limit ∧ first ≤ last then some (first, last) else none

def walkFrom? (major minor : Int) : Nat → Int → Int → Int → Option (List Point)
  | 0, _, _, _ => return []
  | n + 1, step, offset, error => do
    let next ← signed.hold? (if 0 < error then offset + 1 else offset)
    let down ← signed.hold? (2 * major)
    let up ← signed.hold? (2 * minor)
    let error ← signed.hold? (if 0 < error then error - down else error)
    let error ← signed.hold? (error + up)
    let points ← walkFrom? major minor n (step + 1) next error
    return (step, offset) :: points

def walk? (major minor first last : Int) : Option (List Point) := do
  let steps ← wide.hold? (2 * first)
  let rise ← wide.hold? (steps * minor)
  let rest ← wide.hold? (major - rise)
  let length ← wide.hold? (2 * major)
  let quotient ← wide.hold? (rest / length)
  let offset ← wide.hold? (-quotient)
  let next ← wide.hold? (first + 1)
  let steps ← wide.hold? (2 * next)
  let rise ← wide.hold? (steps * minor)
  let rise ← wide.hold? (rise - major)
  let offsets ← wide.hold? (2 * offset)
  let covered ← wide.hold? (offsets * major)
  let error ← wide.hold? (rise - covered)
  let error ← signed.hold? error
  let offset ← signed.hold? offset
  walkFrom? major minor (last + 1 - first).toNat first offset error

def pointFrom? (start : Point) (across down sign : Int) : Option Point := do
  let x ← signed.hold? (start.1 + across)
  let down ← signed.hold? (down * sign)
  let y ← signed.hold? (start.2 + down)
  return (x, y)

def orderedLinePoints? (width height : Nat) (a b : Point) : Option (List Point) := do
  let dx ← signed.hold? (b.1 - a.1)
  let dy ← signed.hold? (b.2 - a.2)
  let size ← signed.hold? dy.natAbs
  if dx = 0 ∧ dy = 0 then
    return [a]
  else if dy = 0 then
    let columns ← signed.hold? width
    let last ← signed.hold? (columns - 1)
    return (interval (max a.1 0) (min b.1 last)).map fun x => (x, a.2)
  else if dx = 0 then
    let rows ← signed.hold? height
    let last ← signed.hold? (rows - 1)
    return (interval (max a.2 0) (min b.2 last)).map fun y => (a.1, y)
  else if dx = size then
    match ← visibleSteps? a.1 1 dx width with
    | none => return []
    | some (first, last) => (interval first last).mapM fun k => pointFrom? a k k dy.sign
  else if size < dx then
    match ← visibleSteps? a.1 1 dx width with
    | none => return []
    | some (first, last) =>
      let steps ← walk? dx size first last
      steps.mapM fun p => pointFrom? a p.1 p.2 dy.sign
  else
    match ← visibleSteps? a.2 dy.sign size height with
    | none => return []
    | some (first, last) =>
      let steps ← walk? size dx first last
      steps.mapM fun p => pointFrom? a p.2 p.1 dy.sign

def linePoints? (width height : Nat) (p q : Point) : Option (List Point) :=
  let a := clampPoint p
  let b := clampPoint q
  if precedes a b then orderedLinePoints? width height a b
  else orderedLinePoints? width height b a

def Canvas.set? (c : Canvas) (p : Point) (color : Rgba) : Option Canvas :=
  if 0 ≤ p.1 ∧ p.1 < c.width ∧ 0 ≤ p.2 ∧ p.2 < c.height then do
    let row ← unsigned.hold? (p.2 * c.width)
    let place ← unsigned.hold? (row + p.1)
    if h : place.toNat < c.pixels.size then
      return { c with
        pixels := c.pixels.set place.toNat color
        size_pixels := by rw [Array.size_set, c.size_pixels] }
    else none
  else some c

def Canvas.line? (c : Canvas) (p q : Point) (color : Rgba) : Option Canvas := do
  let points ← linePoints? c.width c.height p q
  points.foldlM (fun c p => c.set? p color) c

/-! ## Nothing leaves its word -/

section Words

variable {β : Type} {v : Int}

theorem signed_bind (hleast : -2 ^ 63 ≤ v) (hgreatest : v < 2 ^ 63) (f : Int → Option β) :
    (signed.hold? v >>= f) = f v := by
  apply hold?_bind
  simp only [Fits, signed, Int64.toInt_minValue, Int64.toInt_maxValue]
  omega

theorem wide_bind (hleast : -2 ^ 127 ≤ v) (hgreatest : v < 2 ^ 127) (f : Int → Option β) :
    (wide.hold? v >>= f) = f v := by
  apply hold?_bind
  simp only [Fits, wide]
  omega

theorem unsigned_bind (hleast : 0 ≤ v) (hgreatest : v < 2 ^ 64) (f : Int → Option β) :
    (unsigned.hold? v >>= f) = f v := by
  apply hold?_bind
  simp only [Fits, unsigned]
  omega

end Words

section Steps

variable {start sign length : Int} {limit : Nat}

theorem visibleSteps?_eq (hleast : -2 ^ 31 ≤ start) (hgreatest : start < 2 ^ 31)
    (hlimit : limit < 2 ^ 31) :
    visibleSteps? start sign length limit = some (visibleSteps start sign length limit) := by
  rw [visibleSteps?]
  iterate 2 rw [signed_bind (by omega) (by omega)]
  by_cases hsign : 0 < sign
  · simp only [visibleSteps, if_pos hsign]
    iterate 2 rw [signed_bind (by omega) (by omega)]
    rfl
  · simp only [visibleSteps, if_neg hsign]
    iterate 2 rw [signed_bind (by omega) (by omega)]
    rfl

/-- What is made of the visible steps of a line in words, if that is what is made of them in
numbers. -/
theorem visible_eq {f : Int → Int → Option (List Point)} {g : Int → Int → List Point}
    (hstart : CoordinateInRange start) (hlimit : limit < 2 ^ 31)
    (h : ∀ first last, 0 ≤ first → first ≤ last → last ≤ length →
      f first last = some (g first last)) :
    (do
      match ← visibleSteps? start sign length limit with
      | none => return []
      | some (first, last) => f first last) =
    some (match visibleSteps start sign length limit with
      | none => []
      | some (first, last) => g first last) := by
  obtain ⟨hleast, hgreatest⟩ := coordinateInRange_iff.1 hstart
  rw [visibleSteps?_eq hleast hgreatest hlimit]
  cases hsteps : visibleSteps start sign length limit with
  | none => rfl
  | some steps =>
    obtain ⟨⟨-, horder⟩, hfirst, hlast⟩ := visibleSteps_eq_some.1 hsteps
    exact h steps.1 steps.2 (by omega) horder (by omega)

end Steps

section Walks

variable {major minor : Int}

/-- No error leaves its word while a walk goes on. The induction is on the steps that are left; each
of them begins with the offset and the error that the formulas give. -/
theorem walkFrom?_eq (hmajor : 0 < major) (hminor : 0 ≤ minor) (hle : minor ≤ major)
    (hbound : major < 2 ^ 32) (n : Nat) {k : Int} (hk : 0 ≤ k) (hn : k + n ≤ major + 1) :
    walkFrom? major minor n k (offsetAt major minor k)
        (errorAt major minor k (offsetAt major minor k)) =
      some (walkFrom major minor n k (offsetAt major minor k)
        (errorAt major minor k (offsetAt major minor k))) := by
  induction n generalizing k with
  | zero => rfl
  | succ n ih =>
    have hoffset := offsetAt_mem hmajor hminor ⟨hk, by omega⟩
    obtain ⟨hlow, hhigh⟩ := (offsetAt_eq_iff hmajor).1 (rfl : offsetAt major minor k = _)
    have htail := ih (k := k + 1) (by omega) (by omega)
    rw [offsetAt_succ hmajor hminor hle, errorAt_succ] at htail
    generalize offsetAt major minor k = offset at *
    generalize errorAt major minor k offset = error at *
    rw [walkFrom?, walkFrom]
    by_cases herror : 0 < error
    · simp only [if_pos herror] at htail ⊢
      iterate 5 rw [signed_bind (by omega) (by omega)]
      rw [htail]
      rfl
    · simp only [if_neg herror] at htail ⊢
      iterate 5 rw [signed_bind (by omega) (by omega)]
      rw [htail]
      rfl

/-- What is computed at the first step fits wide words, and what is left of it fits narrow ones. -/
theorem walk?_eq (hmajor : 0 < major) (hminor : 0 ≤ minor) (hle : minor ≤ major)
    (hbound : major < 2 ^ 32) {first last : Int} (hfirst : 0 ≤ first) (horder : first ≤ last)
    (hlast : last ≤ major) :
    walk? major minor first last = some (walk major minor first last) := by
  have hoffset := offsetAt_mem hmajor hminor (k := first) ⟨hfirst, by omega⟩
  obtain ⟨hlow, hhigh⟩ := (offsetAt_eq_iff hmajor).1 (rfl : offsetAt major minor first = _)
  have hrise : 0 ≤ 2 * first * minor ∧ 2 * first * minor ≤ 2 ^ 33 * 2 ^ 32 :=
    ⟨by positivity, mul_le_mul (by omega) (by omega) hminor (by decide)⟩
  have hnext : 2 * (first + 1) * minor = 2 * first * minor + 2 * minor := by ring
  have hcovered : 0 ≤ 2 * offsetAt major minor first * major ∧
      2 * offsetAt major minor first * major ≤ 2 ^ 33 * 2 ^ 32 :=
    ⟨mul_nonneg (by omega) hmajor.le, mul_le_mul (by omega) hbound.le hmajor.le (by decide)⟩
  have hquotient : -((major - 2 * first * minor) / (2 * major)) = offsetAt major minor first := rfl
  have herror : 2 * (first + 1) * minor - major - 2 * offsetAt major minor first * major =
    errorAt major minor first (offsetAt major minor first) := rfl
  have hwalk := walkFrom?_eq hmajor hminor hle hbound (last + 1 - first).toNat hfirst (by omega)
  rw [walk?]
  iterate 6 rw [wide_bind (by omega) (by omega)]
  rw [hquotient]
  iterate 7 rw [wide_bind (by omega) (by omega)]
  rw [herror]
  iterate 2 rw [signed_bind (by omega) (by omega)]
  exact hwalk

end Walks

section Points

variable {a b : Point} {width height : Nat}

theorem mapM_eq_some {α β : Type} {f : α → Option β} {g : α → β} {xs : List α}
    (h : ∀ x ∈ xs, f x = some (g x)) : xs.mapM f = some (xs.map g) := by
  induction xs with
  | nil => rfl
  | cons x xs ih =>
    rw [List.mapM_cons, h x (by simp), ih fun y hy => h y (by simp [hy])]
    rfl

theorem pointFrom?_eq (ha : InRange a) {across down sign : Int} (hsign : sign = 1 ∨ sign = -1)
    (hacross : 0 ≤ across ∧ across ≤ 2 ^ 32) (hdown : 0 ≤ down ∧ down ≤ 2 ^ 32) :
    pointFrom? a across down sign = some (a.1 + across, a.2 + down * sign) := by
  obtain ⟨hx, hy⟩ := ha
  rw [coordinateInRange_iff] at hx hy
  have hturned : -2 ^ 32 ≤ down * sign ∧ down * sign ≤ 2 ^ 32 := by
    rcases hsign with rfl | rfl <;> omega
  rw [pointFrom?]
  iterate 3 rw [signed_bind (by omega) (by omega)]
  rfl

/-- The steps of a walk and their offsets stay between the ends. -/
theorem mem_walk {major minor first last : Int} (hmajor : 0 < major) (hminor : 0 ≤ minor)
    (hle : minor ≤ major) (hfirst : 0 ≤ first) (hlast : last ≤ major) {p : Point}
    (h : p ∈ walk major minor first last) :
    (0 ≤ p.1 ∧ p.1 ≤ major) ∧ 0 ≤ p.2 ∧ p.2 ≤ minor := by
  rw [walk_eq hmajor hminor hle] at h
  obtain ⟨k, hk, rfl⟩ := List.mem_map.1 h
  have hsteps := mem_interval.1 hk
  exact ⟨⟨by omega, by omega⟩, offsetAt_mem hmajor hminor ⟨by omega, by omega⟩⟩

/-- The points of a walk in words, if each of them is what it is in numbers. -/
theorem walked_eq {major minor first last : Int} (hmajor : 0 < major) (hminor : 0 ≤ minor)
    (hle : minor ≤ major) (hbound : major < 2 ^ 32) (hfirst : 0 ≤ first) (horder : first ≤ last)
    (hlast : last ≤ major) {f : Point → Option Point} {g : Point → Point}
    (h : ∀ p, 0 ≤ p.1 ∧ p.1 ≤ major → 0 ≤ p.2 ∧ p.2 ≤ minor → f p = some (g p)) :
    (do
      let steps ← walk? major minor first last
      steps.mapM f) = some ((walk major minor first last).map g) := by
  rw [walk?_eq hmajor hminor hle hbound hfirst horder hlast]
  apply mapM_eq_some
  intro p hp
  obtain ⟨hstep, hoffset⟩ := mem_walk hmajor hminor hle hfirst hlast hp
  exact h p hstep hoffset

theorem orderedLinePoints?_eq (ha : InRange a) (hb : InRange b) (hab : precedes a b = true)
    (hwidth : width < 2 ^ 31) (hheight : height < 2 ^ 31) :
    orderedLinePoints? width height a b = some (orderedLinePoints width height a b) := by
  have hax := coordinateInRange_iff.1 ha.1
  have hay := coordinateInRange_iff.1 ha.2
  have hbx := coordinateInRange_iff.1 hb.1
  have hby := coordinateInRange_iff.1 hb.2
  obtain ⟨hx, hup⟩ := precedes_iff.1 hab
  unfold orderedLinePoints?
  iterate 3 rw [signed_bind (by omega) (by omega)]
  unfold orderedLinePoints
  simp only
  split
  · rfl
  split
  · iterate 2 rw [signed_bind (by omega) (by omega)]
    rfl
  split
  · iterate 2 rw [signed_bind (by omega) (by omega)]
    rfl
  have hsign : (b.2 - a.2).sign = 1 ∨ (b.2 - a.2).sign = -1 := sign_eq (by omega)
  split
  · apply visible_eq ha.1 hwidth
    intro first last hfirst horder hlast
    apply mapM_eq_some
    intro k hk
    have hstep := mem_interval.1 hk
    exact pointFrom?_eq ha hsign (by omega) (by omega)
  split
  · apply visible_eq ha.1 hwidth
    intro first last hfirst horder hlast
    apply walked_eq (by omega) (by omega) (by omega) (by omega) hfirst horder hlast
    intro p hstep hoffset
    exact pointFrom?_eq ha hsign (by omega) (by omega)
  · apply visible_eq ha.2 hheight
    intro first last hfirst horder hlast
    apply walked_eq (by omega) (by omega) (by omega) (by omega) hfirst horder hlast
    intro p hstep hoffset
    exact pointFrom?_eq ha hsign (by omega) (by omega)

/-- Ends out of range would not do: their difference need not fit. -/
example : orderedLinePoints? 3 2 (Int64.minValue.toInt, 0) (Int64.maxValue.toInt, 1) = none := by
  decide

theorem linePoints?_eq (p q : Point) (hwidth : width < 2 ^ 31) (hheight : height < 2 ^ 31) :
    linePoints? width height p q = some (linePoints width height p q) := by
  have hp := inRange_clampPoint p
  have hq := inRange_clampPoint q
  unfold linePoints? linePoints
  simp only
  split
  · rename_i h
    exact orderedLinePoints?_eq hp hq h hwidth hheight
  · rename_i h
    exact orderedLinePoints?_eq hq hp ((precedes_or _ _).resolve_left h) hwidth hheight

end Points

/-! ## Lines on canvases -/

section Canvases

variable {c : Canvas}

/-- The place of every pixel fits a word, and there is a pixel at it. -/
theorem set?_eq (hwidth : c.width < 2 ^ 31) (hheight : c.height < 2 ^ 31) (p : Point)
    (color : Rgba) : c.set? p color = some (c.set p color) := by
  unfold Canvas.set?
  split
  · rename_i hp
    have hindex : c.index? p = some (p.2.toNat * c.width + p.1.toNat) := if_pos hp
    have hplace := Canvas.index?_eq_some hindex
    obtain ⟨hx, hxw, hy, hyh⟩ := hp
    have hrow : 0 ≤ p.2 * c.width ∧ p.2 * c.width ≤ 2 ^ 31 * 2 ^ 31 :=
      ⟨mul_nonneg hy (by omega), mul_le_mul (by omega) (by omega) (by omega) (by decide)⟩
    have hnat : (p.2 * c.width + p.1).toNat = p.2.toNat * c.width + p.1.toNat := by
      rw [Int.toNat_add hrow.1 hx, Int.toNat_mul hy (by omega), Int.toNat_natCast]
    iterate 2 rw [unsigned_bind (by omega) (by omega)]
    simp only [hnat, dif_pos hplace, Canvas.set, hindex, Array.setIfInBounds]
    rfl
  · rename_i hp
    simp only [Canvas.set, Canvas.index?, if_neg hp]

/-- No write of a list of points fails. The induction is on the points; a write leaves the sides of
the canvas as they are. -/
theorem foldlM_set? (hwidth : c.width < 2 ^ 31) (hheight : c.height < 2 ^ 31)
    (points : List Point) (color : Rgba) :
    points.foldlM (fun c p => c.set? p color) c = some (c.paint points color) := by
  induction points generalizing c with
  | nil => rfl
  | cons p points ih =>
    rw [List.foldlM_cons, set?_eq hwidth hheight, Canvas.paint_cons]
    exact ih (by rwa [Canvas.width_set]) (by rwa [Canvas.height_set])

/-- On a canvas whose sides are below 2³¹, nothing that is computed for a line leaves its word or
misses the pixels, wherever the ends of the line are. -/
theorem lines_fit_words (c : Canvas) (x₁ y₁ x₂ y₂ : Int64) (color : Rgba)
    (hwidth : c.width < 2 ^ 31) (hheight : c.height < 2 ^ 31) :
    c.line? (x₁.toInt, y₁.toInt) (x₂.toInt, y₂.toInt) color =
      some (c.line (x₁.toInt, y₁.toInt) (x₂.toInt, y₂.toInt) color) := by
  rw [Canvas.line?, linePoints?_eq _ _ hwidth hheight]
  exact foldlM_set? hwidth hheight _ color

/-- A line from one corner of the plane to the other, almost. -/
theorem longest_line_fits_words :
    ((Canvas.blank 3 2).width < 2 ^ 31 ∧ (Canvas.blank 3 2).height < 2 ^ 31) ∧
      (Canvas.blank 3 2).line? (Int64.minValue.toInt, Int64.minValue.toInt)
          (Int64.maxValue.toInt, (2 : Int64).toInt) .black =
        some ((Canvas.blank 3 2).line (Int64.minValue.toInt, Int64.minValue.toInt)
          (Int64.maxValue.toInt, (2 : Int64).toInt) .black) :=
  ⟨⟨by decide, by decide⟩, lines_fit_words (Canvas.blank 3 2) Int64.minValue Int64.minValue
    Int64.maxValue 2 .black (by decide) (by decide)⟩

end Canvases

end DrawLang
