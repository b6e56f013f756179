import DrawLang.Color

/-!
# Canvases

A canvas is a rectangle of pixels. Coordinates count from the left and from the top, and may lie
anywhere: what is written outside the canvas is dropped, and what is read there is transparent.

Sizes are words of 64 bits when a program makes a canvas, and there is a largest buffer. A canvas as
it stands here may be of any size; what can be made is said where canvases are made.

* `Canvas.pixel`, `Canvas.set`, `Canvas.fill`, `Canvas.paint`.
* `Canvas.Fits`, `Canvas.new?`: the sizes that can be laid out.
* `Canvas.inBlocks`: every pixel becomes a square block.
* `Canvas.scaled?`: the same, in the arithmetic of sizes.
* `Canvas.pixel_set`: what a write changes.
-/

namespace DrawLang

/-- A point of the plane, with `y` counted downwards. -/
abbrev Point := Int × Int

/-- Pixels row by row, the top row first. -/
structure Canvas where
  width : Nat
  height : Nat
  pixels : Array Rgba
  size_pixels : pixels.size = width * height
  deriving DecidableEq

namespace Canvas

def plain (width height : Nat) (color : Rgba) : Canvas :=
  ⟨width, height, Array.replicate (width * height) color, Array.size_replicate⟩

def blank (width height : Nat) : Canvas := plain width height .transparent

def ofFn (width height : Nat) (color : Nat → Nat → Rgba) : Canvas :=
  ⟨width, height, Array.ofFn fun i : Fin (width * height) => color (i % width) (i / width),
    Array.size_ofFn⟩

/-- Where the pixel of a point is stored, if the point lies on the canvas. -/
def index? (c : Canvas) (p : Point) : Option Nat :=
  if 0 ≤ p.1 ∧ p.1 < c.width ∧ 0 ≤ p.2 ∧ p.2 < c.height then
    some (p.2.toNat * c.width + p.1.toNat)
  else none

/-- The color at a point; transparent outside the canvas. -/
def pixel (c : Canvas) (p : Point) : Rgba :=
  match c.index? p with
  | some i => c.pixels.getD i .transparent
  | none => .transparent

/-- The canvas with a color at a point; points outside the canvas are dropped. -/
def set (c : Canvas) (p : Point) (color : Rgba) : Canvas :=
  match c.index? p with
  | some i => { c with
      pixels := c.pixels.setIfInBounds i color
      size_pixels := by rw [Array.size_setIfInBounds, c.size_pixels] }
  | none => c

def paint (c : Canvas) (points : List Point) (color : Rgba) : Canvas :=
  points.foldl (fun c p => c.set p color) c

def fill (c : Canvas) (color : Rgba) : Canvas := plain c.width c.height color

/-- Four bytes a pixel, in the order red, green, blue, opacity. -/
def bytes (c : Canvas) : List UInt8 :=
  c.pixels.toList.flatMap fun p => [p.r, p.g, p.b, p.a]

/-! ## Sizes -/

/-- Whether a canvas of these sides can be laid out: the sides are words, and four bytes for every
pixel are no more than a buffer may have. -/
def Fits (width height : Nat) : Prop :=
  width < UInt64.size ∧ height < UInt64.size ∧ 4 * (width * height) < 0x8000000000000000

instance (width height : Nat) : Decidable (Fits width height) :=
  inferInstanceAs (Decidable (_ ∧ _ ∧ _))

/-- A new canvas, which is transparent. There is none if the count of its pixels leaves the word, or
if its buffer would be too large. -/
def new? (width height : Nat) : Option Canvas :=
  if Fits width height then some (blank width height) else none

end Canvas

/-- Whether arithmetic is checked where it leaves the word. -/
inductive Build where
  | checked
  | unchecked
  deriving DecidableEq, Repr

/-- The product of two sizes. One that leaves the word stops a checked build, and wraps around in an
unchecked one. -/
def Build.product? (build : Build) (a b : Nat) : Option Nat :=
  if a * b < UInt64.size then some (a * b)
  else match build with
    | .checked => none
    | .unchecked => some (a * b % UInt64.size)

theorem guard_of {p : Prop} [Decidable p] (h : p) : (guard p : Option Unit) = some () := if_pos h

theorem guard_of_not {p : Prop} [Decidable p] (h : ¬ p) : (guard p : Option Unit) = none :=
  if_neg h

/-- A product that is a word is the same in every build. -/
theorem Build.product?_of_lt {build : Build} {a b : Nat} (h : a * b < UInt64.size) :
    build.product? a b = some (a * b) := if_pos h

namespace Canvas

/-! ## Scaling -/

/-- Every item `n` times in a row. -/
def stretch {α : Type} (n : Nat) (items : List α) : List α := items.flatMap (List.replicate n)

theorem length_stretch {α : Type} (n : Nat) (items : List α) :
    (stretch n items).length = items.length * n := by
  induction items with
  | nil => simp [stretch]
  | cons x xs ih =>
    simp only [stretch, List.flatMap_cons, List.length_append, List.length_replicate,
      List.length_cons, Nat.succ_mul] at *
    omega

theorem mem_stretch {α : Type} {n : Nat} {items : List α} {x : α} (h : x ∈ stretch n items) :
    x ∈ items := by
  obtain ⟨y, hy, hx⟩ := List.mem_flatMap.1 h
  rw [(List.mem_replicate.1 hx).2]
  exact hy

theorem length_flatten_of_length {α : Type} {rows : List (List α)} {n : Nat}
    (h : ∀ row ∈ rows, row.length = n) : rows.flatten.length = rows.length * n := by
  induction rows with
  | nil => simp
  | cons row rows ih =>
    rw [List.flatten_cons, List.length_append, h row (by simp),
      ih fun r hr => h r (by simp [hr]), List.length_cons, Nat.succ_mul, Nat.add_comm]

def rows (c : Canvas) : List (List Rgba) :=
  (List.range c.height).map fun y =>
    (c.pixels.extract (y * c.width) (y * c.width + c.width)).toList

theorem length_rows (c : Canvas) : c.rows.length = c.height := by simp [rows]

theorem length_of_mem_rows {c : Canvas} {row : List Rgba} (h : row ∈ c.rows) :
    row.length = c.width := by
  obtain ⟨y, hy, rfl⟩ := List.mem_map.1 h
  have hle : (y + 1) * c.width ≤ c.height * c.width :=
    Nat.mul_le_mul_right _ (List.mem_range.1 hy)
  rw [Nat.succ_mul] at hle
  rw [Array.length_toList, Array.size_extract, c.size_pixels, Nat.mul_comm c.width]
  omega

/-- The pixels of a canvas in blocks of `factor` by `factor`, row by row. -/
def blockPixels (c : Canvas) (factor : Nat) : List Rgba :=
  (stretch factor (c.rows.map (stretch factor))).flatten

theorem length_blockPixels (c : Canvas) (factor : Nat) :
    (c.blockPixels factor).length = c.width * factor * (c.height * factor) := by
  rw [blockPixels, length_flatten_of_length (n := c.width * factor), length_stretch,
    List.length_map, length_rows, Nat.mul_comm]
  intro row hrow
  obtain ⟨r, hr, rfl⟩ := List.mem_map.1 (mem_stretch hrow)
  rw [length_stretch, length_of_mem_rows hr]

/-- The canvas in which every pixel has become a block of `factor` by `factor` pixels. Factors below
2 change nothing. -/
def inBlocks (c : Canvas) (factor : Nat) : Canvas :=
  if factor < 2 then c
  else
    { width := c.width * factor
      height := c.height * factor
      pixels := (c.blockPixels factor).toArray
      size_pixels := by rw [List.size_toArray, length_blockPixels] }

/-- The canvas with these pixels, if there are as many as it needs. -/
def ofPixels? (width height : Nat) (pixels : Array Rgba) : Option Canvas :=
  if h : pixels.size = width * height then some ⟨width, height, pixels, h⟩ else none

/-- The canvas in blocks, as a program makes it. The sides of the new canvas are products of sizes,
and its pixels are appended one by one to a buffer, which must not grow too large. -/
def scaled? (build : Build) (c : Canvas) (factor : Nat) : Option Canvas :=
  if factor < 2 then some c
  else do
    let width ← build.product? c.width factor
    let height ← build.product? c.height factor
    guard (4 * (c.width * factor * (c.height * factor)) < 0x8000000000000000)
    ofPixels? width height (c.blockPixels factor).toArray

/-! ## Laws -/

theorem Fits.mono {width height width' height' : Nat} (h : Fits width height)
    (hwidth : width' ≤ width) (hheight : height' ≤ height) : Fits width' height' := by
  have hcount : width' * height' ≤ width * height := Nat.mul_le_mul hwidth hheight
  exact ⟨Nat.lt_of_le_of_lt hwidth h.1, Nat.lt_of_le_of_lt hheight h.2.1, by have := h.2.2; omega⟩

theorem inBlocks_of_lt {n : Nat} (hn : n < 2) (c : Canvas) : c.inBlocks n = c := by
  rw [inBlocks, if_pos hn]

/-- Factors below 2 count as 1. -/
theorem inBlocks_max (c : Canvas) (factor : Nat) : c.inBlocks (max factor 1) = c.inBlocks factor := by
  rcases Nat.lt_or_ge factor 1 with h | h
  · rw [inBlocks_of_lt (by omega), inBlocks_of_lt (by omega)]
  · rw [Nat.max_eq_left h]

/-- A canvas that can be laid out in blocks is made in every build. -/
theorem scaled?_of_fits {c : Canvas} {factor : Nat}
    (h : Fits (c.width * max factor 1) (c.height * max factor 1)) (build : Build) :
    c.scaled? build factor = some (c.inBlocks factor) := by
  unfold scaled? inBlocks
  by_cases hfactor : factor < 2
  · rw [if_pos hfactor, if_pos hfactor]
  · rw [Nat.max_eq_left (by omega)] at h
    have hsize : (c.blockPixels factor).toArray.size = c.width * factor * (c.height * factor) := by
      rw [List.size_toArray, length_blockPixels]
    rw [if_neg hfactor, if_neg hfactor, Build.product?_of_lt h.1, Build.product?_of_lt h.2.1,
      Option.bind_eq_bind, Option.bind_some, Option.bind_eq_bind, Option.bind_some, guard_of h.2.2]
    exact dif_pos hsize

/-- One that cannot be laid out stops a checked build. -/
theorem scaled?_of_not_fits {c : Canvas} {factor : Nat} (hfactor : 2 ≤ factor)
    (h : ¬ Fits (c.width * factor) (c.height * factor)) : c.scaled? .checked factor = none := by
  rw [scaled?, if_neg (by omega), Build.product?, Build.product?]
  by_cases hwidth : c.width * factor < UInt64.size
  · by_cases hheight : c.height * factor < UInt64.size
    · have hcount := fun hlt => h ⟨hwidth, hheight, hlt⟩
      rw [if_pos hwidth, if_pos hheight, Option.bind_eq_bind, Option.bind_some,
        Option.bind_eq_bind, Option.bind_some, guard_of_not hcount]
      rfl
    · rw [if_pos hwidth, if_neg hheight]
      rfl
  · rw [if_neg hwidth]
    rfl

theorem index?_eq_some {c : Canvas} {p : Point} {i : Nat} (h : c.index? p = some i) :
    i < c.pixels.size := by
  unfold index? at h
  split at h
  · rename_i hp
    obtain ⟨_, hx, _, hy⟩ := hp
    have hx' : p.1.toNat < c.width := by omega
    have hy' : p.2.toNat + 1 ≤ c.height := by omega
    have := Nat.mul_le_mul_right c.width hy'
    rw [Nat.succ_mul, Nat.mul_comm c.height] at this
    rw [c.size_pixels]
    cases h
    omega
  · cases h

/-- Different points of a canvas are stored at different places. -/
theorem index?_inj {c : Canvas} {p q : Point} {i : Nat} (hp : c.index? p = some i)
    (hq : c.index? q = some i) : p = q := by
  unfold index? at hp hq
  split at hp <;> split at hq <;> try contradiction
  rename_i h₁ h₂
  obtain ⟨x, y⟩ := p
  obtain ⟨u, v⟩ := q
  simp only [Option.some.injEq] at hp hq h₁ h₂
  have hw : 0 < c.width := by omega
  have hx : i % c.width = x.toNat := by
    rw [← hp, Nat.mul_comm, Nat.mul_add_mod, Nat.mod_eq_of_lt (by omega)]
  have hu : i % c.width = u.toNat := by
    rw [← hq, Nat.mul_comm, Nat.mul_add_mod, Nat.mod_eq_of_lt (by omega)]
  have hy : i / c.width = y.toNat := by
    rw [← hp, Nat.mul_comm, Nat.mul_add_div hw, Nat.div_eq_of_lt (by omega), Nat.add_zero]
  have hv : i / c.width = v.toNat := by
    rw [← hq, Nat.mul_comm, Nat.mul_add_div hw, Nat.div_eq_of_lt (by omega), Nat.add_zero]
  rw [Prod.mk.injEq]
  omega

@[simp] theorem index?_set (c : Canvas) (p : Point) (color : Rgba) (q : Point) :
    (c.set p color).index? q = c.index? q := by
  unfold set
  split <;> rfl

/-- A write changes the pixel of its point, if that lies on the canvas, and no other. -/
theorem pixel_set (c : Canvas) (p q : Point) (color : Rgba) :
    (c.set p color).pixel q =
      if q = p ∧ (c.index? p).isSome then color else c.pixel q := by
  unfold pixel
  rw [index?_set]
  cases hp : c.index? p with
  | none => simp [set, hp]
  | some i =>
    have hi := index?_eq_some hp
    by_cases h : q = p
    · simp [h, hp, set, hi]
    · cases hq : c.index? q with
      | none => simp [h]
      | some j =>
        have hij : i ≠ j := fun e => h (index?_inj hq (e ▸ hp))
        simp [set, hp, h, hij]

@[simp] theorem width_set (c : Canvas) (p : Point) (color : Rgba) :
    (c.set p color).width = c.width := by
  unfold set
  split <;> rfl

@[simp] theorem height_set (c : Canvas) (p : Point) (color : Rgba) :
    (c.set p color).height = c.height := by
  unfold set
  split <;> rfl

@[simp] theorem paint_nil (c : Canvas) (color : Rgba) : c.paint [] color = c := rfl

@[simp] theorem paint_cons (c : Canvas) (p : Point) (ps : List Point) (color : Rgba) :
    c.paint (p :: ps) color = (c.set p color).paint ps color := rfl

@[simp] theorem width_paint (c : Canvas) (ps : List Point) (color : Rgba) :
    (c.paint ps color).width = c.width := by
  induction ps generalizing c with
  | nil => rfl
  | cons p ps ih => rw [paint_cons, ih, width_set]

@[simp] theorem height_paint (c : Canvas) (ps : List Point) (color : Rgba) :
    (c.paint ps color).height = c.height := by
  induction ps generalizing c with
  | nil => rfl
  | cons p ps ih => rw [paint_cons, ih, height_set]

/-- Painting changes the pixels of its points, if they lie on the canvas, and no others. -/
theorem pixel_paint (c : Canvas) (ps : List Point) (q : Point) (color : Rgba) :
    (c.paint ps color).pixel q =
      if q ∈ ps ∧ (c.index? q).isSome then color else c.pixel q := by
  induction ps generalizing c with
  | nil => simp
  | cons p ps ih =>
    rw [paint_cons, ih, index?_set, pixel_set]
    by_cases hq : q = p
    · subst hq
      by_cases hon : (c.index? q).isSome
      · simp [hon]
      · simp [hon]
    · simp [hq]

end Canvas

end DrawLang
