import DrawLang.Canvas

/-!
# Frames

A frame is a picture in palette form: some colors, and one index into them for every pixel. A frame
made from a canvas has the first 256 distinct colors of the canvas, row by row from the top; a pixel
of any other color takes the nearest of them.

* `Frame.ofCanvas`, `Frame.toCanvas`: from canvas to frame and back.
* `Frame.length_palette_le`, `Frame.size_indices`: the shape of a frame made from a canvas.
-/

namespace DrawLang

/-- A picture in palette form. The delay before the next frame counts hundredths of a second. -/
structure Frame where
  width : Nat
  height : Nat
  palette : List Rgba
  indices : Array UInt8
  delay : Nat
  deriving DecidableEq, Repr

namespace Frame

/-- The most colors that a palette holds. -/
def maxPalette : Nat := 256

/-- The palette of a list of pixels: their first distinct colors, in order. -/
def paletteOf (pixels : List Rgba) : List Rgba := pixels.eraseDups.take maxPalette

/-- The index that a color gets: its own if the palette has it, else that of the nearest color. -/
def indexIn (palette : List Rgba) (color : Rgba) : Nat :=
  if color ∈ palette then palette.idxOf color else color.nearest palette

def ofCanvas (c : Canvas) : Frame :=
  let palette := paletteOf c.pixels.toList
  { width := c.width
    height := c.height
    palette
    indices := c.pixels.map fun color => UInt8.ofNat (indexIn palette color)
    delay := 0 }

/-- The color at a point; transparent outside the frame and past the palette. -/
def pixel (f : Frame) (p : Point) : Rgba :=
  if 0 ≤ p.1 ∧ p.1 < f.width ∧ 0 ≤ p.2 ∧ p.2 < f.height then
    match f.indices[p.2.toNat * f.width + p.1.toNat]? with
    | some index => f.palette.getD index.toNat .transparent
    | none => .transparent
  else .transparent

def toCanvas (f : Frame) : Canvas := .ofFn f.width f.height fun x y => f.pixel (x, y)

/-! ## Laws -/

theorem length_palette_le (c : Canvas) : (ofCanvas c).palette.length ≤ maxPalette := by
  exact List.length_take_le _ _

@[simp] theorem size_indices (c : Canvas) :
    (ofCanvas c).indices.size = c.width * c.height := by
  simp [ofCanvas, c.size_pixels]

theorem indexIn_lt {palette : List Rgba} (h : palette ≠ []) (color : Rgba) :
    indexIn palette color < palette.length := by
  unfold indexIn
  split
  · rename_i hc
    exact List.idxOf_lt_length_of_mem hc
  · exact color.nearest_lt h

end Frame

end DrawLang
