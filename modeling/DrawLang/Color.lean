/-!
# Colors and inks

Programs speak of ink, from 0 for white paper to 100 for black. A canvas holds colors with four
channels of eight bits. Ink becomes an opaque gray; read back from a canvas, it is the ink of the red
channel.

* `Rgba.ofInk`, `Rgba.ink`: from ink to color and back.
* `Rgba.nearest`: the color of a palette that is closest to a given one.
* `Rgba.ofInk_eq_gray`: ink makes opaque grays only.
-/

namespace DrawLang

/-- A color with its opacity in the channel `a`. -/
structure Rgba where
  r : UInt8
  g : UInt8
  b : UInt8
  a : UInt8
  deriving DecidableEq, Repr, Inhabited

namespace Rgba

def transparent : Rgba := ⟨0, 0, 0, 0⟩

/-- The opaque gray of a level from 0 for black to 255 for white. -/
def gray (level : UInt8) : Rgba := ⟨level, level, level, 255⟩

def white : Rgba := gray 255

def black : Rgba := gray 0

/-- The level of gray for an amount of ink from 0 to 100. -/
def inkLevel (ink : Nat) : UInt8 := UInt8.ofNat ((100 - ink) * 255 / 100)

/-- The gray of an amount of ink; less than 0 counts as 0, and more than 100 as 100. -/
def ofInk (ink : Int64) : Rgba := gray (inkLevel (min ink.toInt.toNat 100))

/-- The amount of ink that the red channel shows. -/
def ink (c : Rgba) : Int64 := Int64.ofNat (100 - c.r.toNat * 257 * 100 / 65535)

/-! ## Palettes -/

/-- How far two values of a channel lie apart, squared. -/
def channelDistance (x y : UInt8) : Nat :=
  let d := max x.toNat y.toNat - min x.toNat y.toNat
  d * d

/-- The squared distance of two colors over their four channels. -/
def distance (c d : Rgba) : Nat :=
  channelDistance c.r d.r + channelDistance c.g d.g + channelDistance c.b d.b +
    channelDistance c.a d.a

/-- The index of the first color of a palette at the least distance; 0 in an empty palette. -/
def nearest (c : Rgba) (palette : List Rgba) : Nat :=
  let least := (palette.map c.distance).min?
  palette.findIdx fun d => some (c.distance d) = least

/-! ## Laws -/

/-- Whatever the ink, its color is the gray of some amount from 0 to 100. -/
theorem ofInk_eq_gray (ink : Int64) : ∃ v, v ≤ 100 ∧ ofInk ink = gray (inkLevel v) :=
  ⟨_, Nat.min_le_right _ _, rfl⟩

@[simp] theorem ofInk_zero : ofInk 0 = white := by decide

@[simp] theorem ofInk_hundred : ofInk 100 = black := by decide

/-- A palette with a color in it has a nearest one. -/
theorem nearest_lt (c : Rgba) {palette : List Rgba} (h : palette ≠ []) :
    c.nearest palette < palette.length := by
  unfold nearest
  rw [List.findIdx_lt_length]
  cases hm : (palette.map c.distance).min? with
  | none => simp_all
  | some m =>
    obtain ⟨d, hd, hdm⟩ := List.mem_map.1 (List.min?_mem hm)
    exact ⟨d, hd, by simp [hdm]⟩

end Rgba

end DrawLang
