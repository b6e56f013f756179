import DrawLang.Canvas

/-!
# Image encoders

The tool leaves the bytes of image files to encoders. They are given pictures, hand out bytes that
are to be written, and may stop early with a reason. An animation is encoded image by image.

* `Encoding`: what an encoder hands out.
* `Canvas.image?`: the picture that an encoder is given.
* `ImageCodec`, `ImageReaders`: encoders, and what reads their files.
-/

namespace DrawLang

/-- What an encoder hands out: bytes, and the reason if it has stopped early. -/
structure Encoding where
  bytes : List UInt8
  failure : Option String

/-- An image of an animation, and how many milliseconds pass before the next one. -/
structure Slide where
  image : Canvas
  delay : Nat

/-- Encoders. What stands for an image of an animation may depend on the images before it. -/
structure ImageCodec where
  png : Canvas → Encoding
  /-- What stands in front of all images. -/
  gifStart : Encoding
  gifImage : List Slide → Slide → Encoding
  /-- What stands behind all images. -/
  gifEnd : List Slide → List UInt8

structure ImageReaders where
  png : List UInt8 → Option Canvas
  gif : List UInt8 → Option (List Slide)

/-- The picture that an encoder is given of a canvas. Its sides are words of 32 bits, and it has the
first pixels of the canvas. -/
def Canvas.image? (c : Canvas) : Option Canvas :=
  let width := c.width % UInt32.size
  let height := c.height % UInt32.size
  ofPixels? width height (c.pixels.extract 0 (width * height))

/-- A canvas with sides that are words of 32 bits is its own picture. -/
theorem Canvas.image?_eq_some {c : Canvas} (hwidth : c.width < UInt32.size)
    (hheight : c.height < UInt32.size) : c.image? = some c := by
  have hpixels : c.pixels.extract 0 (c.width * c.height) = c.pixels := by
    rw [← c.size_pixels, Array.extract_size]
  rw [image?, Nat.mod_eq_of_lt hwidth, Nat.mod_eq_of_lt hheight, hpixels]
  exact dif_pos c.size_pixels

end DrawLang
