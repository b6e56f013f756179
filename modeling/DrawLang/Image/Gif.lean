import DrawLang.Frame
import DrawLang.Image.Bytes
import DrawLang.Image.Codec

/-!
# GIF files

Images as the bytes of an animated GIF file that repeats without end. Every image has a palette of
its own, of at most 128 colors, and covers the images before it. The indices are written as codes of
eight bits, of which 128 clears the table of the reader and 129 ends an image; the table is cleared
before it would need wider codes. Files of that kind can be read back.

* `Gif.start`, `Gif.image`, `Gif.finish`: the parts of a file.
* `Gif.decode?`
-/

namespace DrawLang.Image.Gif

/-- What every file begins with. -/
def signature : List UInt8 := [0x47, 0x49, 0x46, 0x38, 0x39, 0x61]

/-- The extension that makes an animation repeat without end. -/
def repetition : List UInt8 :=
  [0x21, 0xFF, 11, 0x4E, 0x45, 0x54, 0x53, 0x43, 0x41, 0x50, 0x45, 0x32, 0x2E, 0x30, 3, 1, 0, 0, 0]

def maxColors : Nat := 128

/-- How many codes the table of a reader can take in after it was cleared. -/
def groupLength : Nat := 126

/-- The codes of indices, in at most `n + 1` groups. -/
def codes : Nat → List UInt8 → List UInt8
  | 0, indices => 128 :: (indices ++ [129])
  | n + 1, indices =>
    if indices.length ≤ groupLength then 128 :: (indices ++ [129])
    else 128 :: (indices.take groupLength ++ codes n (indices.drop groupLength))

/-- Bytes in blocks of at most 255, each after its length, closed by an empty one; at most `n`
blocks. -/
def subBlocks : Nat → List UInt8 → List UInt8
  | 0, _ => [0]
  | n + 1, bytes =>
    if bytes.isEmpty then [0]
    else UInt8.ofNat (bytes.take 255).length :: (bytes.take 255 ++ subBlocks n (bytes.drop 255))

def color (c : Rgba) : List UInt8 := [c.r, c.g, c.b]

/-- A palette, filled up with black. -/
def colorTable (palette : List Rgba) : List UInt8 :=
  (palette ++ List.replicate (maxColors - palette.length) Rgba.black).flatMap color

/-- An image: its delay in hundredths of a second, its place and size, its palette and its codes. -/
def frame (delay : Nat) (f : Frame) : List UInt8 :=
  let packed := codes (f.indices.size / groupLength) f.indices.toList
  0x21 :: ([0xF9, 4, 0] ++ (littleEndian delay ++ ([0, 0, 0x2C, 0, 0, 0, 0] ++
    (littleEndian f.width ++ (littleEndian f.height ++ ([0x86] ++
      (colorTable f.palette ++ ([7] ++ subBlocks packed.length packed))))))))

/-- The screen on which all images are shown. -/
def screen (width height : Nat) : List UInt8 :=
  signature ++ (littleEndian width ++ (littleEndian height ++ ([0, 0, 0] ++ repetition)))

/-- An image behind others. In front of the first one stands the screen, which is as large. -/
def image (before : List Slide) (slide : Slide) : Encoding :=
  let f := Frame.ofCanvas slide.image
  let delay := slide.delay / 10
  if f.width < UInt16.size ∧ f.height < UInt16.size ∧ delay < UInt16.size ∧
      f.palette.length ≤ maxColors then
    let front := if before.isEmpty then screen f.width f.height else []
    ⟨front ++ frame delay f, none⟩
  else ⟨[], some "the image is too large, too slow or too colorful"⟩

def finish (slides : List Slide) : List UInt8 := if slides.isEmpty then [] else [0x3B]

/-! ## Reading -/

open ByteReader

def indices? : List UInt8 → Option (List UInt8)
  | [] => none
  | code :: rest =>
    if code < 128 then (indices? rest).map (code :: ·)
    else if code = 128 then indices? rest
    else if code = 129 then some []
    else none

def readSubBlocks : Nat → ByteReader (List UInt8)
  | 0 => failure
  | n + 1 => do
    let length ← byte
    if length = 0 then return []
    else do
      let bytes ← take length.toNat
      return bytes ++ (← readSubBlocks n)

def readData : ByteReader (List UInt8) := do readSubBlocks (← get).length

def readColor : ByteReader Rgba := do
  let r ← byte
  let g ← byte
  let b ← byte
  return ⟨r, g, b, 255⟩

/-- Reads an image whose first byte has been read. -/
def readImage : ByteReader Slide := do
  expect [0xF9, 4, 0]
  let delay ← little
  expect [0, 0, 0x2C, 0, 0, 0, 0]
  let width ← little
  let height ← little
  expect [0x86]
  let palette ← times readColor maxColors
  expect [7]
  match indices? (← readData) with
  | none => failure
  | some indices =>
    let f : Frame := ⟨width, height, palette, indices.toArray, delay⟩
    return ⟨f.toCanvas, 10 * delay⟩

def readImages : Nat → ByteReader (List Slide)
  | 0 => failure
  | n + 1 => do
    let mark ← byte
    if mark = 0x3B then return []
    else do
      guard (mark = 0x21)
      let slide ← readImage
      return slide :: (← readImages n)

def readFile : ByteReader (List Slide) := do
  expect signature
  let _ ← little
  let _ ← little
  expect [0, 0, 0]
  expect repetition
  readImages (← get).length

def decode? (bytes : List UInt8) : Option (List Slide) := readFile.all? bytes

end DrawLang.Image.Gif
