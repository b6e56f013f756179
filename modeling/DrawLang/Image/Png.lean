import DrawLang.Image.Bytes
import DrawLang.Image.Checksum
import DrawLang.Image.Codec

/-!
# PNG files

A canvas as the bytes of a PNG file: eight bits in each of four channels, rows unfiltered, and the
data stored without compression. Files of that kind can be read back.

* `Png.encode`: fails for canvases that a single chunk cannot hold.
* `Png.decode?`
-/

namespace DrawLang.Image.Png

def signature : List UInt8 := [0x89, 0x50, 0x4E, 0x47, 0x0D, 0x0A, 0x1A, 0x0A]

def header : List UInt8 := [0x49, 0x48, 0x44, 0x52]

def data : List UInt8 := [0x49, 0x44, 0x41, 0x54]

def trailer : List UInt8 := [0x49, 0x45, 0x4E, 0x44]

/-- A chunk: the length of its contents, its kind, the contents and their checksum. -/
def chunk (kind contents : List UInt8) : List UInt8 :=
  bigEndian contents.length ++
    (kind ++ (contents ++ bigEndian (crc32 (kind ++ contents)).toNat))

/-- The most bytes that a stored block holds. -/
def blockLength : Nat := 65535

def block (mark : UInt8) (contents : List UInt8) : List UInt8 :=
  mark :: (littleEndian contents.length ++ (littleEndian (65535 - contents.length) ++ contents))

/-- Bytes as stored blocks, at most `n + 1` of them, of which the last is marked as such. -/
def blocks : Nat → List UInt8 → List UInt8
  | 0, bytes => block 1 bytes
  | n + 1, bytes =>
    if bytes.length ≤ blockLength then block 1 bytes
    else block 0 (bytes.take blockLength) ++ blocks n (bytes.drop blockLength)

/-- Bytes as a stream of stored blocks with its header and checksum. -/
def stored (bytes : List UInt8) : List UInt8 :=
  [0x78, 0x01] ++ (blocks (bytes.length / blockLength) bytes ++ bigEndian (adler32 bytes).toNat)

def pixel (p : Rgba) : List UInt8 := [p.r, p.g, p.b, p.a]

/-- A row, after a byte that says that it is not filtered. -/
def scanline (row : List Rgba) : List UInt8 := 0 :: row.flatMap pixel

def sides (width height : Nat) : List UInt8 :=
  bigEndian width ++ (bigEndian height ++ [8, 6, 0, 0, 0])

def encode (c : Canvas) : Encoding :=
  let contents := stored (c.rows.flatMap scanline)
  if c.width < UInt32.size ∧ c.height < UInt32.size ∧ contents.length < UInt32.size then
    { bytes := signature ++ (chunk header (sides c.width c.height) ++
        (chunk data contents ++ chunk trailer []))
      failure := none }
  else ⟨[], some "the picture is too large"⟩

/-! ## Reading -/

open ByteReader

def readChunk (kind : List UInt8) : ByteReader (List UInt8) := do
  let length ← big
  expect kind
  let contents ← take length
  expect (bigEndian (crc32 (kind ++ contents)).toNat)
  return contents

def readBlocks : Nat → ByteReader (List UInt8)
  | 0 => failure
  | n + 1 => do
    let mark ← byte
    let length ← little
    expect (littleEndian (65535 - length))
    let contents ← take length
    if mark = 1 then return contents
    else return contents ++ (← readBlocks n)

def readStored (limit : Nat) : ByteReader (List UInt8) := do
  expect [0x78, 0x01]
  let bytes ← readBlocks limit
  expect (bigEndian (adler32 bytes).toNat)
  return bytes

def readPixel : ByteReader Rgba := do
  let r ← byte
  let g ← byte
  let b ← byte
  let a ← byte
  return ⟨r, g, b, a⟩

def readScanline (width : Nat) : ByteReader (List Rgba) := do
  expect [0]
  times readPixel width

def readSides : ByteReader (Nat × Nat) := do
  let width ← big
  let height ← big
  expect [8, 6, 0, 0, 0]
  return (width, height)

def readFile : ByteReader (List UInt8 × List UInt8) := do
  expect signature
  let header ← readChunk header
  let contents ← readChunk data
  let _ ← readChunk trailer
  return (header, contents)

def decode? (bytes : List UInt8) : Option Canvas := do
  let (header, contents) ← readFile.all? bytes
  let (width, height) ← readSides.all? header
  let raw ← (readStored contents.length).all? contents
  let rows ← (times (readScanline width) height).all? raw
  Canvas.ofPixels? width height rows.flatten.toArray

end DrawLang.Image.Png
