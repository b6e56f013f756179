/-!
# Checksums of image files

Image files guard their data with two checksums: the cyclic redundancy check over 32 bits, and two
running sums modulo the largest prime below 65536.

* `crc32`, `adler32`.
-/

namespace DrawLang.Image

/-- One division step of the cyclic redundancy check, lowest bit first. -/
def crcBit (crc : UInt32) : UInt32 :=
  if crc &&& 1 = 1 then (crc >>> 1) ^^^ 0xEDB88320 else crc >>> 1

def crcByte (crc : UInt32) (byte : UInt8) : UInt32 := Nat.repeat crcBit 8 (crc ^^^ byte.toUInt32)

def crc32 (bytes : List UInt8) : UInt32 := bytes.foldl crcByte 0xFFFFFFFF ^^^ 0xFFFFFFFF

/-- The two running sums of bytes, the second in the high half. -/
def adler32 (bytes : List UInt8) : UInt32 :=
  let (a, b) := bytes.foldl (fun (a, b) byte =>
    let a := (a + byte.toUInt32) % 65521
    (a, (b + a) % 65521)) ((1, 0) : UInt32 × UInt32)
  b * 65536 + a

end DrawLang.Image
