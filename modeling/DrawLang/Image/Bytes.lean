/-!
# Bytes of image files

Image files are read from front to back: what comes next is a fixed mark, or a number that says how
much follows. A reader takes what it needs from the bytes that are left, and fails where they are
not what it needs.

* `bigEndian`, `littleEndian`: numbers as bytes.
* `ByteReader`: what can be read; `take`, `expect`, `big`, `little` are the elementary readers.
-/

namespace DrawLang.Image

/-- A number in two bytes, the low one first. -/
def littleEndian (n : Nat) : List UInt8 := [UInt8.ofNat n, UInt8.ofNat (n / 256)]

/-- A number in four bytes, the high one first. -/
def bigEndian (n : Nat) : List UInt8 :=
  [UInt8.ofNat (n / 16777216), UInt8.ofNat (n / 65536), UInt8.ofNat (n / 256), UInt8.ofNat n]

abbrev ByteReader := StateT (List UInt8) Option

namespace ByteReader

def take (n : Nat) : ByteReader (List UInt8) := fun bytes =>
  if n ≤ bytes.length then some (bytes.take n, bytes.drop n) else none

def expect (mark : List UInt8) : ByteReader Unit := fun bytes =>
  if bytes.take mark.length = mark then some ((), bytes.drop mark.length) else none

def byte : ByteReader UInt8
  | [] => none
  | b :: rest => some (b, rest)

def little : ByteReader Nat := do
  let low ← byte
  let high ← byte
  return low.toNat + 256 * high.toNat

def big : ByteReader Nat := do
  let a ← byte
  let b ← byte
  let c ← byte
  let d ← byte
  return ((a.toNat * 256 + b.toNat) * 256 + c.toNat) * 256 + d.toNat

def times {α : Type} (read : ByteReader α) : Nat → ByteReader (List α)
  | 0 => return []
  | n + 1 => do
    let x ← read
    let xs ← times read n
    return x :: xs

def all? {α : Type} (read : ByteReader α) (bytes : List UInt8) : Option α :=
  match read bytes with
  | some (a, []) => some a
  | _ => none

end ByteReader

end DrawLang.Image
