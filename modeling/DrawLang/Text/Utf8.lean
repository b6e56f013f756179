/-!
# Reading bytes as text

Source texts arrive as bytes and are read as UTF-8. Bytes that form no character never stop the
reading: every maximal part that could still have begun a character, and every single byte that
cannot begin one, is read as the replacement character U+FFFD.

The reader takes one byte at a time. Between two bytes it is either between characters or inside
one (`Partial`), and then it knows how many bytes are still owed and where the next one must lie.

* `decode`: the text of a list of bytes.
-/

namespace DrawLang.Text

structure Partial where
  bits : Nat
  owed : Nat
  least : UInt8
  greatest : UInt8

/-- Stands for bytes that form no character. -/
def replacement : Char := '\uFFFD'

/-- Takes a byte between characters. The ranges of the second byte keep out overlong forms,
surrogates and code points past U+10FFFF. -/
def leadByte (b : UInt8) : List Char × Option Partial :=
  if b < 0x80 then ([Char.ofNat b.toNat], none)
  else if b < 0xC2 then ([replacement], none)
  else if b < 0xE0 then ([], some ⟨b.toNat - 0xC0, 0, 0x80, 0xBF⟩)
  else if b = 0xE0 then ([], some ⟨0, 1, 0xA0, 0xBF⟩)
  else if b = 0xED then ([], some ⟨0xD, 1, 0x80, 0x9F⟩)
  else if b < 0xF0 then ([], some ⟨b.toNat - 0xE0, 1, 0x80, 0xBF⟩)
  else if b = 0xF0 then ([], some ⟨0, 2, 0x90, 0xBF⟩)
  else if b < 0xF4 then ([], some ⟨b.toNat - 0xF0, 2, 0x80, 0xBF⟩)
  else if b = 0xF4 then ([], some ⟨4, 2, 0x80, 0x8F⟩)
  else ([replacement], none)

/-- Takes one byte: the characters it completes or spoils, and the character it leaves open. A byte
that cannot go on with the open character spoils it and is taken anew. -/
def takeByte : Option Partial → UInt8 → List Char × Option Partial
  | none, b => leadByte b
  | some part, b =>
    if part.least ≤ b ∧ b ≤ part.greatest then
      let bits := 64 * part.bits + (b.toNat - 0x80)
      match part.owed with
      | 0 => ([Char.ofNat bits], none)
      | owed + 1 => ([], some ⟨bits, owed, 0x80, 0xBF⟩)
    else
      (replacement :: (leadByte b).1, (leadByte b).2)

/-- Takes the bytes that follow an open character, if any. -/
def decodeFrom : Option Partial → List UInt8 → List Char
  | none, [] => []
  | some _, [] => [replacement]
  | part, b :: bytes =>
    let (chars, next) := takeByte part b
    chars ++ decodeFrom next bytes

/-- The text that bytes stand for, with U+FFFD for every part that is no character. -/
def decode (bytes : List UInt8) : String :=
  String.ofList (decodeFrom none bytes)

/-! ## Laws -/

end DrawLang.Text
