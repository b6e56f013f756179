import DrawLang.Token

/-!
# Letters of the library

The library draws the upper-case letters. A letter is a list of strokes in a cell 6 wide and 10 high,
given by the offsets of their ends from the lower left corner of the cell. For every letter there is
a command that takes the corner and draws the strokes.

* `glyphs`: the strokes of all letters.
* `lettersText`: the source text of their commands.
* `glyphs_in_cell`: all strokes stay inside the cell.
-/

namespace DrawLang.Library

/-- A straight line between two offsets. -/
structure Stroke where
  x₁ : Nat
  y₁ : Nat
  x₂ : Nat
  y₂ : Nat
  deriving DecidableEq, Repr

structure Glyph where
  letter : Char
  strokes : List Stroke
  deriving DecidableEq, Repr

def glyphs : List Glyph :=
  [⟨'A', [⟨0, 0, 0, 6⟩, ⟨0, 6, 2, 8⟩, ⟨2, 8, 4, 6⟩, ⟨4, 6, 4, 0⟩, ⟨0, 4, 4, 4⟩]⟩,
   ⟨'B', [⟨0, 0, 0, 8⟩, ⟨0, 8, 3, 8⟩, ⟨3, 8, 4, 7⟩, ⟨4, 7, 4, 5⟩, ⟨4, 5, 3, 4⟩, ⟨0, 4, 3, 4⟩,
     ⟨3, 4, 4, 3⟩, ⟨4, 3, 4, 1⟩, ⟨4, 1, 3, 0⟩, ⟨3, 0, 0, 0⟩]⟩,
   ⟨'C', [⟨4, 8, 1, 8⟩, ⟨1, 8, 0, 7⟩, ⟨0, 7, 0, 1⟩, ⟨0, 1, 1, 0⟩, ⟨1, 0, 4, 0⟩]⟩,
   ⟨'D', [⟨0, 0, 0, 8⟩, ⟨0, 8, 2, 8⟩, ⟨2, 8, 4, 6⟩, ⟨4, 6, 4, 2⟩, ⟨4, 2, 2, 0⟩, ⟨2, 0, 0, 0⟩]⟩,
   ⟨'E', [⟨0, 0, 0, 8⟩, ⟨0, 8, 4, 8⟩, ⟨0, 4, 3, 4⟩, ⟨0, 0, 4, 0⟩]⟩,
   ⟨'F', [⟨0, 0, 0, 8⟩, ⟨0, 8, 4, 8⟩, ⟨0, 4, 3, 4⟩]⟩,
   ⟨'G', [⟨4, 8, 1, 8⟩, ⟨1, 8, 0, 7⟩, ⟨0, 7, 0, 1⟩, ⟨0, 1, 1, 0⟩, ⟨1, 0, 4, 0⟩, ⟨4, 0, 4, 4⟩,
     ⟨4, 4, 2, 4⟩]⟩,
   ⟨'H', [⟨0, 0, 0, 8⟩, ⟨4, 0, 4, 8⟩, ⟨0, 4, 4, 4⟩]⟩,
   ⟨'I', [⟨0, 8, 4, 8⟩, ⟨2, 8, 2, 0⟩, ⟨0, 0, 4, 0⟩]⟩,
   ⟨'J', [⟨0, 8, 4, 8⟩, ⟨3, 8, 3, 1⟩, ⟨3, 1, 2, 0⟩, ⟨2, 0, 1, 0⟩, ⟨1, 0, 0, 1⟩]⟩,
   ⟨'K', [⟨0, 0, 0, 8⟩, ⟨0, 4, 4, 8⟩, ⟨0, 4, 4, 0⟩]⟩,
   ⟨'L', [⟨0, 8, 0, 0⟩, ⟨0, 0, 4, 0⟩]⟩,
   ⟨'M', [⟨0, 0, 0, 8⟩, ⟨0, 8, 2, 5⟩, ⟨2, 5, 4, 8⟩, ⟨4, 8, 4, 0⟩]⟩,
   ⟨'N', [⟨0, 0, 0, 8⟩, ⟨0, 8, 4, 0⟩, ⟨4, 0, 4, 8⟩]⟩,
   ⟨'O', [⟨1, 0, 3, 0⟩, ⟨3, 0, 4, 1⟩, ⟨4, 1, 4, 7⟩, ⟨4, 7, 3, 8⟩, ⟨3, 8, 1, 8⟩, ⟨1, 8, 0, 7⟩,
     ⟨0, 7, 0, 1⟩, ⟨0, 1, 1, 0⟩]⟩,
   ⟨'P', [⟨0, 0, 0, 8⟩, ⟨0, 8, 3, 8⟩, ⟨3, 8, 4, 7⟩, ⟨4, 7, 4, 5⟩, ⟨4, 5, 3, 4⟩, ⟨3, 4, 0, 4⟩]⟩,
   ⟨'Q', [⟨1, 0, 3, 0⟩, ⟨3, 0, 4, 1⟩, ⟨4, 1, 4, 7⟩, ⟨4, 7, 3, 8⟩, ⟨3, 8, 1, 8⟩, ⟨1, 8, 0, 7⟩,
     ⟨0, 7, 0, 1⟩, ⟨0, 1, 1, 0⟩, ⟨2, 2, 4, 0⟩]⟩,
   ⟨'R', [⟨0, 0, 0, 8⟩, ⟨0, 8, 3, 8⟩, ⟨3, 8, 4, 7⟩, ⟨4, 7, 4, 5⟩, ⟨4, 5, 3, 4⟩, ⟨3, 4, 0, 4⟩,
     ⟨2, 4, 4, 0⟩]⟩,
   ⟨'S', [⟨4, 8, 1, 8⟩, ⟨1, 8, 0, 7⟩, ⟨0, 7, 0, 5⟩, ⟨0, 5, 1, 4⟩, ⟨1, 4, 3, 4⟩, ⟨3, 4, 4, 3⟩,
     ⟨4, 3, 4, 1⟩, ⟨4, 1, 3, 0⟩, ⟨3, 0, 0, 0⟩]⟩,
   ⟨'T', [⟨0, 8, 4, 8⟩, ⟨2, 8, 2, 0⟩]⟩,
   ⟨'U', [⟨0, 8, 0, 1⟩, ⟨0, 1, 1, 0⟩, ⟨1, 0, 3, 0⟩, ⟨3, 0, 4, 1⟩, ⟨4, 1, 4, 8⟩]⟩,
   ⟨'V', [⟨0, 8, 2, 0⟩, ⟨2, 0, 4, 8⟩]⟩,
   ⟨'W', [⟨0, 8, 0, 0⟩, ⟨0, 0, 2, 3⟩, ⟨2, 3, 4, 0⟩, ⟨4, 0, 4, 8⟩]⟩,
   ⟨'X', [⟨0, 0, 4, 8⟩, ⟨0, 8, 4, 0⟩]⟩,
   ⟨'Y', [⟨0, 8, 2, 4⟩, ⟨4, 8, 2, 4⟩, ⟨2, 4, 2, 0⟩]⟩,
   ⟨'Z', [⟨0, 8, 4, 8⟩, ⟨4, 8, 0, 0⟩, ⟨0, 0, 4, 0⟩]⟩]

/-! ## The source text -/

/-- A coordinate of the corner moved by an offset of one digit, as an expression. -/
def offsetText (corner : Char) (offset : Nat) : List Char :=
  if offset = 0 then [corner] else ['(', corner, ' ', '+', ' ', offset.digitChar, ')']

def Stroke.text (s : Stroke) : List Char :=
  [' ', ' '] ++ Keyword.line.letters ++
    [' '] ++ offsetText 'X' s.x₁ ++ [' '] ++ offsetText 'Y' s.y₁ ++
    [' '] ++ offsetText 'X' s.x₂ ++ [' '] ++ offsetText 'Y' s.y₂ ++ ['\n']

def Glyph.command (g : Glyph) : List Char := ['l', 'e', 't', 't', 'e', 'r', g.letter]

def Glyph.text (g : Glyph) : List Char :=
  Keyword.command.letters ++ [' '] ++ g.command ++ [' ', 'X', ' ', 'Y', ' ', '\x7b', '\n'] ++
    g.strokes.flatMap Stroke.text ++ ['\x7d', '\n']

def lettersHead : String :=
  "// Upper-case letters. `letterA X Y` draws an A with the current pen,\n" ++
  "// lower-left corner at (X, Y), inside a 6 by 10 cell.\n"

def lettersText : String :=
  String.ofList (lettersHead.toList ++ glyphs.flatMap fun g => '\n' :: g.text)

/-- Every stroke stays inside the cell. -/
theorem glyphs_in_cell :
    ∀ g ∈ glyphs, ∀ s ∈ g.strokes, s.x₁ ≤ 5 ∧ s.x₂ ≤ 5 ∧ s.y₁ ≤ 9 ∧ s.y₂ ≤ 9 := by
  decide

end DrawLang.Library
