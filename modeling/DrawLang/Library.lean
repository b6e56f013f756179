import DrawLang.Library.Letters

/-!
# The library

Sources that are run into the root frame before a program. The standard library has commands for the
letters, helpers that compute numbers, and commands for simple shapes.

* `Library.standard`, `Library.none`.
* `Library.graphicsText`: the source text of helpers and shapes.
-/

namespace DrawLang

structure LibrarySource where
  name : String
  text : String
  deriving DecidableEq, Repr

abbrev Library := List LibrarySource

namespace Library

def graphicsLines : List String :=
  ["// Number helpers and simple shapes.",
   "",
   "Number Max A B \x7b",
   "  Smaller? A B \x7b Value B \x7d",
   "  Value A",
   "\x7d",
   "",
   "Number Min A B \x7b",
   "  Smaller? A B \x7b Value A \x7d",
   "  Value B",
   "\x7d",
   "",
   "Number Abs A \x7b",
   "  Smaller? A 0 \x7b Value (0 - A) \x7d",
   "  Value A",
   "\x7d",
   "",
   "Number Clamp V L H \x7b",
   "  Smaller? V L \x7b Value L \x7d",
   "  Smaller? H V \x7b Value H \x7d",
   "  Value V",
   "\x7d",
   "",
   "Command Rect L B R T \x7b",
   "  Line L B R B",
   "  Line R B R T",
   "  Line R T L T",
   "  Line L T L B",
   "\x7d",
   "",
   "Command FillRect L B R T \x7b",
   "  Set Lo <Min B T>",
   "  Set Hi <Max B T>",
   "  Repeat Row Lo Hi \x7b",
   "    Line L Row R Row",
   "  \x7d",
   "\x7d",
   "",
   "Command Square X Y S \x7b",
   "  Rect X Y (X + S) (Y + S)",
   "\x7d",
   "",
   "Command Cross X Y S \x7b",
   "  Line (X - S) Y (X + S) Y",
   "  Line X (Y - S) X (Y + S)",
   "\x7d"]

def graphicsText : String :=
  String.ofList (graphicsLines.flatMap fun line => line.toList ++ ['\n'])

/-- Letters, helpers and shapes. -/
def standard : Library := [⟨"letters.dbn", lettersText⟩, ⟨"graphics.dbn", graphicsText⟩]

def none : Library := []

end Library

end DrawLang
