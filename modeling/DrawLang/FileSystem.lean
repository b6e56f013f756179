import DrawLang.Source

/-!
# File systems

What a program asks of the system that keeps the files: a file is made empty, bytes are put behind
those that it has, and it is closed. Each of these can fail, and may have done something to the
files before it did. What has not got into a file when it is closed may be lost, of which the program
is told nothing but that it happened.

* `Files`: how files are written, in any monad.
* `FileSystem`: how that changes the states of a system, and what can be read in each of them.
-/

namespace DrawLang

/-- How files are written. -/
structure Files (m : Type → Type) where
  /-- Makes a file at a path, or empties the one that is there. -/
  create : String → m (Except FileError Unit)
  /-- Puts bytes behind those of the file that was made at a path. -/
  append : String → List UInt8 → m (Except FileError Unit)
  /-- Closes the file, and tells whether all bytes have got into it. -/
  close : String → m Bool

/-- A system with states of type `σ` that keeps files, which are told apart by their identities. A
path may be that of a file in some states and of none in others, and several paths may be those of
one file. -/
structure FileSystem (σ ι : Type) extends Files (StateM σ) where
  /-- What comes of opening the file at a path and reading it to its end. -/
  read : σ → String → Delivery
  /-- The file at a path. -/
  file? : σ → String → Option ι

end DrawLang
