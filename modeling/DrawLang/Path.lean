/-!
# Paths

A path is a text whose parts stand between slashes. Paths written in programs are cleaned and then
taken relative to a base, whatever slashes they begin with.

* `Path.parts`: the texts between the slashes.
* `Path.clean`: without empty parts and without parts that say "here".
* `Path.join`: a relative path under a base.
* `Path.parent`: the directory that a path lies in.
-/

namespace DrawLang.Path

/-- The runs of characters between slashes; one more than there are slashes. -/
def splitSlashes : List Char → List (List Char)
  | [] => [[]]
  | c :: cs =>
    if c = '/' then [] :: splitSlashes cs
    else match splitSlashes cs with
      | [] => [[c]]
      | part :: parts => (c :: part) :: parts

/-- The parts of a path, empty ones included. -/
def parts (path : String) : List String := (splitSlashes path.toList).map String.ofList

def ofParts (parts : List String) : String := "/".intercalate parts

/-- Whether a part leads somewhere: it is neither empty nor the dot that says "here". -/
def moves (part : String) : Bool := part != "" && part != "."

/-- The parts that a path written in a program keeps: those that lead somewhere, and a dot at the
very front. What leads to a parent directory stays. -/
def cleanParts (path : String) : List String :=
  match parts path with
  | [] => []
  | first :: rest =>
    if first = "." then first :: rest.filter moves else (first :: rest).filter moves

/-- The relative path that a path written in a program stands for. -/
def clean (path : String) : String := ofParts (cleanParts path)

/-- A relative path under a base. A slash goes between them unless the base is empty or ends with
one. -/
def join (base relative : String) : String :=
  if base.isEmpty ∨ base.toList.getLast? = some '/' then base ++ relative
  else base ++ "/" ++ relative

/-- Without the parts at the end that lead nowhere; the first part always stays. -/
def trim : List String → List String
  | [] => []
  | first :: rest => first :: (rest.reverse.dropWhile fun part => !moves part).reverse

/-- The directory that a path lies in: the path without its last part, and empty when nothing is
left. -/
def parent (path : String) : String :=
  match trim (parts path) with
  | [] | [_] => ""
  | kept => match trim kept.dropLast with
    | [""] => "/"
    | above => ofParts above

/-! ## Laws -/

theorem splitSlashes_ne_nil (cs : List Char) : splitSlashes cs ≠ [] := by
  induction cs with
  | nil => simp [splitSlashes]
  | cons c cs ih =>
    unfold splitSlashes
    split
    · simp
    · split <;> simp

/-- No part holds a slash. -/
theorem slash_notMem_splitSlashes (cs : List Char) :
    ∀ part ∈ splitSlashes cs, '/' ∉ part := by
  induction cs with
  | nil => simp [splitSlashes]
  | cons c cs ih =>
    unfold splitSlashes
    split
    · simpa using ih
    · rename_i h
      have h' : ¬ '/' = c := fun e => h e.symm
      split <;> simp_all

end DrawLang.Path
