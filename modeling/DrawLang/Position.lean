/-!
# Positions

A position is a line and a column in a text of known name. Both count from 1, columns in
characters. Reading a text moves the position on, one character at a time.

* `Position.file_advance`: reading never leaves the text.
-/

namespace DrawLang

structure Position where
  file : String
  line : Nat
  column : Nat
  deriving DecidableEq, Repr, Inhabited

namespace Position

def start (file : String) : Position := ⟨file, 1, 1⟩

/-- Just past the character `c`: a line feed opens a new line, any other character a new column. -/
def next (p : Position) (c : Char) : Position :=
  if c = '\n' then ⟨p.file, p.line + 1, 1⟩ else ⟨p.file, p.line, p.column + 1⟩

def advance (p : Position) (cs : List Char) : Position := cs.foldl next p

/-- The position as faults show it; a text without a name is `<input>`. -/
def render (p : Position) : String :=
  (if p.file.isEmpty then "<input>" else p.file) ++ ":" ++ toString p.line ++ ":" ++
    toString p.column

@[simp] theorem advance_nil (p : Position) : p.advance [] = p := rfl

@[simp] theorem advance_cons (p : Position) (c : Char) (cs : List Char) :
    p.advance (c :: cs) = (p.next c).advance cs := rfl

@[simp] theorem file_next (p : Position) (c : Char) : (p.next c).file = p.file := by
  unfold next
  split <;> rfl

@[simp] theorem file_advance (p : Position) (cs : List Char) : (p.advance cs).file = p.file := by
  induction cs generalizing p with
  | nil => rfl
  | cons c cs ih => rw [advance_cons, ih, file_next]

end Position

end DrawLang
