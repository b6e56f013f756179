import DrawLang.Position

/-!
# Faults

A run never stops at a fault; it lists what went wrong, in order. A fault has a code, a text, and,
except for a text that could not be read, the position it points at.

* `Fault.code`, `Fault.position?`, `Fault.message`.
-/

namespace DrawLang

inductive Fault where
  /-- A token fits nothing. -/
  | misplacedToken (place : Position)
  /-- A name stands for no number. -/
  | unknownName (place : Position) (name : String)
  /-- A name stands for no command. -/
  | unknownCommand (place : Position) (name : String)
  /-- A call names no number definition. -/
  | unknownNumber (place : Position) (name : String)
  | divisionByZero (place : Position)
  /-- A source to load cannot be had. -/
  | unavailable (place : Position) (reason : String)
  /-- The text of the program itself cannot be read. -/
  | unreadable (name : String) (reason : String)
  deriving DecidableEq, Repr

namespace Fault

/-- The code of a fault: P for programs that cannot be parsed, E for faults of evaluation, I for
input that cannot be had. -/
def code : Fault → String
  | misplacedToken _ => "P001"
  | unknownName _ _ => "E001"
  | unknownCommand _ _ => "E002"
  | unknownNumber _ _ => "E003"
  | divisionByZero _ => "E004"
  | unavailable _ _ => "I001"
  | unreadable _ _ => "I002"

def position? : Fault → Option Position
  | misplacedToken place | unknownName place _ | unknownCommand place _ | unknownNumber place _
  | divisionByZero place | unavailable place _ => some place
  | unreadable _ _ => none

def message : Fault → String
  | misplacedToken place => place.render ++ ": syntax error"
  | unknownName place name => place.render ++ ": Identifier not found: " ++ name
  | unknownCommand place name => place.render ++ ": Command not found: " ++ name
  | unknownNumber place name => place.render ++ ": Number not found: " ++ name
  | divisionByZero place => place.render ++ ": Division by zero"
  | unavailable place reason => place.render ++ ": " ++ reason
  | unreadable name reason => name ++ ": " ++ reason

end Fault

end DrawLang
