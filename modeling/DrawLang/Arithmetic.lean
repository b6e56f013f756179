/-!
# Arithmetic on numbers

Numbers of the language are 64-bit words with a sign. This module holds the four operators and the
four relations, how they are written, and what they compute.

* `Operator.apply`: wraps around at the ends; division drops the fraction.
* `Relation.holds`: the comparisons behind `Same?` and its kin.
* `Operator.apply_eq_none_iff`: only a division by zero has no result.
-/

namespace DrawLang

/-! ## Operators -/

inductive Operator where
  | add | sub | mul | div
  deriving DecidableEq, Repr

namespace Operator

def symbol : Operator → String
  | add => "+"
  | sub => "-"
  | mul => "*"
  | div => "/"

/-- The result of an operator, if it has one. The word past the largest is the smallest. -/
def apply : Operator → Int64 → Int64 → Option Int64
  | add, a, b => some (a + b)
  | sub, a, b => some (a - b)
  | mul, a, b => some (a * b)
  | div, a, b => if b = 0 then none else some (a / b)

theorem apply_eq_none_iff (op : Operator) (a b : Int64) :
    op.apply a b = none ↔ op = div ∧ b = 0 := by
  cases op <;> simp [apply]

end Operator

/-! ## Relations -/

inductive Relation where
  | same | notSame | smaller | notSmaller
  deriving DecidableEq, Repr

namespace Relation

def all : List Relation := [same, notSame, smaller, notSmaller]

/-- The letters of the word of a relation, without its question mark. -/
def stem : Relation → List Char
  | same => ['S', 'a', 'm', 'e']
  | notSame => ['N', 'o', 't', 'S', 'a', 'm', 'e']
  | smaller => ['S', 'm', 'a', 'l', 'l', 'e', 'r']
  | notSmaller => ['N', 'o', 't', 'S', 'm', 'a', 'l', 'l', 'e', 'r']

def spelling (r : Relation) : String := String.ofList (r.stem ++ ['?'])

def holds : Relation → Int64 → Int64 → Bool
  | same, a, b => decide (a = b)
  | notSame, a, b => decide (a ≠ b)
  | smaller, a, b => decide (a < b)
  | notSmaller, a, b => decide (b ≤ a)

theorem mem_all (r : Relation) : r ∈ all := by cases r <;> decide

end Relation

/-! ## Numerals -/

/-- The number that a run of decimal digits denotes. -/
def decimal (digits : List Char) : Nat :=
  digits.foldl (fun n c => 10 * n + (c.toNat - '0'.toNat)) 0

/-- The word that a run of decimal digits denotes; numbers past the largest word read as 0. -/
def literalValue (digits : String) : Int64 :=
  let n := decimal digits.toList
  if (n : Int) ≤ Int64.maxValue.toInt then Int64.ofNat n else 0

end DrawLang
