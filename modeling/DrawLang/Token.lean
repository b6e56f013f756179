import DrawLang.Arithmetic
import DrawLang.Position

/-!
# Tokens

A program is read as a list of tokens: words, numerals, quoted texts, marks and line ends. A token
knows its kind, its text, and the positions where it starts and where it has ended.

* `Keyword.ofLetters?` and `Relation.ofLetters?`: reserved words, in any mixture of cases.
* `Mark.ofChar?_char`: a mark is read back from the character that writes it.
-/

namespace DrawLang

/-! ## Reserved words -/

/-- Whether two words agree when the case of ASCII letters does not count. -/
def agreeIgnoringCase (a b : List Char) : Bool := a.map Char.toLower == b.map Char.toLower

inductive Keyword where
  | paper | pen | line | set | loop | command | number | value | load
  | test (relation : Relation)
  deriving DecidableEq, Repr

namespace Keyword

/-- The reserved words that stand without a question mark. -/
def plain : List Keyword := [paper, pen, line, set, loop, command, number, value, load]

/-- The letters of a reserved word, with the question mark if it has one. -/
def letters : Keyword → List Char
  | paper => ['P', 'a', 'p', 'e', 'r']
  | pen => ['P', 'e', 'n']
  | line => ['L', 'i', 'n', 'e']
  | set => ['S', 'e', 't']
  | loop => ['R', 'e', 'p', 'e', 'a', 't']
  | command => ['C', 'o', 'm', 'm', 'a', 'n', 'd']
  | number => ['N', 'u', 'm', 'b', 'e', 'r']
  | value => ['V', 'a', 'l', 'u', 'e']
  | load => ['L', 'o', 'a', 'd']
  | test relation => relation.stem ++ ['?']

/-- How a reserved word is written in canonical text. -/
def spelling (k : Keyword) : String := String.ofList k.letters

def ofLetters? (word : List Char) : Option Keyword :=
  plain.find? fun k => agreeIgnoringCase k.letters word

def ofWord? (word : String) : Option Keyword := ofLetters? word.toList

theorem ofLetters?_letters {k : Keyword} (h : k ∈ plain) : ofLetters? k.letters = some k := by
  revert k
  decide

end Keyword

def Relation.ofLetters? (word : List Char) : Option Relation :=
  all.find? fun r => agreeIgnoringCase r.stem word

theorem Relation.ofLetters?_stem (r : Relation) : ofLetters? r.stem = some r := by
  cases r <;> decide

/-! ## Marks -/

inductive Mark where
  | openBrace | closeBrace | openParen | closeParen | openBracket | closeBracket
  | openAngle | closeAngle | plus | minus | star | slash
  deriving DecidableEq, Repr

namespace Mark

def char : Mark → Char
  | openBrace => '\x7b'
  | closeBrace => '\x7d'
  | openParen => '('
  | closeParen => ')'
  | openBracket => '['
  | closeBracket => ']'
  | openAngle => '<'
  | closeAngle => '>'
  | plus => '+'
  | minus => '-'
  | star => '*'
  | slash => '/'

def all : List Mark :=
  [openBrace, closeBrace, openParen, closeParen, openBracket, closeBracket,
   openAngle, closeAngle, plus, minus, star, slash]

def ofChar? (c : Char) : Option Mark := all.find? fun m => m.char == c

@[simp] theorem ofChar?_char (m : Mark) : ofChar? m.char = some m := by cases m <;> decide

theorem char_of_ofChar? {c : Char} {m : Mark} (h : ofChar? c = some m) : m.char = c := by
  simpa using List.find?_some h

end Mark

/-! ## Tokens -/

/-- The kinds of token. `illegal` is a character without a use, or a quoted text that is not closed;
`finish` stands once, at the end of the text. -/
inductive Kind where
  | integer | quoted | name
  | keyword (word : Keyword)
  | mark (mark : Mark)
  | newline | illegal | finish
  deriving DecidableEq, Repr

namespace Kind

def startsExpr : Kind → Bool
  | integer | name | mark .openParen | mark .openAngle => true
  | _ => false

end Kind

/-- A token: its kind and text, where it starts, and the position just past it. The text of a quoted
token is what stands between the quotes. -/
structure Token where
  kind : Kind
  text : String
  start : Position
  stop : Position
  deriving DecidableEq, Repr

end DrawLang
