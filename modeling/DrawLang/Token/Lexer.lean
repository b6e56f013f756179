import DrawLang.Text.Letter
import DrawLang.Token

/-!
# Reading tokens

A text is a row of gaps and lexemes in turn. A gap is made of blanks and comments and is dropped; a
lexeme is the longest run of characters that makes one token, and becomes that token.

* `splitGap`: the gap at the front of a text.
* `Lexeme.split`: the lexeme that a character begins.
* `tokenize`: all tokens of a text, closed by `finish`.
* `splitGap_append`, `Lexeme.split_append`: no character is lost.
-/

namespace DrawLang

def pushFront (c : Char) (parts : List Char × List Char) : List Char × List Char :=
  (c :: parts.1, parts.2)

/-! ## Gaps -/

/-- Where reading stands within a gap: between comments, in a comment that ends with its line, or in
a comment that ends with a mark. -/
inductive GapState where
  | between | lineComment | blockComment

def isBlank (c : Char) : Bool := c == ' ' || c == '\t' || c == '\r'

/-- Divides a text into the gap at its front and what follows. A line feed is no blank and ends a
line comment without being part of it; a block comment may stay open to the end of the text. -/
def splitGap : GapState → List Char → List Char × List Char
  | _, [] => ([], [])
  | .between, '/' :: '/' :: cs => pushFront '/' (pushFront '/' (splitGap .lineComment cs))
  | .between, '/' :: '*' :: cs => pushFront '/' (pushFront '*' (splitGap .blockComment cs))
  | .between, c :: cs => if isBlank c then pushFront c (splitGap .between cs) else ([], c :: cs)
  | .lineComment, c :: cs =>
    if c = '\n' then ([], c :: cs) else pushFront c (splitGap .lineComment cs)
  | .blockComment, '*' :: '/' :: cs => pushFront '*' (pushFront '/' (splitGap .between cs))
  | .blockComment, c :: cs => pushFront c (splitGap .blockComment cs)

/-! ## Lexemes -/

/-- A run of characters that makes one token: its kind, the text of the token, and the characters. -/
structure Lexeme where
  kind : Kind
  text : List Char
  chars : List Char

/-- Divides what follows an opening quote into the quoted characters and the rest, which begins with
the closing quote unless the line or the text ends first. A backslash takes the next character of
the line with it. -/
def splitQuoted : List Char → List Char × List Char
  | [] => ([], [])
  | '\\' :: c :: cs =>
    if c = '\n' then (['\\'], c :: cs) else pushFront '\\' (pushFront c (splitQuoted cs))
  | c :: cs => if c = '"' ∨ c = '\n' then ([], c :: cs) else pushFront c (splitQuoted cs)

namespace Lexeme

/-- The lexeme of a single character that stands for itself. -/
def single (kind : Kind) (c : Char) : Lexeme := ⟨kind, [c], [c]⟩

def isWordChar (c : Char) : Bool := Text.isLetterOrNumeral c || c == '_'

/-- The lexeme of a whole word, and what follows it. A word of a relation is reserved only when a
question mark follows at once. -/
def ofWord (word rest : List Char) : Lexeme × List Char :=
  match Keyword.ofLetters? word with
  | some k => (⟨.keyword k, word, word⟩, rest)
  | none =>
    match Relation.ofLetters? word, rest with
    | some r, '?' :: rest => (⟨.keyword (.test r), word ++ ['?'], word ++ ['?']⟩, rest)
    | _, _ => (⟨.name, word, word⟩, rest)

/-- The lexeme of a quoted text, after its opening quote. -/
def ofQuoted (inner rest : List Char) : Lexeme × List Char :=
  match rest with
  | '"' :: rest => (⟨.quoted, inner, '"' :: inner ++ ['"']⟩, rest)
  | _ => (⟨.illegal, '"' :: inner, '"' :: inner⟩, rest)

/-- The lexeme that begins with `c`, and what follows it. -/
def split (c : Char) (cs : List Char) : Lexeme × List Char :=
  if c = '\n' then (single .newline c, cs)
  else match Mark.ofChar? c with
    | some m => (single (.mark m) c, cs)
    | none =>
      if c = '"' then ofQuoted (splitQuoted cs).1 (splitQuoted cs).2
      else if c.isDigit then
        let digits := c :: cs.takeWhile Char.isDigit
        (⟨.integer, digits, digits⟩, cs.dropWhile Char.isDigit)
      else if Text.isLetter c || c == '_' then
        ofWord (c :: cs.takeWhile isWordChar) (cs.dropWhile isWordChar)
      else (single .illegal c, cs)

end Lexeme

/-! ## Tokens of a text -/

/-- The tokens of what is left of a text from position `p` on, at most `n` of them. -/
def tokensFrom : Nat → Position → List Char → List Token
  | 0, _, _ => []
  | n + 1, p, cs =>
    let (gap, rest) := splitGap .between cs
    let start := p.advance gap
    match rest with
    | [] => [⟨.finish, "", start, start⟩]
    | c :: rest =>
      let (lexeme, rest) := Lexeme.split c rest
      let stop := start.advance lexeme.chars
      ⟨lexeme.kind, String.ofList lexeme.text, start, stop⟩ :: tokensFrom n stop rest

/-- The tokens of a text, in order; the last one, and only that, is `finish`. -/
def tokenize (name source : String) : List Token :=
  let cs := source.toList
  tokensFrom (cs.length + 1) (.start name) cs

/-! ## No character is lost -/

theorem splitGap_append (state : GapState) (cs : List Char) :
    (splitGap state cs).1 ++ (splitGap state cs).2 = cs := by
  fun_induction splitGap state cs <;> simp_all [pushFront]

theorem splitQuoted_append (cs : List Char) :
    (splitQuoted cs).1 ++ (splitQuoted cs).2 = cs := by
  fun_induction splitQuoted cs <;> simp_all [pushFront]

namespace Lexeme

theorem ofWord_append (word rest : List Char) :
    (ofWord word rest).1.chars ++ (ofWord word rest).2 = word ++ rest := by
  unfold ofWord
  split
  · rfl
  · split <;> simp

theorem ofQuoted_append (inner rest : List Char) :
    (ofQuoted inner rest).1.chars ++ (ofQuoted inner rest).2 = '"' :: (inner ++ rest) := by
  unfold ofQuoted
  split <;> simp

theorem split_append (c : Char) (cs : List Char) :
    (split c cs).1.chars ++ (split c cs).2 = c :: cs := by
  unfold split
  split
  · rfl
  · split
    · rfl
    · split
      · rename_i h
        rw [ofQuoted_append, splitQuoted_append, h]
      · split
        · simp
        · split
          · rw [ofWord_append]
            simp
          · rfl

end Lexeme

end DrawLang
