import DrawLang.Token.Lexer

/-!
# Reading a text lexeme by lexeme

Which tokens a text has, apart from their places, does not depend on where reading begins. So the
tokens of a text can be found from the front: a blank adds nothing, and a lexeme that what follows
cannot prolong adds its token.

* `shapesOf`: the kinds and texts of the tokens of a text.
* `shapesOf_blank`, `shapesOf_mark`, `shapesOf_numeral`, `shapesOf_name`, `shapesOf_keyword`,
  `shapesOf_quoted`: one rule for each kind of lexeme.
* `legible_of_mem_tokensFrom`: what the texts of numerals, names and quoted tokens look like.
-/

namespace DrawLang

/-- The kind and the text of a token, without its place. -/
def Token.shape (t : Token) : Kind × String := (t.kind, t.text)

def Lexeme.shape (l : Lexeme) : Kind × String := (l.kind, String.ofList l.text)

namespace Lexeme

theorem chars_ofWord_ne_nil {word : List Char} (h : word ≠ []) (rest : List Char) :
    (ofWord word rest).1.chars ≠ [] := by
  unfold ofWord
  split
  · exact h
  · split
    · exact List.append_ne_nil_of_left_ne_nil h _
    · exact h

theorem chars_split_ne_nil (c : Char) (cs : List Char) : (split c cs).1.chars ≠ [] := by
  unfold split
  split
  · exact List.cons_ne_nil _ _
  · split
    · exact List.cons_ne_nil _ _
    · split
      · unfold ofQuoted
        split <;> exact List.cons_ne_nil _ _
      · split
        · exact List.cons_ne_nil _ _
        · split
          · exact chars_ofWord_ne_nil (List.cons_ne_nil _ _) _
          · exact List.cons_ne_nil _ _

/-- Something is taken off with every lexeme. -/
theorem length_split_le (c : Char) (cs : List Char) : (split c cs).2.length ≤ cs.length := by
  have happend := congrArg List.length (split_append c cs)
  have hpos := List.length_pos_iff.2 (chars_split_ne_nil c cs)
  rw [List.length_append, List.length_cons] at happend
  omega

end Lexeme

/-! ## Tokens without places -/

section Steps

variable {n : Nat} {p : Position} {c : Char} {cs rest : List Char}

theorem tokensFrom_of_end (h : (splitGap .between cs).2 = []) :
    (tokensFrom (n + 1) p cs).map Token.shape = [(.finish, "")] := by
  simp only [tokensFrom, h]
  rfl

theorem tokensFrom_of_lexeme (h : (splitGap .between cs).2 = c :: rest) :
    ∃ q, (tokensFrom (n + 1) p cs).map Token.shape = (Lexeme.split c rest).1.shape ::
      (tokensFrom n q (Lexeme.split c rest).2).map Token.shape := by
  simp only [tokensFrom, h]
  exact ⟨_, rfl⟩

theorem length_splitGap_le (state : GapState) (cs : List Char) :
    (splitGap state cs).2.length ≤ cs.length := by
  have h := congrArg List.length (splitGap_append state cs)
  rw [List.length_append] at h
  omega

/-- Neither the place where reading begins nor the number of tokens allowed matters. -/
theorem map_shape_tokensFrom (n m : Nat) (p q : Position) (cs : List Char) (hn : cs.length < n)
    (hm : cs.length < m) :
    (tokensFrom n p cs).map Token.shape = (tokensFrom m q cs).map Token.shape := by
  induction n generalizing m p q cs with
  | zero => omega
  | succ n ih =>
    obtain _ | m := m
    · omega
    cases h : (splitGap .between cs).2 with
    | nil => rw [tokensFrom_of_end h, tokensFrom_of_end h]
    | cons c rest =>
      have hgap := length_splitGap_le .between cs
      have hsplit := Lexeme.length_split_le c rest
      rw [h, List.length_cons] at hgap
      obtain ⟨p', hp⟩ := tokensFrom_of_lexeme (n := n) (p := p) h
      obtain ⟨q', hq⟩ := tokensFrom_of_lexeme (n := m) (p := q) h
      rw [hp, hq, ih m p' q' _ (by omega) (by omega)]

def shapesOf (cs : List Char) : List (Kind × String) :=
  (tokensFrom (cs.length + 1) (.start "") cs).map Token.shape

theorem map_shape_tokenize (name source : String) :
    (tokenize name source).map Token.shape = shapesOf source.toList :=
  map_shape_tokensFrom _ _ _ _ _ (Nat.lt_succ_self _) (Nat.lt_succ_self _)

theorem shapesOf_nil : shapesOf [] = [(.finish, "")] := rfl

theorem shapesOf_of_lexeme (h : (splitGap .between cs).2 = c :: rest) :
    shapesOf cs = (Lexeme.split c rest).1.shape :: shapesOf (Lexeme.split c rest).2 := by
  have hgap := length_splitGap_le .between cs
  have hsplit := Lexeme.length_split_le c rest
  rw [h, List.length_cons] at hgap
  obtain ⟨q, hq⟩ := tokensFrom_of_lexeme (n := cs.length) (p := .start "") h
  rw [shapesOf, hq, map_shape_tokensFrom _ _ _ (.start "") _ (by omega) (Nat.lt_succ_self _)]
  rfl

/-- Only what follows the gap in front matters. -/
theorem shapesOf_congr {ds : List Char}
    (h : (splitGap .between cs).2 = (splitGap .between ds).2) : shapesOf cs = shapesOf ds := by
  cases hd : (splitGap .between ds).2 with
  | nil =>
    rw [hd] at h
    rw [shapesOf, shapesOf, tokensFrom_of_end h, tokensFrom_of_end hd]
  | cons c rest =>
    rw [hd] at h
    rw [shapesOf_of_lexeme h, shapesOf_of_lexeme hd]

end Steps

/-! ## Blanks, line ends and marks -/

section Singles

variable {c : Char} {cs : List Char}

/-- Between comments, a character that opens none is dropped if it is a blank, and ends the gap
otherwise. -/
theorem splitGap_between_cons (h : c = '/' → ∀ d ∈ cs.head?, d ≠ '/' ∧ d ≠ '*') :
    splitGap .between (c :: cs) =
      if isBlank c then pushFront c (splitGap .between cs) else ([], c :: cs) := by
  refine splitGap.eq_4 c cs ?_ ?_
  · rintro ds hc rfl
    exact (h hc '/' rfl).1 rfl
  · rintro ds hc rfl
    exact (h hc '*' rfl).2 rfl

theorem shapesOf_blank (h : isBlank c = true) (cs : List Char) :
    shapesOf (c :: cs) = shapesOf cs := by
  apply shapesOf_congr
  have hc : c ≠ '/' := by
    rintro rfl
    cases h
  rw [splitGap_between_cons fun e => absurd e hc, if_pos h]
  rfl

theorem shapesOf_cons (hc : isBlank c = false)
    (h : c = '/' → ∀ d ∈ cs.head?, d ≠ '/' ∧ d ≠ '*') :
    shapesOf (c :: cs) = (Lexeme.split c cs).1.shape :: shapesOf (Lexeme.split c cs).2 := by
  apply shapesOf_of_lexeme
  rw [splitGap_between_cons h, if_neg (by simp [hc])]

theorem shapesOf_newline (cs : List Char) :
    shapesOf ('\n' :: cs) = (.newline, "\n") :: shapesOf cs := by
  rw [shapesOf_cons rfl (by simp)]
  rfl

theorem shapesOf_mark (m : Mark) (h : m = .slash → ∀ d ∈ cs.head?, d ≠ '/' ∧ d ≠ '*') :
    shapesOf (m.char :: cs) = (.mark m, String.ofList [m.char]) :: shapesOf cs := by
  have hblank : isBlank m.char = false := by cases m <;> rfl
  have hslash : m.char = '/' → m = .slash := by cases m <;> decide
  have hline : m.char ≠ '\n' := by cases m <;> decide
  rw [shapesOf_cons hblank fun hm => h (hslash hm)]
  simp only [Lexeme.split, hline, if_false, Mark.ofChar?_char]
  rfl

end Singles

/-! ## Numerals -/

theorem ofChar?_eq_none {c : Char} (h : ∀ m : Mark, m.char ≠ c) : Mark.ofChar? c = none := by
  cases hm : Mark.ofChar? c with
  | none => rfl
  | some m => exact absurd (Mark.char_of_ofChar? hm) (h m)

/-- A run of characters ends where a character does not belong to it. -/
theorem takeWhile_dropWhile_append {p : Char → Bool} {run rest : List Char}
    (hrun : ∀ c ∈ run, p c = true) (hrest : ∀ c ∈ rest.head?, p c = false) :
    (run ++ rest).takeWhile p = run ∧ (run ++ rest).dropWhile p = rest := by
  rw [List.takeWhile_append_of_pos hrun, List.dropWhile_append_of_pos hrun]
  cases rest with
  | nil => simp
  | cons c rest => simp [hrest c rfl]

section Numerals

variable {d : Char} {ds rest : List Char}

/-- A digit is none of the characters that are no digits. -/
theorem ne_of_isDigit {c : Char} (hd : d.isDigit = true) (hc : c.isDigit = false) : d ≠ c := by
  rintro rfl
  rw [hc] at hd
  cases hd

theorem isBlank_of_isDigit (hd : d.isDigit = true) : isBlank d = false := by
  simp only [isBlank, Bool.or_eq_false_iff, beq_eq_false_iff_ne]
  exact ⟨⟨ne_of_isDigit hd rfl, ne_of_isDigit hd rfl⟩, ne_of_isDigit hd rfl⟩

theorem split_numeral (hd : d.isDigit = true) (hds : ∀ c ∈ ds, c.isDigit = true)
    (hrest : ∀ c ∈ rest.head?, c.isDigit = false) :
    Lexeme.split d (ds ++ rest) = (⟨.integer, d :: ds, d :: ds⟩, rest) := by
  have hline : d ≠ '\n' := ne_of_isDigit hd rfl
  have hquote : d ≠ '"' := ne_of_isDigit hd rfl
  have hmark : Mark.ofChar? d = none :=
    ofChar?_eq_none fun m => (ne_of_isDigit hd (by cases m <;> rfl)).symm
  obtain ⟨htake, hdrop⟩ := takeWhile_dropWhile_append hds hrest
  simp only [Lexeme.split, hline, hquote, hmark, hd, if_false, if_true, htake, hdrop]

theorem shapesOf_numeral (hd : d.isDigit = true) (hds : ∀ c ∈ ds, c.isDigit = true)
    (hrest : ∀ c ∈ rest.head?, c.isDigit = false) :
    shapesOf (d :: ds ++ rest) = (.integer, String.ofList (d :: ds)) :: shapesOf rest := by
  rw [List.cons_append, shapesOf_cons (isBlank_of_isDigit hd)
    fun e => absurd e (ne_of_isDigit hd rfl), split_numeral hd hds hrest]
  rfl

end Numerals

/-! ## Words -/

section Words

variable {c : Char} {rest : List Char}

def opensWord (c : Char) : Bool := Text.isLetter c || c == '_'

/-- A word does not begin with an ASCII character that is neither a letter nor `_`. -/
theorem ne_of_opensWord {d : Char} (hc : opensWord c = true) (hd : d.toNat < 128)
    (halpha : d.isAlpha = false) (hbar : d ≠ '_') : c ≠ d := by
  rintro rfl
  simp only [opensWord, Text.isLetter_of_ascii hd, halpha, Bool.false_or, beq_iff_eq] at hc
  exact hbar hc

theorem isAlpha_of_isDigit (h : c.isDigit = true) : c.toNat < 128 ∧ c.isAlpha = false := by
  simp only [Char.isDigit, Bool.and_eq_true, decide_eq_true_eq, ge_iff_le,
    UInt32.le_iff_toNat_le] at h
  have h₀ : '0'.val.toNat = 48 := rfl
  have h₉ : '9'.val.toNat = 57 := rfl
  have hA : 'A'.val.toNat = 65 := rfl
  have ha : 'a'.val.toNat = 97 := rfl
  constructor
  · show c.val.toNat < 128
    omega
  · show (decide (c.val ≥ 'A'.val ∧ c.val ≤ 'Z'.val) ||
      decide (c.val ≥ 'a'.val) && decide (c.val ≤ 'z'.val)) = false
    simp only [Bool.or_eq_false_iff, Bool.and_eq_false_iff, decide_eq_false_iff_not, ge_iff_le,
      UInt32.le_iff_toNat_le, Nat.not_le]
    omega

theorem isDigit_of_opensWord (hc : opensWord c = true) : c.isDigit = false := by
  cases hd : c.isDigit with
  | false => rfl
  | true =>
    obtain ⟨hascii, halpha⟩ := isAlpha_of_isDigit hd
    exact absurd rfl (ne_of_opensWord hc hascii halpha (ne_of_isDigit hd rfl))

/-- Whether characters make a whole word. -/
def isWord : List Char → Bool
  | [] => false
  | c :: cs => opensWord c && cs.all Lexeme.isWordChar

theorem isBlank_of_opensWord (hc : opensWord c = true) : isBlank c = false := by
  simp only [isBlank, Bool.or_eq_false_iff, beq_eq_false_iff_ne]
  exact ⟨⟨ne_of_opensWord hc (by decide) rfl (by decide),
    ne_of_opensWord hc (by decide) rfl (by decide)⟩,
    ne_of_opensWord hc (by decide) rfl (by decide)⟩

theorem split_word {cs : List Char} (h : isWord (c :: cs) = true)
    (hrest : ∀ d ∈ rest.head?, Lexeme.isWordChar d = false) :
    Lexeme.split c (cs ++ rest) = Lexeme.ofWord (c :: cs) rest := by
  obtain ⟨hc, hcs⟩ := (Bool.and_eq_true _ _).mp h
  have hmark : Mark.ofChar? c = none := by
    refine ofChar?_eq_none fun m => (ne_of_opensWord hc ?_ ?_ ?_).symm
    · cases m <;> decide
    · cases m <;> rfl
    · cases m <;> decide
  have hline : c ≠ '\n' := ne_of_opensWord hc (by decide) rfl (by decide)
  have hquote : c ≠ '"' := ne_of_opensWord hc (by decide) rfl (by decide)
  have hdigit := isDigit_of_opensWord hc
  obtain ⟨htake, hdrop⟩ := takeWhile_dropWhile_append (List.all_eq_true.1 hcs) hrest
  unfold opensWord at hc
  simp only [Lexeme.split, hline, hmark, hquote, hdigit, hc, if_false, if_true, htake, hdrop,
    Bool.false_eq_true]

theorem shapesOf_word {word : List Char} (h : isWord word = true)
    (hrest : ∀ d ∈ rest.head?, Lexeme.isWordChar d = false) :
    shapesOf (word ++ rest) =
      (Lexeme.ofWord word rest).1.shape :: shapesOf (Lexeme.ofWord word rest).2 := by
  cases word with
  | nil => cases h
  | cons c cs =>
    have hc : opensWord c = true := ((Bool.and_eq_true _ _).mp h).1
    have hslash : c ≠ '/' := ne_of_opensWord hc (by decide) rfl (by decide)
    rw [List.cons_append, shapesOf_cons (isBlank_of_opensWord hc) fun e => absurd e hslash,
      split_word h hrest]

def IsName (word : String) : Prop := isWord word.toList = true ∧ Keyword.ofWord? word = none

instance (word : String) : Decidable (IsName word) := inferInstanceAs (Decidable (_ ∧ _))

theorem shapesOf_name {word : String} (h : IsName word)
    (hrest : ∀ d ∈ rest.head?, Lexeme.isWordChar d = false ∧ d ≠ '?') :
    shapesOf (word.toList ++ rest) = (.name, word) :: shapesOf rest := by
  obtain ⟨hword, hplain⟩ := h
  have hname : Lexeme.ofWord word.toList rest = (⟨.name, word.toList, word.toList⟩, rest) := by
    rw [Keyword.ofWord?] at hplain
    simp only [Lexeme.ofWord, hplain]
    split
    · exact absurd rfl (hrest _ rfl).2
    · rfl
  rw [shapesOf_word hword fun d hd => (hrest d hd).1, hname]
  simp only [Lexeme.shape, String.ofList_toList]

theorem isWord_letters {k : Keyword} (h : k ∈ Keyword.plain) : isWord k.letters = true := by
  revert k
  decide

/-- Reserved words are read as such when nothing follows that could be part of a word. -/
theorem shapesOf_keyword (k : Keyword)
    (hrest : ∀ d ∈ rest.head?, Lexeme.isWordChar d = false) :
    shapesOf (k.letters ++ rest) = (.keyword k, k.spelling) :: shapesOf rest := by
  have hplain : ∀ k ∈ Keyword.plain,
      shapesOf (k.letters ++ rest) = (.keyword k, k.spelling) :: shapesOf rest := by
    intro k hk
    have hword : Lexeme.ofWord k.letters rest = (⟨.keyword k, k.letters, k.letters⟩, rest) := by
      simp only [Lexeme.ofWord, Keyword.ofLetters?_letters hk]
    rw [shapesOf_word (isWord_letters hk) hrest, hword]
    rfl
  cases k with
  | test r =>
    have hstem : isWord r.stem = true := by cases r <;> decide
    have hword : Lexeme.ofWord r.stem ('?' :: rest) =
        (⟨.keyword (.test r), r.stem ++ ['?'], r.stem ++ ['?']⟩, rest) := by
      have hnone : Keyword.ofLetters? r.stem = none := by cases r <;> decide
      simp only [Lexeme.ofWord, hnone, Relation.ofLetters?_stem]
    have hmark : ∀ d ∈ ('?' :: rest).head?, Lexeme.isWordChar d = false := by
      intro d hd
      obtain rfl := Option.some.inj hd
      rfl
    rw [Keyword.letters, List.append_assoc, List.cons_append, List.nil_append,
      shapesOf_word hstem hmark, hword]
    rfl
  | _ => exact hplain _ (by decide)

end Words

/-! ## Quoted texts -/

/-- Texts that can stand between quotes: no quote, no line end, and a backslash only in front of a
character that goes with it. -/
inductive Quotable : List Char → Prop where
  | nil : Quotable []
  | plain {c : Char} {cs : List Char} : c ≠ '"' → c ≠ '\n' → c ≠ '\\' → Quotable cs →
      Quotable (c :: cs)
  | escape {c : Char} {cs : List Char} : c ≠ '\n' → Quotable cs → Quotable ('\\' :: c :: cs)

/-- Quotable characters are taken whatever follows them. -/
theorem splitQuoted_quotable_append {inner : List Char} (h : Quotable inner) (rest : List Char) :
    splitQuoted (inner ++ rest) = (inner ++ (splitQuoted rest).1, (splitQuoted rest).2) := by
  induction h with
  | nil => rfl
  | @plain c cs hq hn hb _ ih =>
    rw [List.cons_append, splitQuoted.eq_3 c _ (fun d ds e _ => hb e),
      if_neg (by simp [hq, hn]), ih]
    rfl
  | @escape c cs hn _ ih =>
    rw [List.cons_append, List.cons_append, splitQuoted, if_neg hn, ih]
    rfl

theorem splitQuoted_of_quotable {inner : List Char} (h : Quotable inner) (rest : List Char) :
    splitQuoted (inner ++ '"' :: rest) = (inner, '"' :: rest) := by
  have hstop : splitQuoted ('"' :: rest) = ([], '"' :: rest) := by
    cases rest <;> rfl
  rw [splitQuoted_quotable_append h, hstop, List.append_nil]

theorem split_quote (cs : List Char) :
    Lexeme.split '"' cs = Lexeme.ofQuoted (splitQuoted cs).1 (splitQuoted cs).2 := by
  have hmark : Mark.ofChar? '"' = none := by decide
  simp only [Lexeme.split, hmark]
  rfl

theorem shapesOf_quoted {word : String} (h : Quotable word.toList) (rest : List Char) :
    shapesOf ('"' :: (word.toList ++ '"' :: rest)) = (.quoted, word) :: shapesOf rest := by
  rw [shapesOf_cons rfl (by simp), split_quote, splitQuoted_of_quotable h]
  simp only [Lexeme.ofQuoted, Lexeme.shape, String.ofList_toList]

/-! ## Texts of tokens -/

def IsNumeral (word : String) : Prop :=
  word.toList ≠ [] ∧ ∀ c ∈ word.toList, c.isDigit = true

theorem isNumeral_iff {word : String} :
    IsNumeral word ↔ (!word.toList.isEmpty && word.toList.all Char.isDigit) = true := by
  simp [IsNumeral]

instance (word : String) : Decidable (IsNumeral word) := decidable_of_iff _ isNumeral_iff.symm

theorem shapesOf_isNumeral {word : String} {rest : List Char} (h : IsNumeral word)
    (hrest : ∀ c ∈ rest.head?, c.isDigit = false) :
    shapesOf (word.toList ++ rest) = (.integer, word) :: shapesOf rest := by
  obtain ⟨hne, hdigits⟩ := h
  cases hword : word.toList with
  | nil => exact absurd hword hne
  | cons d ds =>
    rw [hword] at hdigits
    rw [shapesOf_numeral (hdigits d (by simp)) (fun c hc => hdigits c (by simp [hc])) hrest,
      ← hword, String.ofList_toList]

/-- Whether a text is one that tokens of a kind can have. -/
def Legible : Kind × String → Prop
  | (.integer, text) => IsNumeral text
  | (.name, text) => IsName text
  | (.quoted, text) => Quotable text.toList
  | _ => True

theorem quotable_of_splitQuoted {cs rest : List Char} (h : (splitQuoted cs).2 = '"' :: rest) :
    Quotable (splitQuoted cs).1 := by
  fun_induction splitQuoted cs with
  | case1 => cases h
  | case2 => cases h
  | case3 c cs hc ih => exact .escape hc (ih h)
  | case4 => exact .nil
  | case5 c cs hb hc ih =>
    obtain ⟨hq, hn⟩ := not_or.1 hc
    refine .plain hq hn ?_ (ih h)
    rintro rfl
    -- a backslash that takes nothing with it is the last character, and no quote follows
    cases cs with
    | nil => cases h
    | cons d ds => exact hb d ds rfl rfl

/-- A text can stand between quotes if it is read back from there. -/
theorem quotable_iff {inner : List Char} :
    Quotable inner ↔ splitQuoted (inner ++ ['"']) = (inner, ['"']) := by
  constructor
  · exact fun h => splitQuoted_of_quotable h []
  · intro h
    have hread : (splitQuoted (inner ++ ['"'])).2 = '"' :: [] := by rw [h]
    have hquotable := quotable_of_splitQuoted hread
    rwa [h] at hquotable

instance (inner : List Char) : Decidable (Quotable inner) := decidable_of_iff _ quotable_iff.symm

theorem legible_ofQuoted (inner rest : List Char)
    (h : ∀ cs, rest = '"' :: cs → Quotable inner) :
    Legible (Lexeme.ofQuoted inner rest).1.shape := by
  unfold Lexeme.ofQuoted
  split
  · show Quotable (String.ofList inner).toList
    rw [String.toList_ofList]
    exact h _ rfl
  · trivial

theorem legible_ofWord {word : List Char} (h : isWord word = true) (rest : List Char) :
    Legible (Lexeme.ofWord word rest).1.shape := by
  have hname : Keyword.ofLetters? word = none → IsName (String.ofList word) := by
    intro hnone
    refine ⟨?_, ?_⟩
    · rwa [String.toList_ofList]
    · rwa [Keyword.ofWord?, String.toList_ofList]
  unfold Lexeme.ofWord
  split
  · trivial
  · rename_i hnone
    split
    · trivial
    · exact hname hnone

theorem legible_split (c : Char) (cs : List Char) : Legible (Lexeme.split c cs).1.shape := by
  unfold Lexeme.split
  split
  · trivial
  · split
    · trivial
    · split
      · exact legible_ofQuoted _ _ fun rest h => quotable_of_splitQuoted h
      · split
        · rename_i hd
          refine ⟨by simp, fun d hmem => ?_⟩
          rw [String.toList_ofList] at hmem
          rcases List.mem_cons.1 hmem with rfl | hmem
          · exact hd
          · exact List.all_eq_true.1 List.all_takeWhile d hmem
        · split
          · rename_i hc
            refine legible_ofWord ?_ _
            exact (Bool.and_eq_true _ _).mpr ⟨hc, List.all_takeWhile⟩
          · trivial

/-- Numerals, names and quoted tokens of a text can be read back from their own texts. -/
theorem legible_of_mem_tokensFrom {n : Nat} {p : Position} {cs : List Char} {t : Token}
    (h : t ∈ tokensFrom n p cs) : Legible t.shape := by
  induction n generalizing p cs with
  | zero => cases h
  | succ n ih =>
    simp only [tokensFrom] at h
    split at h
    · obtain rfl := List.mem_singleton.1 h
      trivial
    · rcases List.mem_cons.1 h with rfl | h
      · exact legible_split _ _
      · exact ih h

end DrawLang
