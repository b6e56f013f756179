import DrawLang.Proofs.Spelling

/-!
# Gaps and lexemes

What a gap and a lexeme look like, without saying how they are found. Both are told by what follows
them: a gap ends where neither a blank nor a comment follows, and a lexeme is as long as it can be.
The reader finds the one gap in front of a text, and the one lexeme behind it.

* `IsGap`, `splitGap_eq_iff`: gaps.
* `Lexeme.Whole`, `split_eq_iff`: lexemes.
* `Keyword.ofLetters?_eq_some_iff`, `Relation.ofLetters?_eq_some_iff`: reserved words in any case.
-/

namespace DrawLang

/-! ## Gaps -/

/-- Whether a text begins with a blank or a comment. -/
def OpensGap (cs : List Char) : Prop :=
  (∃ c ∈ cs.head?, isBlank c = true) ∨ ['/', '/'] <+: cs ∨ ['/', '*'] <+: cs

/-- Whether the line has ended, or the text. -/
def EndsLine (cs : List Char) : Prop := ∀ c ∈ cs.head?, c = '\n'

/-- The gap in front of a text: blanks and comments, until neither follows. A line comment leaves
the line feed that ends it to the text; a block comment ends with the first mark that closes it, and
if there is none, with the text. -/
inductive IsGap : List Char → List Char → Prop where
  | nil {rest : List Char} : ¬ OpensGap rest → IsGap [] rest
  | blank {c : Char} {gap rest : List Char} : isBlank c = true → IsGap gap rest →
      IsGap (c :: gap) rest
  | line {body rest : List Char} : '\n' ∉ body → EndsLine rest → IsGap ('/' :: '/' :: body) rest
  | block {body gap rest : List Char} : ¬ ['*', '/'] <:+: body → IsGap gap rest →
      IsGap ('/' :: '*' :: (body ++ '*' :: '/' :: gap)) rest
  | unclosed {body : List Char} : ¬ ['*', '/'] <:+: body → IsGap ('/' :: '*' :: body) []

theorem opensGap_cons {c : Char} {cs : List Char} : OpensGap (c :: cs) ↔
    isBlank c = true ∨ c = '/' ∧ ∃ d ∈ cs.head?, d = '/' ∨ d = '*' := by
  have hslash (d : Char) : ['/', d] <+: c :: cs ↔ c = '/' ∧ cs.head? = some d := by
    cases cs with
    | nil => simp [eq_comm]
    | cons e es => simp [List.cons_prefix_cons, eq_comm]
  cases hd : cs.head? with
  | none => simp [OpensGap, hslash, hd]
  | some d => simp [OpensGap, hslash, hd, ← and_or_left]

theorem not_opensGap_nil : ¬ OpensGap [] := by simp [OpensGap]

theorem isBlank_ne_slash {c : Char} (h : isBlank c = true) : c ≠ '/' := by
  rintro rfl
  cases h

section Gaps

variable {body rest : List Char}

theorem splitGap_of_not_opensGap (h : ¬ OpensGap rest) : splitGap .between rest = ([], rest) := by
  cases rest with
  | nil => rfl
  | cons c cs =>
    rw [opensGap_cons, not_or] at h
    obtain ⟨hblank, hslash⟩ := h
    rw [splitGap_between_cons, if_neg hblank]
    rintro hc d hd
    rw [← not_or]
    exact fun hopens => hslash ⟨hc, d, hd, hopens⟩

theorem splitGap_lineComment (h : '\n' ∉ body) (hrest : EndsLine rest) :
    splitGap .lineComment (body ++ rest) = (body, rest) := by
  induction body with
  | nil =>
    cases rest with
    | nil => rfl
    | cons c cs => rw [List.nil_append, splitGap, if_pos (hrest c rfl)]
  | cons c cs ih =>
    rw [List.mem_cons, not_or] at h
    rw [List.cons_append, splitGap, if_neg (Ne.symm h.1), ih h.2]
    rfl

/-- Within a comment that is not closed here, a character is taken. -/
theorem splitGap_blockComment_cons {c : Char} {cs : List Char}
    (h : c = '*' → cs.head? ≠ some '/') :
    splitGap .blockComment (c :: cs) = pushFront c (splitGap .blockComment cs) := by
  apply splitGap.eq_7
  rintro ds hc rfl
  exact h hc rfl

/-- A block comment goes on up to the first mark that closes it. -/
theorem splitGap_blockComment_append (h : ¬ ['*', '/'] <:+: body) (hrest : rest.head? ≠ some '/') :
    splitGap .blockComment (body ++ rest) =
      (body ++ (splitGap .blockComment rest).1, (splitGap .blockComment rest).2) := by
  induction body with
  | nil => rfl
  | cons c cs ih =>
    rw [List.infix_cons_iff, not_or] at h
    have hopen : c = '*' → (cs ++ rest).head? ≠ some '/' := by
      rintro rfl hslash
      cases cs with
      | nil => exact hrest hslash
      | cons d ds =>
        cases hslash
        exact h.1 (by simp [List.cons_prefix_cons])
    rw [List.cons_append, splitGap_blockComment_cons hopen, ih h.2]
    rfl

theorem splitGap_of_isGap {gap : List Char} (h : IsGap gap rest) :
    splitGap .between (gap ++ rest) = (gap, rest) := by
  induction h with
  | nil h => exact splitGap_of_not_opensGap h
  | blank hc _ ih =>
    rw [List.cons_append, splitGap_between_cons fun e => absurd e (isBlank_ne_slash hc),
      if_pos hc, ih]
    rfl
  | line hbody hrest =>
    rw [List.cons_append, List.cons_append, splitGap, splitGap_lineComment hbody hrest]
    rfl
  | @block body gap rest hbody _ ih =>
    have hclosed : splitGap .blockComment ('*' :: '/' :: (gap ++ rest)) =
        ('*' :: '/' :: gap, rest) := by
      rw [splitGap, ih]
      rfl
    rw [List.cons_append, List.cons_append, List.append_assoc, splitGap, List.cons_append,
      List.cons_append, splitGap_blockComment_append hbody (by simp), hclosed]
    rfl
  | @unclosed body hbody =>
    rw [List.cons_append, List.cons_append, splitGap,
      splitGap_blockComment_append hbody (by simp)]
    simp [splitGap, pushFront]

end Gaps

/-- What a gap looks like from within: the rest of a gap, of a line comment that ends it, or of a
block comment with the gap that goes on behind it. -/
def GapState.Sound : GapState → List Char → List Char → Prop
  | .between, gap, rest => IsGap gap rest
  | .lineComment, gap, rest => '\n' ∉ gap ∧ EndsLine rest
  | .blockComment, gap, rest => IsGap ('/' :: '*' :: gap) rest

/-- A comment goes on with a character that does not close it together with the next one. -/
theorem isGap_comment_cons {c : Char} {gap rest : List Char}
    (hopen : ∀ ds, c = '*' → gap ++ rest = '/' :: ds → False)
    (h : IsGap ('/' :: '*' :: gap) rest) : IsGap ('/' :: '*' :: c :: gap) rest := by
  have happears {body ds : List Char} (hgap : gap ++ rest = body ++ ds)
      (hbody : ¬ ['*', '/'] <:+: body) : ¬ ['*', '/'] <:+: c :: body := by
    rw [List.infix_cons_iff, not_or]
    refine ⟨fun hprefix => ?_, hbody⟩
    obtain ⟨hc, hslash⟩ := List.cons_prefix_cons.1 hprefix
    obtain ⟨es, rfl⟩ := hslash
    exact hopen _ hc.symm hgap
  cases h with
  | blank hc => cases hc
  | @block body gap _ hbody hgap =>
    have hbody' : ¬ ['*', '/'] <:+: c :: body := happears (List.append_assoc _ _ _) hbody
    exact IsGap.block hbody' hgap
  | unclosed hbody => exact .unclosed (happears rfl hbody)

theorem splitGap_sound (state : GapState) (cs : List Char) :
    state.Sound (splitGap state cs).1 (splitGap state cs).2 := by
  fun_induction splitGap state cs with
  | case1 state =>
    cases state with
    | between => exact .nil not_opensGap_nil
    | lineComment => simp [GapState.Sound, EndsLine]
    | blockComment => exact .unclosed (by simp [List.infix_nil])
  | case2 cs ih => exact .line ih.1 ih.2
  | case3 cs ih => exact ih
  | case4 c cs _ _ hc ih => exact .blank hc ih
  | case5 c cs hline hblock hc =>
    refine .nil fun h => ?_
    rcases opensGap_cons.1 h with h | ⟨hslash, d, hd, rfl | rfl⟩
    · exact hc h
    · obtain ⟨ds, rfl⟩ := List.head?_eq_some_iff.1 hd
      exact hline ds hslash rfl
    · obtain ⟨ds, rfl⟩ := List.head?_eq_some_iff.1 hd
      exact hblock ds hslash rfl
  | case6 cs => exact ⟨by simp, by simp [EndsLine]⟩
  | case7 c cs hc ih =>
    refine ⟨?_, ih.2⟩
    rw [pushFront, List.mem_cons, not_or]
    exact ⟨Ne.symm hc, ih.1⟩
  | case8 cs ih =>
    have hempty : ¬ ['*', '/'] <:+: ([] : List Char) := by simp [List.infix_nil]
    exact IsGap.block hempty ih
  | case9 c cs hopen ih =>
    have happend := splitGap_append .blockComment cs
    exact isGap_comment_cons (fun ds hc hcs => hopen ds hc (happend.symm.trans hcs)) ih

/-- The gap that is found is the one in front of the text. -/
theorem splitGap_eq_iff {cs gap rest : List Char} :
    splitGap .between cs = (gap, rest) ↔ gap ++ rest = cs ∧ IsGap gap rest := by
  constructor
  · intro h
    have happend := splitGap_append .between cs
    have hsound := splitGap_sound .between cs
    rw [h] at happend hsound
    exact ⟨happend, hsound⟩
  · rintro ⟨rfl, h⟩
    exact splitGap_of_isGap h

/-! ## Reserved words in any case -/

theorem agree_symm_trans {a b word : List Char} (ha : agreeIgnoringCase a word = true)
    (hb : agreeIgnoringCase b word = true) : agreeIgnoringCase a b = true := by
  simp only [agreeIgnoringCase, beq_iff_eq] at ha hb ⊢
  rw [ha, hb]

theorem agree_of_find? {α : Type} {letters : α → List Char} {words : List α} {word : List Char}
    {a : α} (h : words.find? (fun a => agreeIgnoringCase (letters a) word) = some a) :
    agreeIgnoringCase (letters a) word = true :=
  List.find?_some (p := fun a => agreeIgnoringCase (letters a) word) h

/-- A word spells a plain reserved word if it is that word in any case. -/
theorem Keyword.ofLetters?_eq_some_iff {word : List Char} {k : Keyword} :
    ofLetters? word = some k ↔ k ∈ plain ∧ agreeIgnoringCase k.letters word = true := by
  have hinj : ∀ k ∈ plain, ∀ k' ∈ plain,
      agreeIgnoringCase k.letters k'.letters = true → k = k' := by
    decide
  constructor
  · intro h
    exact ⟨List.mem_of_find?_eq_some h, agree_of_find? h⟩
  · rintro ⟨hk, hagree⟩
    have hsome : (ofLetters? word).isSome = true := List.find?_isSome.2 ⟨k, hk, hagree⟩
    obtain ⟨k', hk'⟩ := Option.isSome_iff_exists.1 hsome
    rw [hk', hinj k' (List.mem_of_find?_eq_some hk') k hk
      (agree_symm_trans (agree_of_find? hk') hagree)]

theorem Keyword.ofLetters?_eq_none_iff {word : List Char} :
    ofLetters? word = none ↔ ∀ k ∈ plain, agreeIgnoringCase k.letters word = false := by
  simp [ofLetters?, List.find?_eq_none]

/-- A word spells the word of a relation, without its question mark, if it is that in any case. -/
theorem Relation.ofLetters?_eq_some_iff {word : List Char} {r : Relation} :
    ofLetters? word = some r ↔ agreeIgnoringCase r.stem word = true := by
  have hinj : ∀ r ∈ all, ∀ r' ∈ all, agreeIgnoringCase r.stem r'.stem = true → r = r' := by decide
  constructor
  · exact agree_of_find?
  · intro hagree
    have hsome : (ofLetters? word).isSome = true := List.find?_isSome.2 ⟨r, mem_all r, hagree⟩
    obtain ⟨r', hr'⟩ := Option.isSome_iff_exists.1 hsome
    rw [hr', hinj r' (mem_all r') r (mem_all r) (agree_symm_trans (agree_of_find? hr') hagree)]

/-- No plain reserved word is the word of a relation. -/
theorem Keyword.ofLetters?_eq_none_of_stem {word : List Char} {r : Relation}
    (h : agreeIgnoringCase r.stem word = true) : ofLetters? word = none := by
  have hapart : ∀ k ∈ plain, ∀ r ∈ Relation.all, agreeIgnoringCase k.letters r.stem = false := by
    decide
  rw [ofLetters?_eq_none_iff]
  intro k hk
  rw [Bool.eq_false_iff]
  intro hagree
  have hfalse := hapart k hk r (Relation.mem_all r)
  rw [agree_symm_trans hagree h] at hfalse
  cases hfalse

theorem isAlpha_toLower (c : Char) : c.toLower.isAlpha = c.isAlpha := by
  unfold Char.toLower
  split
  · rename_i hupper
    have hA : 'A'.val.toNat = 65 := rfl
    have hZ : 'Z'.val.toNat = 90 := rfl
    have ha : 'a'.val.toNat = 97 := rfl
    have hz : 'z'.val.toNat = 122 := rfl
    have hshift : ('a'.val - 'A'.val).toNat = 32 := rfl
    unfold Char.isAlpha Char.isUpper Char.isLower
    simp only [ge_iff_le, UInt32.le_iff_toNat_le, UInt32.toNat_add, ← Bool.decide_and,
      ← Bool.decide_or, decide_eq_decide] at hupper ⊢
    omega
  · rfl

theorem toNat_of_isAlpha {c : Char} (h : c.isAlpha = true) : c.toNat < 128 := by
  have hZ : 'Z'.val.toNat = 90 := rfl
  have hz : 'z'.val.toNat = 122 := rfl
  unfold Char.isAlpha Char.isUpper Char.isLower at h
  simp only [ge_iff_le, UInt32.le_iff_toNat_le, ← Bool.decide_and, ← Bool.decide_or,
    decide_eq_true_eq] at h
  show c.val.toNat < 128
  omega

theorem isWord_of_isAlpha {word : List Char} (hne : word ≠ [])
    (h : ∀ c ∈ word, c.isAlpha = true) : isWord word = true := by
  have hletter : ∀ c ∈ word, Text.isLetter c = true := by
    intro c hc
    rw [Text.isLetter_of_ascii (toNat_of_isAlpha (h c hc)), h c hc]
  cases word with
  | nil => exact absurd rfl hne
  | cons c cs =>
    simp only [isWord, opensWord, hletter c List.mem_cons_self, Bool.true_or, Bool.true_and,
      List.all_eq_true, Lexeme.isWordChar, Bool.or_eq_true]
    intro d hd
    exact .inl (Text.isLetterOrNumeral_of_isLetter (hletter d (List.mem_cons_of_mem _ hd)))

/-- In any case, a word of ASCII letters is a word. -/
theorem isWord_of_agree {letters word : List Char} (hne : letters ≠ [])
    (halpha : letters.all Char.isAlpha = true) (h : agreeIgnoringCase letters word = true) :
    isWord word = true := by
  have hmap : letters.map Char.toLower = word.map Char.toLower := by
    simpa [agreeIgnoringCase] using h
  apply isWord_of_isAlpha
  · rintro rfl
    exact hne (List.map_eq_nil_iff.1 hmap)
  · intro d hd
    have hmem : d.toLower ∈ letters.map Char.toLower := hmap ▸ List.mem_map_of_mem hd
    obtain ⟨c, hc, hcd⟩ := List.mem_map.1 hmem
    rw [← isAlpha_toLower, ← hcd, isAlpha_toLower]
    exact List.all_eq_true.1 halpha c hc

theorem isWord_of_agree_keyword {k : Keyword} {word : List Char} (hk : k ∈ Keyword.plain)
    (h : agreeIgnoringCase k.letters word = true) : isWord word = true := by
  have hletters : ∀ k ∈ Keyword.plain, k.letters ≠ [] ∧ k.letters.all Char.isAlpha = true := by
    decide
  exact isWord_of_agree (hletters k hk).1 (hletters k hk).2 h

theorem isWord_of_agree_relation {r : Relation} {word : List Char}
    (h : agreeIgnoringCase r.stem word = true) : isWord word = true := by
  have hletters : r.stem ≠ [] ∧ r.stem.all Char.isAlpha = true := by
    cases r <;> decide
  exact isWord_of_agree hletters.1 hletters.2 h

/-! ## Lexemes -/

/-- Whether a word has ended. -/
def EndsWord (cs : List Char) : Prop := ∀ c ∈ cs.head?, Lexeme.isWordChar c = false

namespace Lexeme

/-- The lexemes of every kind, with what can follow them: numerals and words are as long as they can
be, and the word of a relation is reserved if a question mark follows it. What is quoted is closed
in its line; if it is not, its characters are illegal up to the end of the line, and so is a single
character that no other lexeme begins with. -/
inductive Whole : Lexeme → List Char → Prop where
  | newline {rest : List Char} : Whole (single .newline '\n') rest
  | mark {rest : List Char} (m : Mark) : Whole (single (.mark m) m.char) rest
  | numeral {digits rest : List Char} : digits ≠ [] → (∀ c ∈ digits, c.isDigit = true) →
      (∀ c ∈ rest.head?, c.isDigit = false) → Whole ⟨.integer, digits, digits⟩ rest
  | keyword {k : Keyword} {word rest : List Char} : k ∈ Keyword.plain →
      agreeIgnoringCase k.letters word = true → EndsWord rest →
      Whole ⟨.keyword k, word, word⟩ rest
  | relation {r : Relation} {word rest : List Char} : agreeIgnoringCase r.stem word = true →
      Whole ⟨.keyword (.test r), word ++ ['?'], word ++ ['?']⟩ rest
  | name {word rest : List Char} : isWord word = true →
      (∀ k ∈ Keyword.plain, agreeIgnoringCase k.letters word = false) →
      (∀ r : Relation, agreeIgnoringCase r.stem word = true → rest.head? ≠ some '?') →
      EndsWord rest → Whole ⟨.name, word, word⟩ rest
  | quoted {inner rest : List Char} : Quotable inner →
      Whole ⟨.quoted, inner, '"' :: (inner ++ ['"'])⟩ rest
  | unclosed {inner rest : List Char} : Quotable inner → EndsLine rest →
      Whole ⟨.illegal, '"' :: inner, '"' :: inner⟩ rest
  | dangling {inner rest : List Char} : Quotable inner → EndsLine rest →
      Whole ⟨.illegal, '"' :: (inner ++ ['\\']), '"' :: (inner ++ ['\\'])⟩ rest
  | stray {c : Char} {rest : List Char} : c ≠ '\n' → (∀ m : Mark, m.char ≠ c) → c ≠ '"' →
      c.isDigit = false → opensWord c = false → Whole (single .illegal c) rest

/-! ### The lexeme that is read is whole -/

theorem head?_dropWhile {p : Char → Bool} (cs : List Char) :
    ∀ c ∈ (cs.dropWhile p).head?, p c = false := by
  intro c hc
  have hnot := List.head?_dropWhile_not p cs
  rw [Option.mem_def.1 hc] at hnot
  simpa using hnot

theorem whole_ofWord {word rest : List Char} (h : isWord word = true) (hrest : EndsWord rest) :
    (ofWord word rest).1.Whole (ofWord word rest).2 := by
  unfold ofWord
  split
  · rename_i k hk
    obtain ⟨hplain, hagree⟩ := Keyword.ofLetters?_eq_some_iff.1 hk
    exact .keyword hplain hagree hrest
  · rename_i hnone
    split
    · rename_i r rest hr
      exact .relation (Relation.ofLetters?_eq_some_iff.1 hr)
    · rename_i hmark
      refine .name h (Keyword.ofLetters?_eq_none_iff.1 hnone) (fun r hr hhead => ?_) hrest
      obtain ⟨cs, rfl⟩ := List.head?_eq_some_iff.1 hhead
      exact hmark r cs (Relation.ofLetters?_eq_some_iff.2 hr) rfl

/-- Whether a part goes up to the end of what is quoted: to the quote that closes it, or to the end
of the line, and a backslash may be left over in front of that. -/
def Divides (inner : List Char) (parts : List Char × List Char) : Prop :=
  (∃ rest, parts = (inner, '"' :: rest)) ∨
    ∃ rest, EndsLine rest ∧ (parts = (inner, rest) ∨ parts = (inner ++ ['\\'], rest))

theorem Divides.pushFront {inner : List Char} {parts : List Char × List Char}
    (h : Divides inner parts) (c : Char) : Divides (c :: inner) (pushFront c parts) := by
  rcases h with ⟨rest, rfl⟩ | ⟨rest, hrest, rfl | rfl⟩
  · exact .inl ⟨rest, rfl⟩
  · exact .inr ⟨rest, hrest, .inl rfl⟩
  · exact .inr ⟨rest, hrest, .inr rfl⟩

/-- How what follows an opening quote is divided. -/
theorem exists_divides (cs : List Char) :
    ∃ inner, Quotable inner ∧ Divides inner (splitQuoted cs) := by
  fun_induction splitQuoted cs with
  | case1 => exact ⟨[], .nil, .inr ⟨[], by simp [EndsLine], .inl rfl⟩⟩
  | case2 cs => exact ⟨[], .nil, .inr ⟨'\n' :: cs, by simp [EndsLine], .inr rfl⟩⟩
  | case3 c cs hc ih =>
    obtain ⟨inner, hinner, h⟩ := ih
    exact ⟨'\\' :: c :: inner, .escape hc hinner, (h.pushFront c).pushFront '\\'⟩
  | case4 c cs _ hc =>
    refine ⟨[], .nil, ?_⟩
    rcases hc with rfl | rfl
    · exact .inl ⟨cs, rfl⟩
    · exact .inr ⟨'\n' :: cs, by simp [EndsLine], .inl rfl⟩
  | case5 c cs hb hc ih =>
    obtain ⟨hquote, hline⟩ := not_or.1 hc
    by_cases hslash : c = '\\'
    · -- a backslash that takes nothing with it is the last character
      subst hslash
      cases cs with
      | nil => exact ⟨[], .nil, .inr ⟨[], by simp [EndsLine], .inr rfl⟩⟩
      | cons d ds => exact (hb d ds rfl rfl).elim
    · obtain ⟨inner, hinner, h⟩ := ih
      exact ⟨c :: inner, .plain hquote hline hslash hinner, h.pushFront c⟩

theorem ofQuoted_of_endsLine {rest : List Char} (inner : List Char) (h : EndsLine rest) :
    ofQuoted inner rest = (⟨.illegal, '"' :: inner, '"' :: inner⟩, rest) := by
  unfold ofQuoted
  split
  · exact absurd (h _ rfl) (by decide)
  · rfl

theorem whole_ofQuoted (cs : List Char) :
    (ofQuoted (splitQuoted cs).1 (splitQuoted cs).2).1.Whole
      (ofQuoted (splitQuoted cs).1 (splitQuoted cs).2).2 := by
  obtain ⟨inner, hinner, ⟨rest, h⟩ | ⟨rest, hrest, h | h⟩⟩ := exists_divides cs
  · rw [h]
    exact .quoted hinner
  · rw [h, ofQuoted_of_endsLine _ hrest]
    exact .unclosed hinner hrest
  · rw [h, ofQuoted_of_endsLine _ hrest]
    exact .dangling hinner hrest

theorem whole_split (c : Char) (cs : List Char) : (split c cs).1.Whole (split c cs).2 := by
  unfold split
  split
  · rename_i hline
    rw [hline]
    exact .newline
  · split
    · rename_i m hm
      obtain rfl := Mark.char_of_ofChar? hm
      exact .mark m
    · split
      · exact whole_ofQuoted cs
      · split
        · rename_i hd
          refine .numeral (List.cons_ne_nil _ _) (fun d hmem => ?_) (head?_dropWhile cs)
          rcases List.mem_cons.1 hmem with rfl | hmem
          · exact hd
          · exact List.all_eq_true.1 List.all_takeWhile d hmem
        · split
          · rename_i hc
            have hword : isWord (c :: cs.takeWhile isWordChar) = true :=
              (Bool.and_eq_true _ _).mpr ⟨hc, List.all_takeWhile⟩
            exact whole_ofWord hword (head?_dropWhile cs)
          · rename_i hline _ hmark hquote hdigit hword
            refine .stray hline (fun m hm => ?_) hquote (Bool.eq_false_iff.2 hdigit)
              (Bool.eq_false_iff.2 hword)
            rw [← hm, Mark.ofChar?_char] at hmark
            cases hmark

/-! ### A whole lexeme is read -/

theorem ofWord_of_agree_keyword {k : Keyword} {word : List Char} (hk : k ∈ Keyword.plain)
    (h : agreeIgnoringCase k.letters word = true) (rest : List Char) :
    ofWord word rest = (⟨.keyword k, word, word⟩, rest) := by
  simp only [ofWord, Keyword.ofLetters?_eq_some_iff.2 ⟨hk, h⟩]

theorem ofWord_of_agree_relation {r : Relation} {word : List Char}
    (h : agreeIgnoringCase r.stem word = true) (rest : List Char) :
    ofWord word ('?' :: rest) =
      (⟨.keyword (.test r), word ++ ['?'], word ++ ['?']⟩, rest) := by
  simp only [ofWord, Keyword.ofLetters?_eq_none_of_stem h, Relation.ofLetters?_eq_some_iff.2 h]

theorem ofWord_of_name {word rest : List Char}
    (hplain : ∀ k ∈ Keyword.plain, agreeIgnoringCase k.letters word = false)
    (hrelation : ∀ r : Relation, agreeIgnoringCase r.stem word = true → rest.head? ≠ some '?') :
    ofWord word rest = (⟨.name, word, word⟩, rest) := by
  simp only [ofWord, Keyword.ofLetters?_eq_none_iff.2 hplain]
  split
  · rename_i r rest hr
    exact absurd rfl (hrelation r (Relation.ofLetters?_eq_some_iff.1 hr))
  · rfl

theorem splitQuoted_of_endsLine {rest : List Char} (h : EndsLine rest) :
    splitQuoted rest = ([], rest) ∧ splitQuoted ('\\' :: rest) = (['\\'], rest) := by
  cases rest with
  | nil => exact ⟨rfl, rfl⟩
  | cons c cs =>
    obtain rfl := h c rfl
    exact ⟨rfl, rfl⟩

/-- A whole lexeme is read off the front of a text. -/
theorem split_of_whole {l : Lexeme} {rest : List Char} (h : l.Whole rest) :
    ∃ c cs, l.chars = c :: cs ∧ split c (cs ++ rest) = (l, rest) := by
  have hword {word more : List Char} (hw : isWord word = true) (hmore : EndsWord more) :
      ∃ c cs, word = c :: cs ∧ split c (cs ++ more) = ofWord word more := by
    cases word with
    | nil => cases hw
    | cons c cs => exact ⟨c, cs, rfl, split_word hw hmore⟩
  cases h with
  | newline => exact ⟨'\n', [], rfl, rfl⟩
  | mark m =>
    have hline : m.char ≠ '\n' := by cases m <;> decide
    refine ⟨m.char, [], rfl, ?_⟩
    simp only [split, hline, if_false, Mark.ofChar?_char, List.nil_append]
  | @numeral digits _ hne hdigits hrest =>
    cases digits with
    | nil => exact absurd rfl hne
    | cons d ds =>
      obtain ⟨hd, hds⟩ := List.forall_mem_cons.1 hdigits
      exact ⟨d, ds, rfl, split_numeral hd hds hrest⟩
  | keyword hk hagree hrest =>
    obtain ⟨c, cs, rfl, hsplit⟩ := hword (isWord_of_agree_keyword hk hagree) hrest
    exact ⟨c, cs, rfl, hsplit.trans (ofWord_of_agree_keyword hk hagree rest)⟩
  | relation hagree =>
    have hmark : EndsWord ('?' :: rest) := by
      intro d hd
      obtain rfl := Option.some.inj hd
      rfl
    obtain ⟨c, cs, rfl, hsplit⟩ := hword (isWord_of_agree_relation hagree) hmark
    refine ⟨c, cs ++ ['?'], rfl, ?_⟩
    rw [List.append_assoc]
    exact hsplit.trans (ofWord_of_agree_relation hagree rest)
  | name hw hplain hrelation hrest =>
    obtain ⟨c, cs, rfl, hsplit⟩ := hword hw hrest
    exact ⟨c, cs, rfl, hsplit.trans (ofWord_of_name hplain hrelation)⟩
  | @quoted inner _ hinner =>
    refine ⟨'"', inner ++ ['"'], rfl, ?_⟩
    rw [List.append_assoc, split_quote, List.singleton_append, splitQuoted_of_quotable hinner]
    rfl
  | @unclosed inner _ hinner hrest =>
    refine ⟨'"', inner, rfl, ?_⟩
    rw [split_quote, splitQuoted_quotable_append hinner, (splitQuoted_of_endsLine hrest).1,
      List.append_nil, ofQuoted_of_endsLine _ hrest]
  | @dangling inner _ hinner hrest =>
    refine ⟨'"', inner ++ ['\\'], rfl, ?_⟩
    rw [List.append_assoc, split_quote, List.singleton_append, splitQuoted_quotable_append hinner,
      (splitQuoted_of_endsLine hrest).2, ofQuoted_of_endsLine _ hrest]
  | @stray c _ hline hmark hquote hdigit hopens =>
    refine ⟨c, [], rfl, ?_⟩
    unfold opensWord at hopens
    simp only [split, hline, ofChar?_eq_none hmark, hquote, hdigit, hopens, List.nil_append,
      Bool.false_eq_true, if_false]

/-- The lexeme that is read, and what is left, are the one whole lexeme that the text begins with,
and what follows it. -/
theorem split_eq_iff {c : Char} {cs rest : List Char} {l : Lexeme} :
    split c cs = (l, rest) ↔ l.chars ++ rest = c :: cs ∧ l.Whole rest := by
  constructor
  · intro h
    have happend := split_append c cs
    have hwhole := whole_split c cs
    rw [h] at happend hwhole
    exact ⟨happend, hwhole⟩
  · rintro ⟨happend, hwhole⟩
    obtain ⟨d, ds, hchars, hsplit⟩ := split_of_whole hwhole
    rw [hchars, List.cons_append] at happend
    obtain ⟨rfl, rfl⟩ := List.cons.inj happend
    exact hsplit

end Lexeme

end DrawLang
