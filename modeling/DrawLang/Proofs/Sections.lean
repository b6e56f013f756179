import DrawLang.Proofs.RoundTrip
import DrawLang.Proofs.Tiling

/-!
# Texts in sections

Where a line ends that leaves no comment open, the text divides: what stands in front of the line
end has the tokens that it has by itself, and what follows it has those of a text that begins there.
So programs that stand below each other are read one after the other.

* `EndsInComment`: texts with a comment at their end that nothing closes.
* `Tiles.append_line`: the tokens of a text with further lines below it.
* `Spells`: the program that a part of a text spells.
* `Spells.append_line`: the program of a text with another one below it.
-/

namespace DrawLang

/-! ## Comments that nothing closes -/

/-- Whether a gap runs into a block comment that nothing closes. -/
inductive LeavesOpen : List Char → Prop where
  | comment {body : List Char} : ¬ ['*', '/'] <:+: body → LeavesOpen ('/' :: '*' :: body)
  | blank {c : Char} {gap : List Char} : isBlank c = true → LeavesOpen gap → LeavesOpen (c :: gap)
  | block {body gap : List Char} : ¬ ['*', '/'] <:+: body → LeavesOpen gap →
      LeavesOpen ('/' :: '*' :: (body ++ '*' :: '/' :: gap))

/-- Whether a text ends inside a block comment: the gap behind its last lexeme runs into one that
nothing closes. What looks like a comment within a lexeme or within a line comment is none. -/
inductive EndsInComment : List Char → Prop where
  | gap {gap : List Char} : LeavesOpen gap → EndsInComment gap
  | lexeme {gap rest : List Char} {l : Lexeme} : IsGap gap (l.chars ++ rest) → l.Whole rest →
      EndsInComment rest → EndsInComment (gap ++ (l.chars ++ rest))

theorem LeavesOpen.opens {gap : List Char} (h : LeavesOpen gap) : ['/', '*'] <:+: gap := by
  induction h with
  | @comment body => exact ⟨[], body, rfl⟩
  | blank _ _ ih => exact List.infix_cons ih
  | @block body gap => exact ⟨[], body ++ '*' :: '/' :: gap, rfl⟩

/-- A text in which no comment is opened between marks does not end inside one. -/
theorem EndsInComment.opens {cs : List Char} (h : EndsInComment cs) : ['/', '*'] <:+: cs := by
  induction h with
  | gap h => exact h.opens
  | @lexeme gap rest l _ _ _ ih => exact ih.trans ⟨gap ++ l.chars, [], by simp⟩

/-! ## Gaps and lexemes in front of further lines -/

section Lines

variable {rest : List Char}

/-- What holds of the character that comes next, and of a line feed, holds of the one that comes
next if further lines follow. -/
theorem head?_append_line {P : Char → Prop} (h : ∀ c ∈ rest.head?, P c) (hline : P '\n')
    (more : List Char) : ∀ c ∈ (rest ++ '\n' :: more).head?, P c := by
  cases rest with
  | nil =>
    rintro c hc
    obtain rfl := Option.some.inj hc
    exact hline
  | cons d ds => exact h

theorem not_opensGap_append_line (h : ¬ OpensGap rest) (more : List Char) :
    ¬ OpensGap (rest ++ '\n' :: more) := by
  cases rest with
  | nil => simp [opensGap_cons, isBlank]
  | cons c cs =>
    rw [opensGap_cons, not_or, not_and] at h
    rw [List.cons_append, opensGap_cons, not_or, not_and]
    refine ⟨h.1, fun hc => ?_⟩
    rintro ⟨d, hd, hmark⟩
    have hnext : ∀ d ∈ cs.head?, ¬ (d = '/' ∨ d = '*') :=
      fun d hd hmark => h.2 hc ⟨d, hd, hmark⟩
    exact head?_append_line hnext (by decide) more d hd hmark

/-- A gap ends where it has ended, unless it is a comment that only the end of the text closes. -/
theorem IsGap.append_line {gap : List Char} (h : IsGap gap rest)
    (hopen : rest ≠ [] ∨ ¬ LeavesOpen gap) (more : List Char) :
    IsGap gap (rest ++ '\n' :: more) := by
  induction h with
  | nil h => exact .nil (not_opensGap_append_line h more)
  | blank hc _ ih => exact .blank hc (ih (hopen.imp_right fun h hgap => h (.blank hc hgap)))
  | line hbody hrest => exact .line hbody (head?_append_line hrest rfl more)
  | block hbody _ ih => exact .block hbody (ih (hopen.imp_right fun h hgap => h (.block hbody hgap)))
  | unclosed hbody =>
    rcases hopen with h | h
    · exact absurd rfl h
    · exact absurd (.comment hbody) h

/-- A lexeme that is whole is whole in front of a line end. -/
theorem Lexeme.Whole.append_line {l : Lexeme} (h : l.Whole rest) (more : List Char) :
    l.Whole (rest ++ '\n' :: more) := by
  cases h with
  | newline => exact .newline
  | mark m => exact .mark m
  | numeral hne hdigits hrest => exact .numeral hne hdigits (head?_append_line hrest rfl more)
  | keyword hk hagree hrest => exact .keyword hk hagree (head?_append_line hrest rfl more)
  | relation hagree => exact .relation hagree
  | name hword hplain hrelation hrest =>
    refine .name hword hplain (fun r hr hmark => ?_) (head?_append_line hrest rfl more)
    have hnext : ∀ c ∈ rest.head?, c ≠ '?' := by
      rintro c hc rfl
      exact hrelation r hr hc
    exact head?_append_line hnext (by decide) more '?' hmark rfl
  | quoted hinner => exact .quoted hinner
  | unclosed hinner hrest => exact .unclosed hinner (head?_append_line hrest rfl more)
  | dangling hinner hrest => exact .dangling hinner (head?_append_line hrest rfl more)
  | stray hline hmark hquote hdigit hopens => exact .stray hline hmark hquote hdigit hopens

end Lines

/-- The token of a line end behind a part of a text. -/
def lineEnd (file : String) (before : List Char) : Token :=
  (Lexeme.single .newline '\n').token file before

theorem Tiles.ne_nil {file : String} {before cs : List Char} {ts : List Token}
    (h : Tiles file before cs ts) : ts ≠ [] := by
  cases h <;> exact List.cons_ne_nil _ _

/-- With further lines below a text that does not end inside a comment, its tokens are those of the
text without its end, a line end, and the tokens of the further lines. -/
theorem Tiles.append_line {file : String} {before cs : List Char} {ts : List Token}
    (h : Tiles file before cs ts) (hopen : ¬ EndsInComment cs) {more : List Char}
    {us : List Token} (hmore : Tiles file (before ++ cs ++ ['\n']) more us) :
    Tiles file before (cs ++ '\n' :: more)
      (ts.dropLast ++ lineEnd file (before ++ cs) :: us) := by
  induction h with
  | @finish before gap hgap =>
    have hgap' : IsGap gap ('\n' :: more) := hgap.append_line (.inr fun h => hopen (.gap h)) more
    exact .lexeme (l := .single .newline '\n') hgap' .newline hmore
  | @lexeme before gap rest l ts hgap hl htiles ih =>
    obtain ⟨c, cs, hchars, -⟩ := Lexeme.split_of_whole hl
    have hgap' : IsGap gap (l.chars ++ (rest ++ '\n' :: more)) := by
      rw [← List.append_assoc]
      exact hgap.append_line (.inl (by simp [hchars])) more
    have hrest : ¬ EndsInComment rest := fun h => hopen (.lexeme hgap hl h)
    rw [List.dropLast_cons_of_ne_nil htiles.ne_nil, List.append_assoc, List.append_assoc]
    have hmore' := ih hrest (by simpa using hmore)
    exact .lexeme hgap' (hl.append_line more) (by simpa using hmore')

/-! ## Programs below each other -/

namespace Grammar

/-- Lines, line ends, and further lines are lines. -/
theorem lines_append {ss ss' : List Stmt} {ts seps us : List Token} (h : Derives (.lines ss) ts)
    (hseps : AllOf .newline seps) (hne : seps ≠ []) (h' : Derives (.lines ss') us) :
    Derives (.lines (ss ++ ss')) (ts ++ (seps ++ us)) := by
  induction ss generalizing ts with
  | nil => cases h
  | cons s ss ih =>
    cases h with
    | oneLine hs => exact .moreLines hs hseps hne h'
    | moreLines hs hseps' hne' hss =>
      have hmore := Derives.moreLines hs hseps' hne' (ih hss)
      simpa only [List.append_assoc, List.cons_append] using hmore

theorem AllOf.append {kind : Kind} {ts us : List Token} (h : AllOf kind ts) (h' : AllOf kind us) :
    AllOf kind (ts ++ us) :=
  List.forall_mem_append.2 ⟨h, h'⟩

/-- Statements, a line end, and further statements are statements. -/
theorem stmts_append {ss ss' : List Stmt} {ts us : List Token} {sep : Token}
    (h : Derives (.stmts ss) ts) (hsep : sep.kind = .newline) (h' : Derives (.stmts ss') us) :
    Derives (.stmts (ss ++ ss')) (ts ++ sep :: us) := by
  have hcons {seps : List Token} (hseps : AllOf .newline seps) : AllOf .newline (sep :: seps) :=
    List.forall_mem_cons.2 ⟨hsep, hseps⟩
  cases h with
  | noStmts hseps =>
    cases h' with
    | noStmts hseps' => exact .noStmts (hseps.append (hcons hseps'))
    | someStmts hbefore' hlines' hafter' =>
      have hlines := Derives.someStmts (hseps.append (hcons hbefore')) hlines' hafter'
      simpa using hlines
  | someStmts hbefore hlines hafter =>
    cases h' with
    | noStmts hseps' =>
      have hlines := Derives.someStmts hbefore hlines (hafter.append (hcons hseps'))
      simpa using hlines
    | someStmts hbefore' hlines' hafter' =>
      have hseps := hafter.append (hcons hbefore')
      have hlines := lines_append hlines hseps (by simp) hlines'
      simpa using Derives.someStmts hbefore hlines hafter'

end Grammar

open Grammar

/-- Whether what stands in a named text behind `before`, up to the end of the text, is that of a
program. -/
def Spells (file : String) (before cs : List Char) (p : Program) : Prop :=
  ∃ ts, Tiles file before cs ts ∧ IsProgram p ts

theorem parse?_ok_iff_spells {file text : String} {p : Program} :
    parse? file text = .ok p ↔ Spells file [] text.toList p := by
  obtain ⟨init, last, htokens, hlast, hinit⟩ :=
    finish_last_of_tiles (tokenize_eq_iff.1 (rfl : tokenize file text = _))
  constructor
  · intro h
    have hread := parse?_ok_iff.1 h
    rw [htokens] at hread
    exact ⟨_, tokenize_eq_iff.1 htokens, isProgram_of_ofTokens? hlast hinit hread⟩
  · rintro ⟨ts, htiles, hprogram⟩
    rw [parse?_ok_iff, tokenize_eq_iff.2 htiles]
    exact ofTokens?_of_isProgram hprogram

namespace Spells

variable {file : String} {before cs : List Char} {p : Program}

/-- What is read at the place behind `before` is spelled there. -/
theorem of_tokensFrom {n : Nat} (hn : cs.length < n)
    (h : Program.ofTokens? (tokensFrom n (placeAfter file before) cs) = .ok p) :
    Spells file before cs p := by
  have htiles : Tiles file before cs (tokensFrom n (placeAfter file before) cs) :=
    tiles_tokensFrom hn
  obtain ⟨init, last, htokens, hlast, hinit⟩ := finish_last_of_tiles htiles
  rw [htokens] at h
  exact ⟨_, htiles, htokens ▸ isProgram_of_ofTokens? hlast hinit h⟩

/-- A text that is that of a program and does not end inside a comment, and further lines that are
those of a program, are those of both in a row. -/
theorem append_line (h : Spells file before cs p) (hopen : ¬ EndsInComment cs) {more : List Char}
    {q : Program} (hmore : Spells file (before ++ cs ++ ['\n']) more q) :
    Spells file before (cs ++ '\n' :: more) (p ++ q) := by
  obtain ⟨ts, htiles, hp⟩ := h
  obtain ⟨us, htiles', hq⟩ := hmore
  refine ⟨_, htiles.append_line hopen htiles', ?_⟩
  obtain ⟨hp, -⟩ := hp
  obtain ⟨hq, heof⟩ := hq
  rw [List.dropLast_concat, ← List.cons_append, ← List.append_assoc]
  exact .intro (stmts_append hp rfl hq) heof

end Spells

end DrawLang
