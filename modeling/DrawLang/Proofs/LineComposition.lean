import DrawLang.Proofs.Relocation
import DrawLang.Proofs.Sections

/-!
# Programs below each other

Two texts with a line end between them are read as the first and then the second. The tokens of the
first keep their places, and those of the second move down by the lines of the first: the program is
that of the first text and, further down, that of the second. The first text only has to end outside
of block comments; that is so if a line end behind it makes a token of its own.

* `Token.relocate`, `Derives.relocate`: tokens at other places spell the tree at other places.
* `Position.down`, `placeAfter_below`: places below further lines.
* `endsInComment_iff`: how to tell whether a text ends inside a comment.
* `programs_compose`: the tokens and the program of two texts below each other.
-/

namespace DrawLang

open Grammar

/-! ## Tokens at other places -/

section Relocate

variable (f : Position → Position)

def Token.relocate (t : Token) : Token := ⟨t.kind, t.text, f t.start, f t.stop⟩

def Grammar.Phrase.relocate : Phrase → Phrase
  | .atom e => .atom (e.relocate f)
  | .term e => .term (e.relocate f)
  | .expr e => .expr (e.relocate f)
  | .exprs es => .exprs (Expr.relocateAll f es)
  | .stmt s => .stmt (s.relocate f)
  | .lines ss => .lines (Stmt.relocateAll f ss)
  | .stmts ss => .stmts (Stmt.relocateAll f ss)
  | .block ss => .block (Stmt.relocateAll f ss)

theorem allOf_relocate {kind : Kind} {ts : List Token} (h : AllOf kind ts) :
    AllOf kind (ts.map (Token.relocate f)) := by
  intro t ht
  obtain ⟨u, hu, rfl⟩ := List.mem_map.1 ht
  exact h u hu

/-- Tokens at other places spell the same phrase with its places changed alike. -/
theorem Grammar.Derives.relocate {ph : Phrase} {ts : List Token} (h : Derives ph ts) :
    Derives (ph.relocate f) (ts.map (Token.relocate f)) := by
  induction h with
  | @literal t h => exact .literal (t := t.relocate f) h
  | @name t h => exact .name (t := t.relocate f) h
  | parens ho _ hc ih =>
    rw [List.map_cons, List.map_append]
    exact .parens ho ih hc
  | @numberCall o g c es ts ho hg _ hc ih =>
    rw [List.map_cons, List.map_cons, List.map_append]
    exact .numberCall (f := g.relocate f) ho hg ih hc
  | factor _ ih => exact .factor ih
  | @product l r op sign ts us _ hop hsign _ ihl ihr =>
    rw [List.map_append, List.map_cons]
    have hsign' : (sign.relocate f).kind = .mark op.mark := hsign
    exact .product ihl hop hsign' ihr
  | summand _ ih => exact .summand ih
  | @sum l r op sign ts us _ hop hsign _ ihl ihr =>
    rw [List.map_append, List.map_cons]
    have hsign' : (sign.relocate f).kind = .mark op.mark := hsign
    exact .sum ihl hop hsign' ihr
  | noExprs => exact .noExprs
  | moreExprs _ _ ihe ihes =>
    rw [List.map_append]
    exact .moreExprs ihe ihes
  | paper hk _ ih => exact .paper hk ih
  | pen hk _ ih => exact .pen hk ih
  | line hk _ _ _ _ iha ihb ihc ihd =>
    simp only [List.map_cons, List.map_append]
    exact .line hk iha ihb ihc ihd
  | @assign k n e ts hk hn _ ih => exact .assign (n := n.relocate f) hk hn ih
  | setPixel hk ho _ _ hc _ ihx ihy ih =>
    simp only [List.map_cons, List.map_append]
    exact .setPixel hk ho ihx ihy hc ih
  | @readPixel k n o c x y xs ys hk hn ho _ _ hc ihx ihy =>
    simp only [List.map_cons, List.map_append]
    exact .readPixel (n := n.relocate f) hk hn ho ihx ihy hc
  | @loop k n a b ss as bs ts hk hn _ _ _ iha ihb ihss =>
    simp only [List.map_cons, List.map_append]
    exact .loop (n := n.relocate f) hk hn iha ihb ihss
  | test hk _ _ _ iha ihb ihss =>
    simp only [List.map_cons, List.map_append]
    exact .test hk iha ihb ihss
  | @define k n role ps ts ss hk hn hps _ ihss =>
    simp only [List.map_cons, List.map_append]
    have hdefine := Derives.define (n := n.relocate f) (k := k.relocate f) hk hn
      (allOf_relocate f hps) ihss
    rw [List.map_map] at hdefine
    exact hdefine
  | value hk _ ih => exact .value hk ih
  | @load k p hk hp => exact .load (k := k.relocate f) (p := p.relocate f) hk hp
  | @commandCall g es ts hg _ ih => exact .commandCall (f := g.relocate f) hg ih
  | nested _ ih => exact .nested ih
  | oneLine _ ih => exact .oneLine ih
  | moreLines _ hseps hne _ ih ihss =>
    rw [List.map_append, List.map_append]
    exact .moreLines ih (allOf_relocate f hseps) (by simpa using hne) ihss
  | noStmts hseps => exact .noStmts (allOf_relocate f hseps)
  | someStmts hbefore _ hafter ih =>
    rw [List.map_append, List.map_append]
    exact .someStmts (allOf_relocate f hbefore) ih (allOf_relocate f hafter)
  | block ho _ hc ih =>
    rw [List.map_cons, List.map_append]
    exact .block ho ih hc

theorem isProgram_relocate {p : Program} {ts : List Token} (h : IsProgram p ts) :
    IsProgram (Stmt.relocateAll f p) (ts.map (Token.relocate f)) := by
  obtain ⟨hd, heof⟩ := h
  rw [List.map_append]
  exact .intro (hd.relocate f) heof

end Relocate

/-! ## Places below further lines -/

/-- A place some lines further down, in the same column. -/
def Position.down (lines : Nat) (p : Position) : Position := { p with line := p.line + lines }

theorem Position.advance_down (lines : Nat) (p : Position) (cs : List Char) :
    (p.down lines).advance cs = (p.advance cs).down lines := by
  induction cs generalizing p with
  | nil => rfl
  | cons c cs ih =>
    have hnext : (p.down lines).next c = (p.next c).down lines := by
      by_cases h : c = '\n'
      · simp [next, down, h, Nat.add_right_comm]
      · simp [next, down, h]
    rw [advance_cons, hnext, ih, advance_cons]

/-- Below a text and a line end, a place is further down by the lines of the text. -/
theorem placeAfter_below (file : String) (above cs : List Char) :
    placeAfter file (above ++ ['\n'] ++ cs) =
      (placeAfter file cs).down (above.count '\n' + 1) := by
  have hline : placeAfter file (above ++ ['\n']) =
      (Position.start file).down (above.count '\n' + 1) := by
    simp [placeAfter, Position.start, Position.down, Nat.add_comm]
  rw [← advance_placeAfter, hline, Position.advance_down, ← placeAfter_nil, advance_placeAfter,
    List.nil_append]

/-- Where all places have changed alike, the tokens are the same at the changed places. -/
theorem Tiles.relocate {file : String} {above : List Char} {f : Position → Position}
    (hplace : ∀ cs, placeAfter file (above ++ cs) = f (placeAfter file cs)) {before cs : List Char}
    {ts : List Token} (h : Tiles file before cs ts) :
    Tiles file (above ++ before) cs (ts.map (Token.relocate f)) := by
  have htoken (l : Lexeme) (before : List Char) :
      l.token file (above ++ before) = (l.token file before).relocate f := by
    simp only [Lexeme.token, Token.relocate, List.append_assoc, hplace]
  induction h with
  | @finish before gap hgap =>
    have htiles : Tiles file (above ++ before) gap _ := .finish hgap
    rwa [List.append_assoc, htoken] at htiles
  | @lexeme before gap rest l ts hgap hl _ ih =>
    have htiles : Tiles file (above ++ before) (gap ++ (l.chars ++ rest)) _ :=
      .lexeme hgap hl (by simpa only [List.append_assoc] using ih)
    rwa [List.append_assoc, htoken] at htiles

/-! ## Texts that end inside a comment -/

theorem LeavesOpen.isGap {gap : List Char} (h : LeavesOpen gap) : IsGap gap [] := by
  induction h with
  | comment hbody => exact .unclosed hbody
  | blank hc _ ih => exact .blank hc ih
  | block hbody _ ih => exact .block hbody ih

/-- A line end does not close a comment. -/
theorem LeavesOpen.append_newline {gap : List Char} (h : LeavesOpen gap) :
    LeavesOpen (gap ++ ['\n']) := by
  induction h with
  | @comment body hbody =>
    refine .comment fun hmark => ?_
    obtain ⟨front, back, hfront⟩ := hmark
    rcases List.eq_nil_or_concat back with rfl | ⟨back, c, rfl⟩
    · rw [List.append_nil] at hfront
      exact absurd (congrArg List.getLast? hfront) (by simp)
    · rw [List.concat_eq_append, ← List.append_assoc] at hfront
      exact hbody ⟨front, back, List.append_inj_left' hfront rfl⟩
  | blank hc _ ih => exact .blank hc ih
  | @block body gap hbody _ ih =>
    have hblock := LeavesOpen.block hbody ih
    simpa only [List.cons_append, List.append_assoc] using hblock

/-- In a text that ends inside a comment, a line end makes no token. -/
theorem EndsInComment.exists_tiles {cs : List Char} (h : EndsInComment cs) (file : String)
    (before : List Char) : ∃ ts ts', Tiles file before cs ts ∧
      Tiles file before (cs ++ ['\n']) ts' ∧ ts'.length = ts.length := by
  induction h generalizing before with
  | gap h => exact ⟨_, _, .finish h.isGap, .finish h.append_newline.isGap, rfl⟩
  | @lexeme gap rest l hgap hl _ ih =>
    obtain ⟨ts, ts', htiles, htiles', hlength⟩ := ih (before ++ gap ++ l.chars)
    let token := l.token file (before ++ gap)
    obtain ⟨c, cs, hchars, -⟩ := Lexeme.split_of_whole hl
    have hgap' : IsGap gap (l.chars ++ (rest ++ ['\n'])) := by
      rw [← List.append_assoc]
      exact hgap.append_line (.inl (by simp [hchars])) []
    refine ⟨token :: ts, token :: ts', .lexeme hgap hl htiles, ?_, congrArg Nat.succ hlength⟩
    rw [List.append_assoc, List.append_assoc]
    exact .lexeme hgap' (hl.append_line []) htiles'

/-- A text ends inside a comment if a line end behind it makes no token. -/
theorem endsInComment_iff {text : String} : EndsInComment text.toList ↔
    (tokenize "" (text ++ "\n")).length = (tokenize "" text).length := by
  have htext : (text ++ "\n").toList = text.toList ++ ['\n'] := String.toList_append
  constructor
  · intro h
    obtain ⟨ts, ts', htiles, htiles', hlength⟩ := h.exists_tiles "" []
    rw [← htext] at htiles'
    rw [tokenize_eq_iff.2 htiles, tokenize_eq_iff.2 htiles', hlength]
  · intro hlength
    by_cases hopen : EndsInComment text.toList
    · exact hopen
    exfalso
    have hend : IsGap [] [] := .nil not_opensGap_nil
    have htiles := (tokenize_eq_iff.1 rfl : Tiles "" [] text.toList (tokenize "" text))
    have htiles' := htiles.append_line hopen (.finish hend)
    rw [← htext] at htiles'
    have hpos := List.length_pos_iff.2 htiles.ne_nil
    rw [tokenize_eq_iff.2 htiles', List.length_append, List.length_dropLast] at hlength
    simp only [List.length_cons, List.length_nil] at hlength
    omega

instance (text : String) : Decidable (EndsInComment text.toList) :=
  decidable_of_iff' _ endsInComment_iff

/-! ## Two texts -/

/-- **Programs below each other.** Two texts that are programs make a program, with a line end
between them, unless the first ends inside a comment. Its statements are those of the first text,
at their places, and those of the second, further down by the lines of the first. The same is true
of the tokens, with a line end between those of the first text and those of the second. -/
theorem programs_compose {name a b : String} {p q : Program} (ha : parse? name a = .ok p)
    (hb : parse? name b = .ok q) (hopen : ¬ EndsInComment a.toList) :
    parse? name (a ++ "\n" ++ b) =
        .ok (p ++ Stmt.relocateAll (.down (a.toList.count '\n' + 1)) q) ∧
      tokenize name (a ++ "\n" ++ b) = (tokenize name a).dropLast ++ lineEnd name a.toList ::
        (tokenize name b).map (Token.relocate (.down (a.toList.count '\n' + 1))) := by
  have htext : (a ++ "\n" ++ b).toList = a.toList ++ '\n' :: b.toList := by
    rw [String.toList_append, String.toList_append, List.append_assoc]
    rfl
  obtain ⟨ts, hts, hp⟩ := parse?_ok_iff_spells.1 ha
  obtain ⟨us, hus, hq⟩ := parse?_ok_iff_spells.1 hb
  have hbelow := hus.relocate (placeAfter_below name a.toList)
  rw [List.append_nil] at hbelow
  constructor
  · rw [parse?_ok_iff_spells, htext]
    exact Spells.append_line ⟨ts, hts, hp⟩ hopen ⟨_, hbelow, isProgram_relocate _ hq⟩
  · rw [tokenize_eq_iff.2 hts, tokenize_eq_iff.2 hus, tokenize_eq_iff, htext]
    exact hts.append_line hopen hbelow

/-- A text with comments that are closed, and one in a line that opens no block. -/
def commentedText : String := "Paper 10 /* two\nlines */\nLoad \"/*\" // and /* no more\r"

/-- A text that begins with an empty line. -/
def loweredText : String := "\nPen 7 / <F 1>"

/-- Below the first text, the second one is further down by three lines. -/
theorem commented_composes : ∃ p q, parse? "t" commentedText = .ok p ∧
    parse? "t" loweredText = .ok q ∧ ¬ EndsInComment commentedText.toList ∧
    parse? "t" (commentedText ++ "\n" ++ loweredText) =
      .ok (p ++ Stmt.relocateAll (.down 3) q) := by
  obtain ⟨p, hp⟩ : ∃ p, parse? "t" commentedText = .ok p :=
    exists_parse_of_isSome (by decide +kernel)
  obtain ⟨q, hq⟩ : ∃ q, parse? "t" loweredText = .ok q :=
    exists_parse_of_isSome (by decide +kernel)
  have hopen : ¬ EndsInComment commentedText.toList := by decide +kernel
  exact ⟨p, q, hp, hq, hopen, (programs_compose hp hq hopen).1⟩

end DrawLang
