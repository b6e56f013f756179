import DrawLang.Proofs.Lexemes

/-!
# Tokens tile their text

A text is a row of gaps and lexemes, gap first, and after the last gap nothing is left. Each lexeme
becomes one token, and the places of a token are counted in what stands in front of its lexeme and
in front of what follows it.

* `placeAfter`: the place behind a part of a text, by counting.
* `Tiles`: the tokens of a text, said by the gaps and the lexemes alone.
* `tokens_tile`: the tokens that are read are these, and `finish` is the last of them and no other.
-/

namespace DrawLang

/-! ## Places -/

/-- The place behind a part of a named text: one line more than the part has line feeds, and one
column more than it has characters since the last of them. -/
def placeAfter (file : String) (before : List Char) : Position :=
  ⟨file, before.count '\n' + 1, (before.reverse.takeWhile (· ≠ '\n')).length + 1⟩

theorem placeAfter_nil (file : String) : placeAfter file [] = .start file := rfl

theorem next_placeAfter (file : String) (before : List Char) (c : Char) :
    (placeAfter file before).next c = placeAfter file (before ++ [c]) := by
  by_cases h : c = '\n'
  · simp [Position.next, placeAfter, h]
  · simp [Position.next, placeAfter, h]

/-- Reading on moves the place behind what has been read. -/
theorem advance_placeAfter (file : String) (before cs : List Char) :
    (placeAfter file before).advance cs = placeAfter file (before ++ cs) := by
  induction cs generalizing before with
  | nil => rw [Position.advance_nil, List.append_nil]
  | cons c cs ih => rw [Position.advance_cons, next_placeAfter, ih, List.append_assoc]; rfl

/-! ## Gaps and lexemes in turn -/

/-- The token of a lexeme that stands in a named text behind `before`. -/
def Lexeme.token (l : Lexeme) (file : String) (before : List Char) : Token :=
  ⟨l.kind, String.ofList l.text, placeAfter file before, placeAfter file (before ++ l.chars)⟩

def Lexeme.finish : Lexeme := ⟨.finish, [], []⟩

/-- The tokens of what stands in a named text behind `before`: gaps and lexemes take turns, and a
last gap leads to the end. -/
inductive Tiles (file : String) : List Char → List Char → List Token → Prop where
  | finish {before gap : List Char} : IsGap gap [] →
      Tiles file before gap [Lexeme.finish.token file (before ++ gap)]
  | lexeme {before gap rest : List Char} {l : Lexeme} {ts : List Token} :
      IsGap gap (l.chars ++ rest) → l.Whole rest → Tiles file (before ++ gap ++ l.chars) rest ts →
      Tiles file before (gap ++ (l.chars ++ rest)) (l.token file (before ++ gap) :: ts)

section Reading

variable {file : String} {before cs gap rest : List Char} {n : Nat}

theorem tokensFrom_of_gap (h : IsGap gap []) :
    tokensFrom (n + 1) (placeAfter file before) gap =
      [Lexeme.finish.token file (before ++ gap)] := by
  have hgap : splitGap .between gap = (gap, []) := splitGap_eq_iff.2 ⟨List.append_nil gap, h⟩
  simp only [tokensFrom, hgap, advance_placeAfter, Lexeme.finish, Lexeme.token, List.append_nil,
    String.ofList_nil]

theorem tokensFrom_of_whole {l : Lexeme} (hgap : IsGap gap (l.chars ++ rest))
    (hl : l.Whole rest) :
    tokensFrom (n + 1) (placeAfter file before) (gap ++ (l.chars ++ rest)) =
      l.token file (before ++ gap) ::
        tokensFrom n (placeAfter file (before ++ gap ++ l.chars)) rest := by
  obtain ⟨c, cs, hchars, hsplit⟩ := Lexeme.split_of_whole hl
  have hfound : splitGap .between (gap ++ (l.chars ++ rest)) = (gap, c :: (cs ++ rest)) := by
    rw [splitGap_eq_iff.2 ⟨rfl, hgap⟩, hchars, List.cons_append]
  simp only [tokensFrom, hfound, hsplit, advance_placeAfter, Lexeme.token]

/-- Reading goes gap by gap and lexeme by lexeme. -/
theorem tiles_tokensFrom (h : cs.length < n) :
    Tiles file before cs (tokensFrom n (placeAfter file before) cs) := by
  induction n generalizing before cs with
  | zero => omega
  | succ n ih =>
    obtain ⟨gap, rest, hfound⟩ : ∃ gap rest, splitGap .between cs = (gap, rest) := ⟨_, _, rfl⟩
    obtain ⟨rfl, hgap⟩ := splitGap_eq_iff.1 hfound
    cases rest with
    | nil =>
      rw [List.append_nil, tokensFrom_of_gap hgap]
      exact .finish hgap
    | cons c rest =>
      obtain ⟨l, rest', hsplit⟩ : ∃ l rest', Lexeme.split c rest = (l, rest') := ⟨_, _, rfl⟩
      obtain ⟨happend, hl⟩ := Lexeme.split_eq_iff.1 hsplit
      have hshorter : rest'.length ≤ rest.length := by
        simpa only [hsplit] using Lexeme.length_split_le c rest
      rw [List.length_append, List.length_cons] at h
      rw [← happend] at hgap ⊢
      rw [tokensFrom_of_whole hgap hl]
      exact .lexeme hgap hl (ih (by omega))

/-- There is one way only to lay a text out in gaps and lexemes. -/
theorem tokensFrom_of_tiles {ts : List Token} (h : Tiles file before cs ts)
    (hn : cs.length < n) : tokensFrom n (placeAfter file before) cs = ts := by
  induction h generalizing n with
  | finish hgap =>
    obtain _ | n := n
    · omega
    exact tokensFrom_of_gap hgap
  | lexeme hgap hl _ ih =>
    obtain _ | n := n
    · omega
    rw [tokensFrom_of_whole hgap hl]
    obtain ⟨c, cs, hchars, _⟩ := Lexeme.split_of_whole hl
    rw [hchars, List.length_append, List.length_append, List.length_cons] at hn
    rw [ih (by omega)]

end Reading

theorem tokenize_eq_iff {name source : String} {ts : List Token} :
    tokenize name source = ts ↔ Tiles name [] source.toList ts := by
  rw [tokenize, ← placeAfter_nil]
  constructor
  · rintro rfl
    exact tiles_tokensFrom (Nat.lt_succ_self _)
  · intro h
    exact tokensFrom_of_tiles h (Nat.lt_succ_self _)

/-! ## The end of a text -/

theorem Lexeme.kind_ne_finish_of_whole {l : Lexeme} {rest : List Char} (h : l.Whole rest) :
    l.kind ≠ .finish := by
  cases h <;> nofun

/-- The last token, and only the last, stands for the end of the text. -/
theorem finish_last_of_tiles {file : String} {before cs : List Char} {ts : List Token}
    (h : Tiles file before cs ts) :
    ∃ init last, ts = init ++ [last] ∧ last.kind = .finish ∧ ∀ t ∈ init, t.kind ≠ .finish := by
  induction h with
  | finish => exact ⟨[], _, rfl, rfl, nofun⟩
  | lexeme _ hl _ ih =>
    obtain ⟨init, last, rfl, hlast, hinit⟩ := ih
    refine ⟨_ :: init, last, rfl, hlast, ?_⟩
    exact List.forall_mem_cons.2 ⟨Lexeme.kind_ne_finish_of_whole hl, hinit⟩

/-- **The tokens tile the text.** The tokens of a text are those of its gaps and lexemes in turn, of
which there is exactly one row; every character belongs to one gap or one lexeme. The token of the
end of the text stands once, as the last one. -/
theorem tokens_tile (name source : String) :
    (∀ ts, tokenize name source = ts ↔ Tiles name [] source.toList ts) ∧
      ∃ init last, tokenize name source = init ++ [last] ∧ last.kind = .finish ∧
        ∀ t ∈ init, t.kind ≠ .finish :=
  ⟨fun _ => tokenize_eq_iff, finish_last_of_tiles (tokenize_eq_iff.1 rfl)⟩

end DrawLang
