import DrawLang.Proofs.Grammar.Blame
import DrawLang.Proofs.Grammar.InPlace

/-!
# Parsing gets forward

The cursor stays where it is when it takes the last token, so a loop or a nested call that took that
token could go on for ever. None does. The last token is the only one that ends the text, and no
part of a program has room for it, so every part leaves the cursor further on than it was and in the
list. The rounds and levels that a parser needs are then bounded by the number of the tokens.

* `closed_of_endsOnce`, `last_of_stands`: lists of tokens that end in their only `finish`.
* `GetsForward`: what is claimed of a part of the parser.
* `Shortens`: what is claimed of a loop.
* `program_eq`: how parsing ends.
* `parsing_gets_forward`: all parts, all loops, and programs.
-/

namespace DrawLang.Cursor

open Grammar

variable {tokens : List Token} {pos next n N : Nat}

/-! ## Lists that end once -/

theorem closed_of_endsOnce (h : EndsOnce tokens) : Closed tokens := by
  obtain ⟨body, eof, rfl, heof, -⟩ := h
  rintro pos _ ⟨t, ht, rfl⟩ hne
  have hlt := (List.getElem?_eq_some_iff.1 ht).1
  rw [List.length_append, List.length_singleton] at hlt ⊢
  rcases Nat.lt_or_eq_of_le (Nat.le_of_lt_succ hlt) with hbefore | rfl
  · omega
  · rw [List.getElem?_concat_length] at ht
    cases ht
    exact absurd heof hne

theorem length_pos_of_endsOnce (h : EndsOnce tokens) : 0 < tokens.length := by
  obtain ⟨body, eof, rfl, -⟩ := h
  rw [List.length_append, List.length_singleton]
  exact Nat.succ_pos _

/-- Only the last token ends the text. -/
theorem last_of_stands (h : EndsOnce tokens) (hstands : Stands tokens pos .finish) :
    pos + 1 = tokens.length := by
  obtain ⟨body, eof, rfl, -, hbody⟩ := h
  obtain ⟨t, ht, hk⟩ := hstands
  have hlt := (List.getElem?_eq_some_iff.1 ht).1
  rw [List.length_append, List.length_singleton] at hlt ⊢
  rcases Nat.lt_or_eq_of_le (Nat.le_of_lt_succ hlt) with hbefore | rfl
  · rw [List.getElem?_append_left hbefore] at ht
    exact absurd hk (hbody t (List.mem_of_getElem? ht))
  · rfl

/-- More levels and rounds than there are tokens make no difference. -/
theorem statements_eq_of_lt (hn : tokens.length < n) :
    Reader.statements (Reader.stmtAt n) .finish n tokens =
      Reader.statements (Reader.stmtAt (tokens.length + 1)) .finish (tokens.length + 1) tokens := by
  obtain ⟨used, hused, hread⟩ :=
    statements_agree hn (stmtAt_agree hn) .finish (Nat.lt_succ_self tokens.length)
  have h := hread _ rfl
  rw [← hused] at h
  rw [h]
  cases Reader.statements (Reader.stmtAt (tokens.length + 1)) .finish (tokens.length + 1) tokens with
  | error us => rfl
  | ok p => rfl

/-- What a reader comes to, said by the place of the cursor. -/
def placed {α : Type} (tokens : List Token) :
    Except (List Token) (α × List Token) → Except Stop (α × Nat)
  | .ok (a, us) => .ok (a, tokens.length - us.length)
  | .error us => .error (.refused (blamed us))

/-- A part of the parser that is given `n` rounds and levels, from any place in the list. When it
succeeds, it has moved the cursor forward by one token at least, and onto the last token at most. It
never looks outside the list. In front of `n` tokens or fewer it ends, with what the reader of tokens
comes to. -/
structure GetsForward {α : Type} (tokens : List Token) (n : Nat) (s : Scan α) (r : Reader α) :
    Prop where
  forward : ∀ pos a next, pos < tokens.length → s pos = .ok (a, next) →
    pos < next ∧ next < tokens.length
  inside : ∀ pos, pos < tokens.length → s pos ≠ .error .outside
  ends : ∀ pos, pos < tokens.length → tokens.length - pos ≤ n →
    s pos = placed tokens (r (tokens.drop pos))

theorem Advances.getsForward {α : Type} {s : Scan α} {r : Reader α} (h : Advances tokens n s r) :
    GetsForward tokens n s r where
  forward pos a next hpos hs := by
    cases h hpos (Nat.le_refl _) with
    | arrives hs' hlt hnext hr =>
      rw [hs] at hs'
      cases hs'
      exact ⟨hlt, hnext⟩
    | refuses us hs' hr => cases hs.symm.trans hs'
    | stops hs' hlimit => cases hs.symm.trans hs'
  inside pos hpos hs := by
    cases h hpos (Nat.le_refl _) with
    | arrives hs' hlt hnext hr => cases hs.symm.trans hs'
    | refuses us hs' hr => cases hs.symm.trans hs'
    | stops hs' hlimit => cases hs.symm.trans hs'
  ends pos hpos hn := by
    cases h hpos (Nat.le_refl _) with
    | @arrives a next hs hlt hnext hr =>
      have hplace : tokens.length - (tokens.length - next) = next := by omega
      rw [hs, hr]
      show _ = Except.ok (a, tokens.length - (tokens.drop next).length)
      rw [List.length_drop, hplace]
    | refuses us hs hr =>
      rw [hs, hr]
      rfl
    | stops hs hlimit => omega

/-- A loop that gets forward with each round after which it goes on. -/
def Shortens {σ β : Type} (tokens : List Token) (round : σ → Scan (Turn σ β)) : Prop :=
  ∀ state state' pos next, pos < tokens.length → round state pos = .ok (.again state', next) →
    pos < next ∧ next < tokens.length

theorem Turns.shortens {σ β : Type} {round : σ → Scan (Turn σ β)} {r : Nat → σ → Reader β}
    (h : Turns tokens N round r) : Shortens tokens round := by
  intro state state' pos next hpos hround
  have hfollows : Follows tokens (N + pos) (round state) pos (r 1 state) (resume (r 0))
      (TurnsAt pos) := h hpos (Nat.le_refl _)
  cases hfollows with
  | arrives hs hturn hnext hr =>
    rw [hround] at hs
    cases hs
    exact ⟨hturn, hnext⟩
  | refuses us hs hr => cases hround.symm.trans hs
  | stops hs hlimit => cases hround.symm.trans hs

/-- Parsing ends at the end of the text, or where the reader of programs ends. -/
theorem program_eq (hend : EndsOnce tokens) (hn : tokens.length < n) :
    program tokens n 0 = ((Program.ofTokens? tokens).map fun p => (p, tokens.length - 1)).mapError
      fun us => .refused (blamed us) := by
  have hclosed := closed_of_endsOnce hend
  have hfollows := statements_proceeds hclosed (stmtAt_advances hclosed n) .finish
    (length_pos_of_endsOnce hend) (Nat.le_refl _)
  rw [program]
  cases hfollows with
  | @arrives p next hs hle hnext hread =>
    rw [List.drop_zero, statements_eq_of_lt hn] at hread
    -- the statements stop in front of a token that ends the text, and only the last one does
    have hfinish := nextKind_of_statements hread
    obtain ⟨kind, hstands⟩ := exists_stands hnext
    rw [hstands.nextKind] at hfinish
    have hlast := last_of_stands hend (hfinish ▸ hstands)
    obtain rfl : next = tokens.length - 1 := by omega
    rw [hs, ofTokens?_ok_iff.2 ⟨_, hread⟩]
    rfl
  | refuses us hs hread =>
    rw [List.drop_zero, statements_eq_of_lt hn] at hread
    rw [hs, ofTokens?_error_iff.2 hread]
    rfl
  | stops hs hlimit => omega

/-- In a list of tokens that ends in its only `finish`, a parser with more rounds and levels than
there are tokens ends: a program that is accepted has taken all tokens but the last one, on which
the cursor then stands, and otherwise a token in the list is refused. Statements, blocks,
expressions, terms and atoms that are read get the cursor forward and not beyond the last token, as
do the rounds of all loops: over statements, arguments, parameters, operators and line ends. -/
theorem parsing_gets_forward (tokens : List Token) (hend : EndsOnce tokens) :
    (∀ n, tokens.length < n → program tokens n 0 =
      ((Program.ofTokens? tokens).map fun p => (p, tokens.length - 1)).mapError
        fun us => .refused (blamed us)) ∧
    (∀ n,
      GetsForward tokens n (stmtAt tokens n) (Reader.stmtAt n) ∧
      GetsForward tokens n (block tokens (stmtAt tokens n) n) (Reader.block (Reader.stmtAt n) n) ∧
      GetsForward tokens n (exprAt tokens n) (Reader.exprAt n) ∧
      GetsForward tokens n (term tokens (exprAt tokens n) n) (Reader.term (Reader.exprAt n) n) ∧
      GetsForward tokens n (atom tokens (exprAt tokens n) n) (Reader.atom (Reader.exprAt n) n)) ∧
    (∀ n close,
      Shortens tokens (statementRound tokens (stmtAt tokens n) close n) ∧
      Shortens tokens (argumentRound tokens (exprAt tokens n)) ∧
      Shortens tokens (nameRound tokens) ∧
      Shortens tokens (operatorRound tokens Reader.additive (term tokens (exprAt tokens n) n)) ∧
      Shortens tokens (operatorRound tokens Reader.multiplicative
        (atom tokens (exprAt tokens n) n)) ∧
      Shortens tokens (newlineRound tokens)) := by
  have hclosed := closed_of_endsOnce hend
  have hstmt := stmtAt_advances hclosed
  have hexpr := exprAt_advances hclosed
  refine ⟨fun n hn => program_eq hend hn, fun n => ?_, fun n close => ?_⟩
  · have hblock := (block_advances hclosed (hstmt n)).mono (Nat.le_succ n)
    have hterm := (term_advances hclosed (hexpr n)).mono (Nat.le_succ n)
    have hatom := (atom_advances hclosed (hexpr n)).mono (Nat.le_succ n)
    exact ⟨(hstmt n).getsForward, hblock.getsForward, (hexpr n).getsForward, hterm.getsForward,
      hatom.getsForward⟩
  · exact ⟨(statementRound_turns hclosed (hstmt n) close).shortens,
      (argumentRound_turns (hexpr n)).shortens, (nameRound_turns (N := n) hclosed).shortens,
      (operatorRound_turns hclosed rfl (term_advances hclosed (hexpr n))).shortens,
      (operatorRound_turns hclosed rfl (atom_advances hclosed (hexpr n))).shortens,
      (newlineRound_turns (N := n) hclosed).shortens⟩

/-- The tokens of `{ Pen (1 ? ]`, with an illegal one and brackets that do not match. -/
def brokenTokens : List Token :=
  [⟨.mark .openBrace, "\x7b", ⟨"", 1, 1⟩, ⟨"", 1, 2⟩⟩,
    ⟨.keyword .pen, "Pen", ⟨"", 1, 3⟩, ⟨"", 1, 6⟩⟩, ⟨.mark .openParen, "(", ⟨"", 1, 7⟩, ⟨"", 1, 8⟩⟩,
    ⟨.integer, "1", ⟨"", 1, 8⟩, ⟨"", 1, 9⟩⟩, ⟨.illegal, "?", ⟨"", 1, 10⟩, ⟨"", 1, 11⟩⟩,
    ⟨.mark .closeBracket, "]", ⟨"", 1, 12⟩, ⟨"", 1, 13⟩⟩, ⟨.finish, "", ⟨"", 1, 13⟩, ⟨"", 1, 13⟩⟩]

/-- However many rounds a parser is given, it stops in front of the illegal token, and it has got
there by the expression in front of that token. -/
theorem broken_tokens_refused :
    EndsOnce brokenTokens ∧
      (∀ n, 7 < n → program brokenTokens n 0 = .error (.refused ⟨"", 1, 10⟩)) ∧
      ∃ e, exprAt brokenTokens 4 3 = .ok (e, 4) := by
  have hend : EndsOnce brokenTokens :=
    ⟨brokenTokens.dropLast, ⟨.finish, "", ⟨"", 1, 13⟩, ⟨"", 1, 13⟩⟩, rfl, rfl, by decide⟩
  obtain ⟨hprogram, hparts, -⟩ := parsing_gets_forward brokenTokens hend
  refine ⟨hend, fun n hn => ?_, ?_⟩
  · rw [hprogram n hn]
    rfl
  · have hexpr := (hparts 4).2.2.1.ends 3 (by decide) (by decide)
    exact ⟨.literal "1", hexpr⟩

end DrawLang.Cursor
