import DrawLang.Proofs.Grammar.Completable

/-!
# The token that is blamed

A program that is rejected is rejected at the first token that fits nothing. What stands in front of
that token begins some program, since a reader has taken it (`Completable`). With that token behind
it, it begins none: a reader looks no further than the token it stops in front of, so it stops there
whatever comes after (`Agree`).

* `Agree`: what two readers have in common of which the second reads deeper.
* `exprAt_agree`, `stmtAt_agree`: readers of all levels agree.
* `blames_first_impossible`: what is known of a rejected list of tokens.
-/

namespace DrawLang.Grammar

open Reader

/-! ## How far readers look -/

section Results

variable {α : Type}

abbrev Result (α : Type) := Except (List Token) (α × List Token)

def left : Result α → List Token
  | .ok (_, rest) => rest
  | .error rest => rest

def leaving (rest : List Token) : Result α → Result α
  | .ok (a, _) => .ok (a, rest)
  | .error _ => .error rest

end Results

/-- On fewer than `N` tokens the second reader does what the first one does, and it goes on to do so
when the tokens behind the first one that is left are replaced. -/
def Agree {α : Type} (N : Nat) (r r' : Reader α) : Prop :=
  ∀ ⦃ts⦄, ts.length < N → ∃ used, ts = used ++ left (r ts) ∧
    ∀ rest, rest.head? = (left (r ts)).head? → r' (used ++ rest) = leaving rest (r ts)

/-- A reader that takes at least one token when it succeeds. -/
def Takes {α : Type} (r : Reader α) : Prop :=
  ∀ ⦃ts a rest⦄, r ts = .ok (a, rest) → rest.length < ts.length

theorem takes_of_sound {α : Type} {r : Reader α} {P : α → List Token → Prop} (h : Sound r P)
    (hne : ∀ a us, P a us → nextKind us ≠ .finish) : Takes r := by
  intro ts a rest hr
  obtain ⟨us, rfl, ha⟩ := h hr
  have hpos := length_pos_of_starts rfl (hne a us ha)
  rw [List.length_append]
  omega

theorem takes_expect (kind : Kind) : Takes (expect kind) := by
  intro ts t rest h
  obtain ⟨rfl, -⟩ := expect_ok_iff.1 h
  exact Nat.lt_succ_self _

theorem head?_append_congr {used rest rest' : List Token} (h : rest.head? = rest'.head?) :
    (used ++ rest).head? = (used ++ rest').head? := by
  rw [List.head?_append, List.head?_append, h]

theorem nextKind_congr {ts us : List Token} (h : ts.head? = us.head?) :
    nextKind ts = nextKind us := by
  cases ts <;> cases us <;> simp_all [nextKind]

namespace Agree

variable {α β : Type} {N M : Nat} {r r' : Reader α} {f f' : α → Reader β}

theorem zero : Agree 0 r r' := fun _ h => absurd h (Nat.not_lt_zero _)

theorem mono (h : Agree N r r') (hM : M ≤ N) : Agree M r r' := fun _ hts => h (by omega)

theorem refuse : Agree N (Reader.refuse : Reader α) Reader.refuse := by
  intro ts _
  exact ⟨[], rfl, fun _ _ => rfl⟩

theorem pure (a : α) : Agree N (Pure.pure a) (Pure.pure a) := by
  intro ts _
  exact ⟨[], rfl, fun _ _ => rfl⟩

theorem peek {f f' : Kind → Reader α} (h : ∀ k, Agree N (f k) (f' k)) :
    Agree N (Reader.peek >>= f) (Reader.peek >>= f') := by
  intro ts hts
  obtain ⟨used, hused, hf⟩ := h (nextKind ts) hts
  refine ⟨used, hused, fun rest hrest => ?_⟩
  have hnext : nextKind (used ++ rest) = nextKind ts := by
    refine (nextKind_congr (head?_append_congr hrest)).trans ?_
    exact congrArg nextKind hused.symm
  rw [peek_bind, hnext]
  exact hf rest hrest

/-- Tokens of a kind, as many as there are, are taken up to a token of another kind, and that token
is still there when those behind it are replaced. -/
theorem dropWhile (kind : Kind) (f : List Token → α) :
    Agree N (fun ts => .ok (f (ts.takeWhile (·.kind = kind)), ts.dropWhile (·.kind = kind)))
      fun ts => .ok (f (ts.takeWhile (·.kind = kind)), ts.dropWhile (·.kind = kind)) := by
  intro ts _
  refine ⟨ts.takeWhile (·.kind = kind), List.takeWhile_append_dropWhile.symm, fun rest hrest => ?_⟩
  have hall : ∀ t ∈ ts.takeWhile (·.kind = kind), decide (t.kind = kind) = true :=
    fun t ht => List.all_eq_true.1 List.all_takeWhile t ht
  have hhead : ∀ t ∈ rest.head?, decide (t.kind = kind) = false := by
    intro t ht
    rw [hrest] at ht
    have hnot := List.head?_dropWhile_not (fun t : Token => decide (t.kind = kind)) ts
    simp only [left] at ht
    rw [Option.mem_def.1 ht] at hnot
    simpa using hnot
  have htake : rest.takeWhile (·.kind = kind) = [] := by
    cases rest with
    | nil => rfl
    | cons t rest => simp [hhead t rfl]
  have hdrop : rest.dropWhile (·.kind = kind) = rest := by
    cases rest with
    | nil => rfl
    | cons t rest => simp [hhead t rfl]
  simp only [leaving]
  rw [List.takeWhile_append_of_pos hall, List.dropWhile_append_of_pos hall, htake, hdrop,
    List.append_nil]

theorem skipNewlines : Agree N Reader.skipNewlines Reader.skipNewlines :=
  dropWhile .newline fun _ => ()

theorem names : Agree N Reader.names Reader.names :=
  dropWhile .name fun ts => ts.map (·.text)

theorem expect (kind : Kind) : Agree N (Reader.expect kind) (Reader.expect kind) := by
  intro ts _
  cases ts with
  | nil =>
    refine ⟨[], rfl, fun rest hrest => ?_⟩
    rw [List.head?_eq_none_iff.1 hrest]
    rfl
  | cons t ts =>
    by_cases ht : t.kind = kind
    · rw [expect_cons ht]
      exact ⟨[t], rfl, fun rest _ => expect_cons ht⟩
    · have hstop : ∀ us, Reader.expect kind (t :: us) = .error (t :: us) := fun us => by
        simp only [Reader.expect, if_neg ht]
      rw [hstop]
      refine ⟨[], rfl, fun rest hrest => ?_⟩
      cases rest with
      | nil => cases hrest
      | cons u rest =>
        cases hrest
        exact hstop rest

/-- Two readers in a row, the second of which gets fewer than `M` tokens. -/
theorem bind_of_length (hr : Agree N r r') (hf : ∀ a, Agree M (f a) (f' a))
    (hlen : ∀ {ts a rest}, ts.length < N → r ts = .ok (a, rest) → rest.length < M) :
    Agree N (r >>= f) (r' >>= f') := by
  intro ts hts
  obtain ⟨used, hused, hr'⟩ := hr hts
  cases h : r ts with
  | error us =>
    have hbind : (r >>= f) ts = .error us := by
      simp only [Bind.bind, StateT.bind, Except.bind, h]
    rw [hbind]
    rw [h] at hused hr'
    refine ⟨used, hused, fun rest hrest => ?_⟩
    have hfail : r' (used ++ rest) = .error rest := hr' rest hrest
    simp only [Bind.bind, StateT.bind, Except.bind, hfail]
    rfl
  | ok p =>
    obtain ⟨a, us⟩ := p
    rw [bind_of_ok h]
    rw [h] at hused hr'
    obtain ⟨more, hmore, hf'⟩ := hf a (hlen hts h)
    refine ⟨used ++ more, ?_, fun rest hrest => ?_⟩
    · rw [List.append_assoc, ← hmore]
      exact hused
    · have hhead : (more ++ rest).head? = us.head? := by
        refine (head?_append_congr hrest).trans ?_
        exact congrArg List.head? hmore.symm
      have hfirst : r' (used ++ (more ++ rest)) = .ok (a, more ++ rest) := hr' _ hhead
      rw [List.append_assoc, bind_of_ok hfirst]
      exact hf' rest hrest

theorem bind (hr : Agree N r r') (hf : ∀ a, Agree N (f a) (f' a)) :
    Agree N (r >>= f) (r' >>= f') := by
  refine hr.bind_of_length hf fun {ts a rest} hts h => ?_
  obtain ⟨used, hused, -⟩ := hr hts
  have hlen := congrArg List.length hused
  rw [h, List.length_append] at hlen
  simp only [left] at hlen
  omega

/-- A reader that takes a token leaves fewer tokens to the next one. -/
theorem bind_of_takes (hr : Agree (N + 1) r r') (ht : Takes r) (hf : ∀ a, Agree N (f a) (f' a)) :
    Agree (N + 1) (r >>= f) (r' >>= f') := by
  refine hr.bind_of_length hf fun {ts a rest} hts h => ?_
  have hlt := ht h
  omega

/-- A reader that begins with a token of a kind. -/
theorem after_expect {kind : Kind} {f f' : Token → Reader β} (hf : ∀ t, Agree N (f t) (f' t)) :
    Agree (N + 1) (Reader.expect kind >>= f) (Reader.expect kind >>= f') :=
  (expect kind).bind_of_takes (takes_expect kind) hf

end Agree

/-! ## Readers of all levels -/

section Readers

variable {n n' N : Nat} {expr expr' : Reader Expr} {stmt stmt' : Reader Stmt}
  {body body' : Reader (List Stmt)}

theorem chain_agree {operator : Kind → Option Operator} {operand operand' : Reader Expr}
    (hn : n ≤ n') (h : Agree n operand operand') (e : Expr) :
    Agree n (chain operator operand n e) (chain operator operand' n' e) := by
  induction n generalizing n' e with
  | zero => exact .zero
  | succ n ih =>
    obtain _ | n' := n'
    · omega
    rw [chain_succ, chain_succ]
    refine .peek fun k => ?_
    split
    · exact .pure _
    · refine .after_expect fun sign => ?_
      refine (h.mono (Nat.le_succ n)).bind fun r => ?_
      exact ih (by omega) (h.mono (Nat.le_succ n)) _

/-- An operand and the chain of operators that it begins. -/
theorem joined_agree {operator : Kind → Option Operator} {operand operand' : Reader Expr}
    (hn : n ≤ n') (h : Agree (n + 1) operand operand') (ht : Takes operand) :
    Agree (n + 1) (do chain operator operand n (← operand))
      (do chain operator operand' n' (← operand')) :=
  h.bind_of_takes ht fun e => chain_agree hn (h.mono (Nat.le_succ n)) e

theorem arguments_agree (hn : n ≤ n') (h : Agree n expr expr') (ht : Takes expr) :
    Agree n (arguments expr n) (arguments expr' n') := by
  induction n generalizing n' with
  | zero => exact .zero
  | succ n ih =>
    obtain _ | n' := n'
    · omega
    refine .peek fun k => ?_
    split
    · refine h.bind_of_takes ht fun e => ?_
      exact (ih (by omega) (h.mono (Nat.le_succ n))).bind fun es => .pure _
    · exact .pure _

theorem atom_agree (hn : n ≤ n') (h : Agree n expr expr') (ht : Takes expr) :
    Agree (n + 1) (atom expr n) (atom expr' n') := by
  refine .peek fun k => ?_
  split
  · exact .after_expect fun t => .pure _
  · exact .after_expect fun t => .pure _
  · refine .after_expect fun o => ?_
    refine h.bind fun e => ?_
    exact (Agree.expect _).bind fun c => .pure _
  · refine .after_expect fun o => ?_
    refine (Agree.expect _).bind fun f => ?_
    refine (arguments_agree hn h ht).bind fun es => ?_
    exact (Agree.expect _).bind fun c => .pure _
  · exact .refuse

theorem takes_of_starts {r : Reader Expr} {level : Expr → Phrase}
    (h : Sound r fun e => Derives (level e))
    (hs : ∀ e ts, Derives (level e) ts → (nextKind ts).startsExpr = true) : Takes r :=
  takes_of_sound h fun e ts he => ne_finish_of_startsExpr (hs e ts he)

theorem takes_exprAt (n : Nat) : Takes (exprAt n) :=
  takes_of_starts (exprAt_sound n) fun _ _ he => starts_of_derives he

theorem exprAt_agree (hn : n ≤ n') : Agree n (exprAt n) (exprAt n') := by
  induction n generalizing n' with
  | zero => exact .zero
  | succ n ih =>
    obtain _ | n' := n'
    · omega
    have hn' : n ≤ n' := by omega
    have hs := exprAt_sound n
    have hatom : Takes (atom (exprAt n) n) :=
      takes_of_starts (atom_sound hs n) fun _ _ he => starts_of_derives he
    have hterm : Takes (term (exprAt n) n) :=
      takes_of_starts (term_sound hs n) fun _ _ he => starts_of_derives he
    refine joined_agree hn' ?_ hterm
    exact joined_agree hn' (atom_agree hn' (ih hn') (takes_exprAt n)) hatom

theorem coordinates_agree (h : Agree N expr expr') :
    Agree N (coordinates expr) (coordinates expr') := by
  refine (Agree.expect _).bind fun o => ?_
  refine h.bind fun x => ?_
  refine h.bind fun y => ?_
  exact (Agree.expect _).bind fun c => .pure _

theorem statements_agree (hn : n ≤ n') (h : Agree n stmt stmt') (close : Kind) :
    Agree n (statements stmt close n) (statements stmt' close n') := by
  induction n generalizing n' with
  | zero => exact .zero
  | succ n ih =>
    obtain _ | n' := n'
    · omega
    refine Agree.skipNewlines.bind fun _ => ?_
    refine .peek fun k => ?_
    split
    · exact .pure _
    · refine h.bind fun s => ?_
      refine .peek fun k => ?_
      split
      · exact .pure _
      · refine .after_expect fun sep => ?_
        exact (ih (by omega) (h.mono (Nat.le_succ n))).bind fun ss => .pure _

theorem block_agree (hn : n ≤ n') (h : Agree n stmt stmt') :
    Agree (n + 1) (block stmt n) (block stmt' n') := by
  refine .after_expect fun o => ?_
  refine (statements_agree hn h _).bind fun ss => ?_
  exact (Agree.expect _).bind fun c => .pure _

theorem setting_agree (h : Agree N expr expr') : Agree N (setting expr) (setting expr') := by
  refine .peek fun k => ?_
  split
  · refine (coordinates_agree h).bind fun p => ?_
    exact h.bind fun e => .pure _
  · refine (Agree.expect _).bind fun name => ?_
    refine .peek fun k => ?_
    split
    · exact (coordinates_agree h).bind fun p => .pure _
    · exact h.bind fun e => .pure _

theorem definition_agree (h : Agree N body body') (role : Role) :
    Agree N (definition role body) (definition role body') := by
  refine (Agree.expect _).bind fun name => ?_
  refine Agree.names.bind fun params => ?_
  exact h.bind fun ss => .pure _

theorem afterKeyword_agree (h : Agree N expr expr') (hb : Agree N body body') (word : Keyword) :
    Agree N (afterKeyword expr body word) (afterKeyword expr' body' word) := by
  cases word with
  | paper | pen | value => exact h.bind fun e => .pure _
  | line =>
    refine h.bind fun x₁ => ?_
    refine h.bind fun y₁ => ?_
    refine h.bind fun x₂ => ?_
    exact h.bind fun y₂ => .pure _
  | set => exact setting_agree h
  | loop =>
    refine (Agree.expect _).bind fun counter => ?_
    refine h.bind fun a => ?_
    refine h.bind fun b => ?_
    exact hb.bind fun ss => .pure _
  | command => exact definition_agree hb .command
  | number => exact definition_agree hb .number
  | load => exact (Agree.expect _).bind fun p => .pure _
  | test r =>
    refine h.bind fun a => ?_
    refine h.bind fun b => ?_
    exact hb.bind fun ss => .pure _

theorem stmtAt_agree (hn : n ≤ n') : Agree n (stmtAt n) (stmtAt n') := by
  induction n generalizing n' with
  | zero => exact .zero
  | succ n ih =>
    obtain _ | n' := n'
    · omega
    have hn' : n ≤ n' := by omega
    have hblock := block_agree hn' (ih hn')
    refine .peek fun k => ?_
    split
    · refine .after_expect fun k => ?_
      exact afterKeyword_agree (exprAt_agree hn') (hblock.mono (Nat.le_succ n)) _
    · exact hblock.bind fun ss => .pure _
    · refine .after_expect fun f => ?_
      exact (arguments_agree hn' (exprAt_agree hn') (takes_exprAt n)).bind fun es => .pure _
    · exact .refuse

end Readers

/-! ## Programs -/

/-- Lists of tokens that end in their only `finish`. -/
def EndsOnce (tokens : List Token) : Prop :=
  ∃ body eof, tokens = body ++ [eof] ∧ eof.kind = .finish ∧ ∀ t ∈ body, t.kind ≠ .finish

/-- Lists of tokens that are read as a program. -/
def IsAccepted (tokens : List Token) : Prop :=
  EndsOnce tokens ∧ ∃ p, Program.ofTokens? tokens = .ok p

/-- Lists of tokens that an accepted list begins with. -/
def BeginsProgram (tokens : List Token) : Prop := ∃ more, IsAccepted (tokens ++ more)

theorem ofTokens?_error_iff {tokens rest : List Token} :
    Program.ofTokens? tokens = .error rest ↔ statements (stmtAt (tokens.length + 1)) .finish
      (tokens.length + 1) tokens = .error rest := by
  simp only [Program.ofTokens?]
  cases statements (stmtAt (tokens.length + 1)) .finish (tokens.length + 1) tokens with
  | error e => simp [Except.map]
  | ok r => simp [Except.map]

/-- The tokens in front of those that a rejected list is left with begin some program. -/
theorem beginsProgram_of_error {tokens rest : List Token}
    (h : Program.ofTokens? tokens = .error rest) :
    ∃ before, tokens = before ++ rest ∧ BeginsProgram before ∧ ∀ t ∈ before, t.kind ≠ .finish := by
  obtain ⟨before, more, ss, hbefore, hss⟩ :=
    (statements_completable (stmtAt_sound _) (stmtAt_completable _) .finish _).of_error
      (ofTokens?_error_iff.1 h)
  have hfinish := kind_ne_finish_of_mem hss
  refine ⟨before, hbefore, ⟨more ++ [sample .finish], ?_⟩, fun t ht => ?_⟩
  · rw [← List.append_assoc]
    exact ⟨⟨before ++ more, _, rfl, rfl, hfinish⟩, ss, ofTokens?_of_isProgram (.intro hss rfl)⟩
  · exact hfinish t (List.mem_append_left _ ht)

/-- A program is read at every level that exceeds the number of its tokens. -/
theorem statements_of_isProgram {p : Program} {tokens : List Token} (h : IsProgram p tokens)
    {n : Nat} (hn : tokens.length < n) :
    ∃ rest, statements (stmtAt n) .finish n tokens = .ok (p, rest) := by
  cases h with
  | intro hd hfinish =>
    have hread := accepted_of_derives hd n n _ hn hn
    rw [nextKind_cons, hfinish] at hread
    exact ⟨_, hread (.inr (.inr rfl)) (by simp)⟩

/-- No program begins with the tokens up to the first one that a rejected list is left with. -/
theorem not_beginsProgram_of_error {before after : List Token} {t : Token}
    (h : Program.ofTokens? (before ++ t :: after) = .error (t :: after)) :
    ¬ BeginsProgram (before ++ [t]) := by
  rintro ⟨more, ⟨body, eof, hbody, heof, hfinish⟩, p, hp⟩
  rw [hbody] at hp
  have hprogram := isProgram_of_ofTokens? heof hfinish hp
  rw [← hbody, List.append_assoc, List.singleton_append] at hprogram
  -- both lists are read at one level, which exceeds the lengths of both
  let n := max ((before ++ t :: after).length + 1) ((before ++ t :: more).length + 1)
  have hn : (before ++ t :: after).length + 1 ≤ n := Nat.le_max_left _ _
  obtain ⟨_, hread⟩ := statements_of_isProgram hprogram (n := n) (Nat.le_max_right _ _)
  have hagree := statements_agree hn (stmtAt_agree hn) .finish (Nat.lt_succ_self _)
  rw [ofTokens?_error_iff.1 h] at hagree
  obtain ⟨used, hused, hrest⟩ := hagree
  obtain rfl := List.append_cancel_right hused
  rw [hrest (t :: more) rfl] at hread
  cases hread

/-- A rejected list of tokens that ends in its only `finish` is blamed on the start of one of its
tokens, and that is the first impossible one: the tokens in front of it begin some program, and with
it they begin none. -/
theorem blames_first_impossible (tokens : List Token) (hend : EndsOnce tokens)
    (hreject : ∀ p, Program.ofTokens? tokens ≠ .ok p) :
    ∃ before t after, tokens = before ++ t :: after ∧
      (Program.ofTokens? tokens).mapError blamed = .error t.start ∧
      BeginsProgram before ∧ ¬ BeginsProgram (before ++ [t]) := by
  cases h : Program.ofTokens? tokens with
  | ok p => exact absurd h (hreject p)
  | error rest =>
    obtain ⟨before, rfl, hbegins, hfinish⟩ := beginsProgram_of_error h
    cases rest with
    | nil =>
      -- the last token ends the text, and no token that was taken does
      obtain ⟨body, eof, hbody, heof, -⟩ := hend
      have hmem : eof ∈ before := by
        rw [List.append_nil] at hbody
        simp [hbody]
      exact absurd heof (hfinish eof hmem)
    | cons t after => exact ⟨before, t, after, rfl, rfl, hbegins, not_beginsProgram_of_error h⟩

/-- The tokens of `{ Paper <F (2 + ] >`, where the square bracket fits nothing. -/
def strayTokens : List Token :=
  [⟨.mark .openBrace, "\x7b", ⟨"", 1, 1⟩, ⟨"", 1, 2⟩⟩,
    ⟨.keyword .paper, "Paper", ⟨"", 1, 3⟩, ⟨"", 1, 8⟩⟩,
    ⟨.mark .openAngle, "<", ⟨"", 1, 9⟩, ⟨"", 1, 10⟩⟩,
    ⟨.name, "F", ⟨"", 1, 10⟩, ⟨"", 1, 11⟩⟩, ⟨.mark .openParen, "(", ⟨"", 1, 12⟩, ⟨"", 1, 13⟩⟩,
    ⟨.integer, "2", ⟨"", 1, 13⟩, ⟨"", 1, 14⟩⟩, ⟨.mark .plus, "+", ⟨"", 1, 15⟩, ⟨"", 1, 16⟩⟩,
    ⟨.mark .closeBracket, "]", ⟨"", 1, 17⟩, ⟨"", 1, 18⟩⟩,
    ⟨.mark .closeAngle, ">", ⟨"", 1, 19⟩, ⟨"", 1, 20⟩⟩, ⟨.finish, "", ⟨"", 1, 20⟩, ⟨"", 1, 20⟩⟩]

/-- A bracket inside parentheses, a call and a block is to blame, and not what is left open. -/
theorem stray_bracket_blamed :
    EndsOnce strayTokens ∧ (∀ p, Program.ofTokens? strayTokens ≠ .ok p) ∧
      ∃ before t after, strayTokens = before ++ t :: after ∧ t.start = ⟨"", 1, 17⟩ ∧
        BeginsProgram before ∧ ¬ BeginsProgram (before ++ [t]) := by
  have hend : EndsOnce strayTokens :=
    ⟨strayTokens.dropLast, ⟨.finish, "", ⟨"", 1, 20⟩, ⟨"", 1, 20⟩⟩, rfl, rfl, by decide⟩
  have herror : Program.ofTokens? strayTokens = .error (strayTokens.drop 7) := rfl
  have hreject : ∀ p, Program.ofTokens? strayTokens ≠ .ok p := by
    intro p hp
    rw [herror] at hp
    cases hp
  obtain ⟨before, t, after, hsplit, hblame, hbegins, hnot⟩ :=
    blames_first_impossible strayTokens hend hreject
  rw [herror] at hblame
  exact ⟨hend, hreject, before, t, after, hsplit, (Except.error.inj hblame).symm, hbegins, hnot⟩

end DrawLang.Grammar
