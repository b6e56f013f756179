import DrawLang.Proofs.Grammar.Cursor

/-!
# Readers with a cursor follow the readers of tokens

A reader with a cursor does from every place what the reader of tokens does with the tokens from
that place on. The comparison goes through the text of both readers at once, and it keeps account of
how far the cursor has moved: a loop or a nested call has one round or level less than what stands
around it, and it comes after a token at least, so what is left suffices for the tokens that are
left.

* `Follows`: one part of a program, read in both ways.
* `Advances`, `Proceeds`: parts that take tokens, and parts that may take none.
* `Turns.proceeds`: a loop ends, because its rounds get forward.
* `exprAt_advances`, `stmtAt_advances`: expressions and statements.
-/

namespace DrawLang.Cursor

variable {tokens : List Token} {limit pos next n N : Nat} {kind : Kind} {t : Token}

/-! ## Where the cursor stands -/

/-- The cursor stands on a token of a kind. -/
def Stands (tokens : List Token) (pos : Nat) (kind : Kind) : Prop :=
  ∃ t, tokens[pos]? = some t ∧ t.kind = kind

/-- Behind every token that does not end the text stands another one. -/
def Closed (tokens : List Token) : Prop :=
  ∀ ⦃pos kind⦄, Stands tokens pos kind → kind ≠ .finish → pos + 1 < tokens.length

theorem exists_stands (h : pos < tokens.length) : ∃ kind, Stands tokens pos kind :=
  ⟨_, tokens[pos], List.getElem?_eq_getElem h, rfl⟩

theorem Stands.drop (h : Stands tokens pos kind) :
    ∃ t, tokens[pos]? = some t ∧ t.kind = kind ∧ tokens.drop pos = t :: tokens.drop (pos + 1) := by
  obtain ⟨t, ht, hk⟩ := h
  obtain ⟨hlt, rfl⟩ := List.getElem?_eq_some_iff.1 ht
  exact ⟨_, ht, hk, List.drop_eq_getElem_cons hlt⟩

theorem Stands.nextKind (h : Stands tokens pos kind) :
    Reader.nextKind (tokens.drop pos) = kind := by
  obtain ⟨t, -, hk, hdrop⟩ := h.drop
  rw [hdrop, Reader.nextKind_cons, hk]

/-! ## Single steps -/

section Steps

variable {α β : Type} {s : Scan α} {f : α → Scan β} {a : α}

theorem bind_of_ok (h : s pos = .ok (a, next)) : (s >>= f) pos = f a next := by
  simp only [bind, StateT.bind, Except.bind, h]

theorem bind_of_error {stop : Stop} (h : s pos = .error stop) : (s >>= f) pos = .error stop := by
  simp only [bind, StateT.bind, Except.bind, h]

theorem current_apply (h : tokens[pos]? = some t) : current tokens pos = .ok (t, pos) := by
  simp only [current, h]

theorem peek_apply (h : Stands tokens pos kind) : peek tokens pos = .ok (kind, pos) := by
  obtain ⟨t, ht, rfl⟩ := h
  rw [peek, bind_of_ok (current_apply ht)]
  rfl

theorem advance_apply (ht : tokens[pos]? = some t) (hlast : pos + 1 < tokens.length) :
    advance tokens pos = .ok (t, pos + 1) := by
  rw [advance, bind_of_ok (current_apply ht)]
  show Except.ok (t, if pos + 1 < tokens.length then pos + 1 else pos) = _
  rw [if_pos hlast]

theorem refuse_apply (ht : tokens[pos]? = some t) :
    (refuse tokens : Scan α) pos = .error (.refused t.start) := by
  rw [refuse, bind_of_ok (current_apply ht)]
  rfl

end Steps

/-! ## Going on together -/

/-- Ways in which a reader with a cursor can end when it starts at a place, seen from a reader of
the tokens from there. It arrives at a place in the list, and what the reader of tokens comes to is
what the readers `rest` come to from that place. It refuses a token which the reader of tokens
refuses too. Or it runs out of rounds or levels, but only if the list is longer than the limit. -/
inductive Follows {α β : Type} (tokens : List Token) (limit : Nat) (s : Scan α) (pos : Nat)
    (r : Reader β) (rest : α → Reader β) (Q : α → Nat → Prop) : Prop where
  | arrives {a : α} {next : Nat} : s pos = .ok (a, next) → Q a next → next < tokens.length →
      r (tokens.drop pos) = rest a (tokens.drop next) → Follows tokens limit s pos r rest Q
  | refuses (us : List Token) : s pos = .error (.refused (blamed us)) →
      r (tokens.drop pos) = .error us → Follows tokens limit s pos r rest Q
  | stops : s pos = .error .unfinished → limit < tokens.length →
      Follows tokens limit s pos r rest Q

namespace Follows

variable {α β γ : Type} {s : Scan α} {f : α → Scan γ} {r : Reader β} {rest : α → Reader β}
  {rest' : γ → Reader β} {Q : α → Nat → Prop} {Q' : γ → Nat → Prop}

theorem mono {P : α → Nat → Prop} (h : Follows tokens limit s pos r rest Q)
    (hP : ∀ a next, Q a next → P a next) : Follows tokens limit s pos r rest P := by
  cases h with
  | arrives hs hQ hnext hr => exact .arrives hs (hP _ _ hQ) hnext hr
  | refuses us hs hr => exact .refuses us hs hr
  | stops hs hlimit => exact .stops hs hlimit

/-- A step of both readers, and what follows it. -/
theorem step {r' : Reader β} {a : α} (hs : s pos = .ok (a, next))
    (hr : r (tokens.drop pos) = r' (tokens.drop next))
    (h : Follows tokens limit (f a) next r' rest' Q') :
    Follows tokens limit (s >>= f) pos r rest' Q' := by
  have hbind : (s >>= f) pos = f a next := bind_of_ok hs
  cases h with
  | arrives hf hQ hnext hrest => exact .arrives (hbind.trans hf) hQ hnext (hr.trans hrest)
  | refuses us hf hrest => exact .refuses us (hbind.trans hf) (hr.trans hrest)
  | stops hf hlimit => exact .stops (hbind.trans hf) hlimit

/-- Two parts in a row, the second of which is read by the readers that the first one leaves. -/
theorem andThen (h : Follows tokens limit s pos r rest Q)
    (hf : ∀ a next, Q a next → next < tokens.length →
      Follows tokens limit (f a) next (rest a) rest' Q') :
    Follows tokens limit (s >>= f) pos r rest' Q' := by
  cases h with
  | arrives hs hQ hnext hr => exact .step hs hr (hf _ _ hQ hnext)
  | refuses us hs hr => exact .refuses us (bind_of_error hs) hr
  | stops hs hlimit => exact .stops (bind_of_error hs) hlimit

/-- A reader of a part, in front of readers to go on with. -/
theorem into {r : Reader α} {rest : α → Reader γ} (h : Follows tokens limit s pos r pure Q) :
    Follows tokens limit s pos (r >>= rest) rest Q := by
  cases h with
  | arrives hs hQ hnext hr => exact .arrives hs hQ hnext (Reader.bind_of_ok hr)
  | refuses us hs hr =>
    refine .refuses us hs ?_
    simp only [bind, StateT.bind, Except.bind, hr]
  | stops hs hlimit => exact .stops hs hlimit

/-- A part that both readers read, and what follows it. -/
theorem bind {r : Reader α} {g : α → Reader β} (h : Follows tokens limit s pos r pure Q)
    (hf : ∀ a next, Q a next → next < tokens.length →
      Follows tokens limit (f a) next (g a) rest' Q') :
    Follows tokens limit (s >>= f) pos (r >>= g) rest' Q' :=
  h.into.andThen hf

theorem pure {a : α} (hpos : pos < tokens.length) (hQ : Q a pos) (hr : r = rest a) :
    Follows tokens limit (Pure.pure a) pos r rest Q :=
  .arrives rfl hQ hpos (congrFun hr _)

theorem unfinished (h : limit < tokens.length) :
    Follows tokens limit (throw .unfinished : Scan α) pos r rest Q := .stops rfl h

theorem refuse (hpos : pos < tokens.length) :
    Follows tokens limit (Cursor.refuse tokens : Scan α) pos Reader.refuse rest Q := by
  obtain ⟨kind, hstands⟩ := exists_stands hpos
  obtain ⟨t, ht, -, hdrop⟩ := hstands.drop
  refine .refuses (tokens.drop pos) ?_ rfl
  rw [refuse_apply ht, hdrop]
  rfl

theorem peek {f : Kind → Scan α} {g : Kind → Reader β} (hpos : pos < tokens.length)
    (h : ∀ kind, Stands tokens pos kind → Follows tokens limit (f kind) pos (g kind) rest Q) :
    Follows tokens limit (Cursor.peek tokens >>= f) pos (Reader.peek >>= g) rest Q := by
  obtain ⟨kind, hstands⟩ := exists_stands hpos
  refine .step (peek_apply hstands) ?_ (h kind hstands)
  rw [Reader.peek_bind, hstands.nextKind]

/-- Where another kind of token stands than the one that ends the text, the cursor gets forward. -/
theorem advance {f : Token → Scan α} {g : Token → Reader β} (hclosed : Closed tokens)
    (hstands : Stands tokens pos kind) (hne : kind ≠ .finish)
    (h : ∀ t, pos + 1 < tokens.length → Follows tokens limit (f t) (pos + 1) (g t) rest Q) :
    Follows tokens limit (Cursor.advance tokens >>= f) pos (Reader.expect kind >>= g) rest Q := by
  have hnext := hclosed hstands hne
  obtain ⟨t, ht, hk, hdrop⟩ := hstands.drop
  refine .step (advance_apply ht hnext) ?_ (h t hnext)
  rw [hdrop, Reader.bind_of_ok (Reader.expect_cons hk)]

theorem expect {f : Token → Scan α} {g : Token → Reader β} (hclosed : Closed tokens)
    (hpos : pos < tokens.length) (hne : kind ≠ .finish)
    (h : ∀ t, pos + 1 < tokens.length → Follows tokens limit (f t) (pos + 1) (g t) rest Q) :
    Follows tokens limit (Cursor.expect tokens kind >>= f) pos (Reader.expect kind >>= g)
      rest Q := by
  obtain ⟨_, hstands⟩ := exists_stands hpos
  obtain ⟨t, ht, rfl, hdrop⟩ := hstands.drop
  by_cases hk : t.kind = kind
  · have hnext := hclosed hstands (hk ▸ hne)
    refine .step ?_ ?_ (h t hnext)
    · rw [Cursor.expect, bind_of_ok (peek_apply hstands), if_pos hk, advance_apply ht hnext]
    · rw [hdrop, Reader.bind_of_ok (Reader.expect_cons hk)]
  · refine .refuses (tokens.drop pos) (bind_of_error ?_) ?_
    · rw [Cursor.expect, bind_of_ok (peek_apply hstands), if_neg hk, refuse_apply ht, hdrop]
      rfl
    · simp only [hdrop, Bind.bind, StateT.bind, Except.bind, Reader.expect, if_neg hk]

end Follows

/-! ## Parts of programs -/

/-- Both readers read a part of a program, and the cursor gets forward. The `n` rounds or levels
that are given do not run out in front of `n` tokens or fewer. -/
def Advances {α : Type} (tokens : List Token) (n : Nat) (s : Scan α) (r : Reader α) : Prop :=
  ∀ ⦃pos limit⦄, pos < tokens.length → limit ≤ n + pos →
    Follows tokens limit s pos r pure fun _ next => pos < next

/-- The same of a part that may be empty. -/
def Proceeds {α : Type} (tokens : List Token) (n : Nat) (s : Scan α) (r : Reader α) : Prop :=
  ∀ ⦃pos limit⦄, pos < tokens.length → limit ≤ n + pos →
    Follows tokens limit s pos r pure fun _ next => pos ≤ next

theorem Advances.mono {α : Type} {s : Scan α} {r : Reader α} (h : Advances tokens N s r)
    (hn : n ≤ N) : Advances tokens n s r := fun _ _ hpos hlimit => h hpos (by omega)

/-- What is left to a reader after a round of a loop. -/
def resume {σ β : Type} (again : σ → Reader β) : Turn σ β → Reader β
  | .again state => again state
  | .leave result => pure result

/-- Where a round leaves the cursor: further on, if the loop goes on. -/
def TurnsAt {σ β : Type} (pos : Nat) : Turn σ β → Nat → Prop
  | .again _, next => pos < next
  | .leave _, next => pos ≤ next

/-- Rounds of a loop, seen from readers of the whole loop: `r (m + 1)` goes on with `r m`. -/
def Turns {σ β : Type} (tokens : List Token) (N : Nat) (round : σ → Scan (Turn σ β))
    (r : Nat → σ → Reader β) : Prop :=
  ∀ ⦃m state pos limit⦄, pos < tokens.length → limit ≤ N + pos →
    Follows tokens limit (round state) pos (r (m + 1) state) (resume (r m)) (TurnsAt pos)

/-- A loop ends, since each of its rounds gets forward. -/
theorem Turns.proceeds {σ β : Type} {round : σ → Scan (Turn σ β)} {r : Nat → σ → Reader β}
    (h : Turns tokens N round r) (hn : n ≤ N) (state : σ) :
    Proceeds tokens n (rounds round n state) (r n state) := by
  induction n generalizing state with
  | zero =>
    intro pos limit hpos hlimit
    exact .unfinished (by omega)
  | succ n ih =>
    intro pos limit hpos hlimit
    refine (h hpos (by omega)).andThen fun turn next hturn hnext => ?_
    cases turn with
    | again state =>
      -- the round has taken a token, so one round less will do
      have hforward : pos < next := hturn
      exact (ih (by omega) state hnext (by omega)).mono fun _ _ h => by omega
    | leave result => exact .pure hnext hturn rfl

section Parts

variable {expr : Scan Expr} {expr' : Reader Expr} {stmt : Scan Stmt} {stmt' : Reader Stmt}
  {body : Scan (List Stmt)} {body' : Reader (List Stmt)}

/-- One round of taking line ends. -/
theorem skipNewlines_eq : Reader.skipNewlines = (do
    if (← Reader.peek) = .newline then
      let _ ← Reader.expect .newline
      Reader.skipNewlines
    else
      return ()) := by
  funext ts
  cases ts with
  | nil => rfl
  | cons t ts =>
    by_cases h : t.kind = .newline
    · rw [Reader.peek_bind, Reader.nextKind_cons, if_pos h,
        Reader.bind_of_ok (Reader.expect_cons h), Reader.skipNewlines_apply,
        Reader.skipNewlines_apply, List.dropWhile_cons_of_pos (by simpa using h)]
    · rw [Reader.peek_bind, Reader.nextKind_cons, if_neg h, Reader.skipNewlines_apply,
        List.dropWhile_cons_of_neg (by simpa using h)]
      rfl

/-- One round of taking names behind those that have been taken. -/
theorem names_eq (before : List String) : (do return before ++ (← Reader.names)) = (do
    if (← Reader.peek) = .name then
      let name ← Reader.expect .name
      return before ++ [name.text] ++ (← Reader.names)
    else
      return before) := by
  funext ts
  rw [Reader.bind_of_ok (Reader.names_apply ts), Reader.peek_bind]
  cases ts with
  | nil => simp [Reader.nextKind]
  | cons t ts =>
    rw [Reader.nextKind_cons]
    by_cases h : t.kind = .name
    · rw [if_pos h, Reader.bind_of_ok (Reader.expect_cons h),
        Reader.bind_of_ok (Reader.names_apply ts)]
      simp [h]
    · rw [if_neg h]
      simp [h]

theorem newlineRound_turns (hclosed : Closed tokens) :
    Turns tokens N (newlineRound tokens) fun _ _ => Reader.skipNewlines := by
  intro m state pos limit hpos hlimit
  rw [skipNewlines_eq]
  refine .peek hpos fun kind hstands => ?_
  split
  · rename_i hkind
    refine .advance hclosed (hkind ▸ hstands) nofun fun t hnext => ?_
    exact .pure hnext (Nat.lt_succ_self pos) skipNewlines_eq
  · exact .pure hpos (Nat.le_refl pos) rfl

theorem skipNewlines_proceeds (hclosed : Closed tokens) (n : Nat) :
    Proceeds tokens n (skipNewlines tokens n) Reader.skipNewlines :=
  (newlineRound_turns hclosed).proceeds (Nat.le_refl n) ()

theorem nameRound_turns (hclosed : Closed tokens) :
    Turns tokens N (nameRound tokens) fun _ names => (do return names ++ (← Reader.names)) := by
  intro m before pos limit hpos hlimit
  show Follows tokens limit _ pos (do return before ++ (← Reader.names)) _ _
  rw [names_eq before]
  refine .peek hpos fun kind hstands => ?_
  split
  · rename_i hkind
    refine .advance hclosed (hkind ▸ hstands) nofun fun name hnext => ?_
    exact .pure hnext (Nat.lt_succ_self pos) rfl
  · exact .pure hpos (Nat.le_refl pos) rfl

theorem names_proceeds (hclosed : Closed tokens) (n : Nat) :
    Proceeds tokens n (names tokens n) Reader.names := by
  have h := (nameRound_turns hclosed).proceeds (Nat.le_refl n) []
  simpa [names] using h

/-! ### Expressions -/

theorem operatorRound_turns (hclosed : Closed tokens) {operator : Kind → Option Operator}
    (hop : operator .finish = none) {operand : Scan Expr} {operand' : Reader Expr}
    (h : Advances tokens N operand operand') :
    Turns tokens N (operatorRound tokens operator operand)
      fun m left => Reader.chain operator operand' m left := by
  intro m left pos limit hpos hlimit
  simp only [Reader.chain_succ, operatorRound]
  refine .peek hpos fun kind hstands => ?_
  cases hkind : operator kind with
  | none => exact .pure hpos (Nat.le_refl pos) rfl
  | some op =>
    -- the cursor would stay where it is on a token that ends the text
    have hne : kind ≠ .finish := by
      rintro rfl
      rw [hop] at hkind
      cases hkind
    refine .advance hclosed hstands hne fun sign hnext => ?_
    refine (h hnext (by omega)).bind fun right next hlt hnext => ?_
    exact .pure hnext (show pos < next by omega) rfl

theorem chain_proceeds (hclosed : Closed tokens) {operator : Kind → Option Operator}
    (hop : operator .finish = none) {operand : Scan Expr} {operand' : Reader Expr}
    (h : Advances tokens N operand operand') (hn : n ≤ N) (left : Expr) :
    Proceeds tokens n (chain tokens operator operand n left)
      (Reader.chain operator operand' n left) :=
  (operatorRound_turns hclosed hop h).proceeds hn left

theorem argumentRound_turns (h : Advances tokens N expr expr') :
    Turns tokens N (argumentRound tokens expr)
      fun m args => (do return args ++ (← Reader.arguments expr' m)) := by
  intro m args pos limit hpos hlimit
  simp only [Reader.arguments, argumentRound, bind_assoc]
  refine .peek hpos fun kind hstands => ?_
  split
  · simp only [bind_assoc, pure_bind]
    refine (h hpos (by omega)).bind fun arg next hlt hnext => ?_
    refine .pure hnext hlt ?_
    simp [resume]
  · refine .pure hpos (Nat.le_refl pos) ?_
    simp [resume]

theorem arguments_proceeds (h : Advances tokens n expr expr') :
    Proceeds tokens n (arguments tokens expr n) (Reader.arguments expr' n) := by
  have hloop := (argumentRound_turns h).proceeds (Nat.le_refl n) []
  simpa [arguments] using hloop

theorem atom_advances (hclosed : Closed tokens) (h : Advances tokens n expr expr') :
    Advances tokens (n + 1) (atom tokens expr n) (Reader.atom expr' n) := by
  intro pos limit hpos hlimit
  refine .peek hpos fun kind hstands => ?_
  cases kind with
  | integer =>
    refine .advance hclosed hstands nofun fun t hnext => ?_
    exact .pure hnext (Nat.lt_succ_self pos) rfl
  | name =>
    refine .advance hclosed hstands nofun fun t hnext => ?_
    exact .pure hnext (Nat.lt_succ_self pos) rfl
  | mark mark =>
    cases mark with
    | openParen =>
      refine .advance hclosed hstands nofun fun o hnext => ?_
      refine (h hnext (by omega)).bind fun inner next hlt hnext => ?_
      refine .expect hclosed hnext nofun fun c hnext => ?_
      exact .pure hnext (by omega) rfl
    | openAngle =>
      refine .advance hclosed hstands nofun fun o hnext => ?_
      refine .expect hclosed hnext nofun fun callee hnext => ?_
      refine (arguments_proceeds h hnext (by omega)).bind fun args next hle hnext => ?_
      refine .expect hclosed hnext nofun fun c hnext => ?_
      exact .pure hnext (by omega) rfl
    | _ => exact .refuse hpos
  | _ => exact .refuse hpos

/-- An operand and the chain of operators that it begins. -/
theorem joined_advances (hclosed : Closed tokens) {operator : Kind → Option Operator}
    (hop : operator .finish = none) {operand : Scan Expr} {operand' : Reader Expr}
    (h : Advances tokens (n + 1) operand operand') :
    Advances tokens (n + 1) (do chain tokens operator operand n (← operand))
      (do Reader.chain operator operand' n (← operand')) := by
  intro pos limit hpos hlimit
  refine (h hpos hlimit).bind fun left next hlt hnext => ?_
  refine (chain_proceeds hclosed hop h (Nat.le_succ n) left hnext (by omega)).mono ?_
  exact fun _ _ hle => Nat.lt_of_lt_of_le hlt hle

theorem term_advances (hclosed : Closed tokens) (h : Advances tokens n expr expr') :
    Advances tokens (n + 1) (term tokens expr n) (Reader.term expr' n) :=
  joined_advances hclosed rfl (atom_advances hclosed h)

theorem exprAt_advances (hclosed : Closed tokens) (n : Nat) :
    Advances tokens n (exprAt tokens n) (Reader.exprAt n) := by
  induction n with
  | zero => exact fun pos limit hpos hlimit => .unfinished (by omega)
  | succ n ih => exact joined_advances hclosed rfl (term_advances hclosed ih)

/-! ### Statements -/

theorem coordinates_advances (hclosed : Closed tokens) (h : Advances tokens n expr expr') :
    Advances tokens n (coordinates tokens expr) (Reader.coordinates expr') := by
  intro pos limit hpos hlimit
  refine .expect hclosed hpos nofun fun o hnext => ?_
  refine (h hnext (by omega)).bind fun x next hx hnext => ?_
  refine (h hnext (by omega)).bind fun y next hy hnext => ?_
  refine .expect hclosed hnext nofun fun c hnext => ?_
  exact .pure hnext (by omega) rfl

theorem statementRound_turns (hclosed : Closed tokens) (h : Advances tokens N stmt stmt')
    (close : Kind) : Turns tokens N (statementRound tokens stmt close N)
      fun m stmts => (do return stmts ++ (← Reader.statements stmt' close m)) := by
  intro m stmts pos limit hpos hlimit
  simp only [Reader.statements, statementRound, bind_assoc]
  refine (skipNewlines_proceeds hclosed N hpos hlimit).bind fun _ next hle hnext => ?_
  refine .peek hnext fun kind hstands => ?_
  split
  · refine .pure hnext hle ?_
    simp [resume]
  · simp only [bind_assoc]
    refine (h hnext (by omega)).bind fun first next hlt hnext => ?_
    refine .peek hnext fun kind hstands => ?_
    split
    · exact .pure hnext (show pos ≤ next by omega) rfl
    · simp only [bind_assoc]
      refine .expect hclosed hnext nofun fun sep hnext => ?_
      refine .pure hnext (show pos < _ by omega) ?_
      simp [resume]

theorem statements_proceeds (hclosed : Closed tokens) (h : Advances tokens n stmt stmt')
    (close : Kind) : Proceeds tokens n (statements tokens stmt close n)
      (Reader.statements stmt' close n) := by
  have hloop := (statementRound_turns hclosed h close).proceeds (Nat.le_refl n) []
  simpa [statements] using hloop

theorem block_advances (hclosed : Closed tokens) (h : Advances tokens n stmt stmt') :
    Advances tokens (n + 1) (block tokens stmt n) (Reader.block stmt' n) := by
  intro pos limit hpos hlimit
  refine .expect hclosed hpos nofun fun o hnext => ?_
  refine (statements_proceeds hclosed h _ hnext (by omega)).bind fun body next hle hnext => ?_
  refine .expect hclosed hnext nofun fun c hnext => ?_
  exact .pure hnext (by omega) rfl

theorem setting_advances (hclosed : Closed tokens) (h : Advances tokens n expr expr') :
    Advances tokens n (setting tokens expr) (Reader.setting expr') := by
  intro pos limit hpos hlimit
  simp only [setting, Reader.setting]
  refine .peek hpos fun kind hstands => ?_
  split
  · refine (coordinates_advances hclosed h hpos hlimit).bind fun p next hp hnext => ?_
    refine (h hnext (by omega)).bind fun e next he hnext => ?_
    exact .pure hnext (by omega) rfl
  · refine .expect hclosed hpos nofun fun target hnext => ?_
    refine .peek hnext fun kind hstands => ?_
    split
    · refine (coordinates_advances hclosed h hnext (by omega)).bind fun p next hp hnext => ?_
      exact .pure hnext (by omega) rfl
    · refine (h hnext (by omega)).bind fun e next he hnext => ?_
      exact .pure hnext (by omega) rfl

theorem definition_advances (hclosed : Closed tokens) (h : Advances tokens n body body')
    (role : Role) :
    Advances tokens n (definition tokens role body n) (Reader.definition role body') := by
  intro pos limit hpos hlimit
  refine .expect hclosed hpos nofun fun name hnext => ?_
  refine (names_proceeds hclosed n hnext (by omega)).bind fun params next hle hnext => ?_
  refine (h hnext (by omega)).bind fun stmts next hlt hnext => ?_
  exact .pure hnext (by omega) rfl

theorem afterKeyword_advances (hclosed : Closed tokens) (he : Advances tokens n expr expr')
    (hb : Advances tokens n body body') (word : Keyword) :
    Advances tokens n (afterKeyword tokens expr body n word)
      (Reader.afterKeyword expr' body' word) := by
  intro pos limit hpos hlimit
  cases word with
  | paper | pen | value =>
    refine (he hpos hlimit).bind fun e next hlt hnext => ?_
    exact .pure hnext hlt rfl
  | line =>
    refine (he hpos hlimit).bind fun x₁ next h₁ hnext => ?_
    refine (he hnext (by omega)).bind fun y₁ next h₂ hnext => ?_
    refine (he hnext (by omega)).bind fun x₂ next h₃ hnext => ?_
    refine (he hnext (by omega)).bind fun y₂ next h₄ hnext => ?_
    exact .pure hnext (by omega) rfl
  | set => exact setting_advances hclosed he hpos hlimit
  | loop =>
    refine .expect hclosed hpos nofun fun counter hnext => ?_
    refine (he hnext (by omega)).bind fun a next h₁ hnext => ?_
    refine (he hnext (by omega)).bind fun b next h₂ hnext => ?_
    refine (hb hnext (by omega)).bind fun stmts next h₃ hnext => ?_
    exact .pure hnext (by omega) rfl
  | command => exact definition_advances hclosed hb .command hpos hlimit
  | number => exact definition_advances hclosed hb .number hpos hlimit
  | load =>
    refine .expect hclosed hpos nofun fun p hnext => ?_
    exact .pure hnext (Nat.lt_succ_self pos) rfl
  | test relation =>
    refine (he hpos hlimit).bind fun a next h₁ hnext => ?_
    refine (he hnext (by omega)).bind fun b next h₂ hnext => ?_
    refine (hb hnext (by omega)).bind fun stmts next h₃ hnext => ?_
    exact .pure hnext (by omega) rfl

theorem stmtAt_advances (hclosed : Closed tokens) (n : Nat) :
    Advances tokens n (stmtAt tokens n) (Reader.stmtAt n) := by
  induction n with
  | zero => exact fun pos limit hpos hlimit => .unfinished (by omega)
  | succ n ih =>
    intro pos limit hpos hlimit
    have hexpr := exprAt_advances hclosed n
    have hblock := block_advances hclosed ih
    refine .peek hpos fun kind hstands => ?_
    cases kind with
    | keyword word =>
      refine .advance hclosed hstands nofun fun t hnext => ?_
      refine (afterKeyword_advances hclosed hexpr (hblock.mono (Nat.le_succ n)) word hnext
        (by omega)).mono ?_
      exact fun _ _ hlt => Nat.lt_of_succ_lt hlt
    | mark mark =>
      cases mark with
      | openBrace =>
        refine (hblock hpos hlimit).bind fun stmts next hlt hnext => ?_
        exact .pure hnext hlt rfl
      | _ => exact .refuse hpos
    | name =>
      refine .advance hclosed hstands nofun fun callee hnext => ?_
      refine (arguments_proceeds hexpr hnext (by omega)).bind fun args next hle hnext => ?_
      exact .pure hnext (by omega) rfl
    | _ => exact .refuse hpos

end Parts

end DrawLang.Cursor
