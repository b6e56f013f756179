import DrawLang.Interpreter
import DrawLang.Proofs.Grammar.Blame
import DrawLang.Proofs.RoundTrip
import DrawLang.Proofs.Tiling

/-!
# Trees point at their text

The places in a tree are those of tokens, and the places of a token are those of its characters. So
a fault that a tree can list points at the text that the tree was read from, just past what the
fault is about.

* `exists_chars_of_mem`: a token in its text.
* `Fault.PointsAt`: faults that point at a text.
* `Stmt.FaultsIn`: the faults that a statement can list by itself.
* `textFaultsIn_of_pointsAt`: the faults of a text point at that text.
-/

namespace DrawLang

open Grammar

/-! ## Tokens in their text -/

def Token.chars (t : Token) : List Char :=
  if t.kind = .quoted then '"' :: (t.text.toList ++ ['"']) else t.text.toList

theorem Lexeme.chars_token {l : Lexeme} {after : List Char} (h : l = .finish ∨ l.Whole after)
    (file : String) (before : List Char) : (l.token file before).chars = l.chars := by
  rcases h with rfl | h
  · rfl
  · cases h <;> simp [Token.chars, Lexeme.token, Lexeme.single]

theorem Lexeme.text_of_mark {l : Lexeme} {m : Mark} {after : List Char} (h : l.Whole after)
    (hm : l.kind = .mark m) : l.text = [m.char] := by
  cases h <;> cases hm
  rfl

theorem exists_lexeme_of_mem_tiles {file : String} {before cs : List Char} {ts : List Token}
    {t : Token} (h : Tiles file before cs ts) (ht : t ∈ ts) :
    ∃ (l : Lexeme) (front after : List Char), before ++ cs = front ++ (l.chars ++ after) ∧
      t = l.token file front ∧ (l = .finish ∨ l.Whole after) := by
  induction h with
  | @finish before gap =>
    obtain rfl := List.mem_singleton.1 ht
    exact ⟨.finish, before ++ gap, [], by simp [Lexeme.finish], rfl, .inl rfl⟩
  | @lexeme before gap rest l ts _ hl _ ih =>
    rcases List.mem_cons.1 ht with rfl | ht
    · exact ⟨l, before ++ gap, rest, (List.append_assoc _ _ _).symm, rfl, .inr hl⟩
    · obtain ⟨l', front, after, happend, h⟩ := ih ht
      refine ⟨l', front, after, ?_, h⟩
      rw [← happend]
      simp only [List.append_assoc]

section Tokens

variable {file text : String} {t : Token}

/-- A token stands somewhere in its text, written with its characters; it starts in front of them,
and it has ended behind them. -/
theorem exists_chars_of_mem (ht : t ∈ tokenize file text) :
    ∃ before after, text.toList = before ++ (t.chars ++ after) ∧
      t.start = placeAfter file before ∧ t.stop = placeAfter file (before ++ t.chars) := by
  obtain ⟨l, before, after, happend, rfl, hl⟩ :=
    exists_lexeme_of_mem_tiles (tokenize_eq_iff.1 rfl) ht
  rw [Lexeme.chars_token hl]
  exact ⟨before, after, happend, rfl, rfl⟩

theorem chars_of_mark {m : Mark} (ht : t ∈ tokenize file text) (hm : t.kind = .mark m) :
    t.chars = [m.char] := by
  obtain ⟨l, before, after, -, rfl, rfl | hl⟩ :=
    exists_lexeme_of_mem_tiles (tokenize_eq_iff.1 rfl) ht
  · cases hm
  · have htext := Lexeme.text_of_mark hl hm
    change l.kind = _ at hm
    simp [Token.chars, Lexeme.token, hm, htext]

end Tokens

/-! ## Faults that point at a text -/

/-- What the program lists if a source to load cannot be had. -/
def Opener.refusal? (opener : Opener) (path : Word) : Option Fault :=
  match opener path.text with
  | .unopened _ message => some (.unavailable path.stop message)
  | .unreadable cause =>
    some (.unavailable path.stop ("read " ++ path.text ++ ": " ++ cause.message))
  | .contents _ => Option.none

theorem exists_of_refusal? {opener : Opener} {path : Word} {f : Fault}
    (h : opener.refusal? path = some f) : ∃ reason, f = .unavailable path.stop reason := by
  unfold Opener.refusal? at h
  split at h
  · exact ⟨_, (Option.some.inj h).symm⟩
  · exact ⟨_, (Option.some.inj h).symm⟩
  · cases h

/-- Whether the text in front of a place is what a fault at that place is about: the name that
stands for nothing, the sign of the division, or the path to load, which is quoted and stands behind
the reserved word for it. A token that fits nothing starts at the place. -/
def Fault.Fits (opener : Opener) (file text : String) (before : List Char) : Fault → Prop
  | .misplacedToken place => ∃ t ∈ tokenize file text, t.start = place
  | .unknownName _ name | .unknownCommand _ name | .unknownNumber _ name => name.toList <:+ before
  | .divisionByZero _ => ['/'] <:+ before
  | .unavailable place reason => ∃ load path : Token, [load, path] <:+: tokenize file text ∧
      load.kind = .keyword .load ∧ path.kind = .quoted ∧ path.stop = place ∧
      '"' :: (path.text.toList ++ ['"']) <:+ before ∧
      opener.refusal? path.word = some (.unavailable place reason)
  | .unreadable _ _ => False

/-- Whether a fault points at the text of a file, at what it is about. -/
def Fault.PointsAt (opener : Opener) (file text : String) (f : Fault) : Prop :=
  ∃ before after, text.toList = before ++ after ∧ f.position? = some (placeAfter file before) ∧
    f.Fits opener file text before

/-! ## Faults that trees can list -/

section Trees

variable (opener : Opener) (G : Fault → Prop)

mutual

def Expr.FaultsIn : Expr → Prop
  | .literal _ => True
  | .name word => G (.unknownName word.stop word.text)
  | .binary op l r place =>
    l.FaultsIn ∧ r.FaultsIn ∧ (op = .div → G (.divisionByZero place))
  | .call word args => G (.unknownNumber word.stop word.text) ∧ Expr.AllFaultsIn args

def Expr.AllFaultsIn : List Expr → Prop
  | [] => True
  | e :: es => e.FaultsIn ∧ Expr.AllFaultsIn es

end

mutual

def Stmt.FaultsIn : Stmt → Prop
  | .paper ink | .pen ink => ink.FaultsIn G
  | .line x₁ y₁ x₂ y₂ => x₁.FaultsIn G ∧ y₁.FaultsIn G ∧ x₂.FaultsIn G ∧ y₂.FaultsIn G
  | .assign _ result | .value result => result.FaultsIn G
  | .setPixel x y ink => x.FaultsIn G ∧ y.FaultsIn G ∧ ink.FaultsIn G
  | .readPixel _ x y => x.FaultsIn G ∧ y.FaultsIn G
  | .block body | .define _ _ _ body => Stmt.AllFaultsIn body
  | .loop _ first last body => first.FaultsIn G ∧ last.FaultsIn G ∧ Stmt.AllFaultsIn body
  | .test _ left right body => left.FaultsIn G ∧ right.FaultsIn G ∧ Stmt.AllFaultsIn body
  | .call word args => G (.unknownCommand word.stop word.text) ∧ Expr.AllFaultsIn G args
  | .load path => ∀ f ∈ opener.refusal? path, G f

def Stmt.AllFaultsIn : List Stmt → Prop
  | [] => True
  | s :: ss => s.FaultsIn ∧ Stmt.AllFaultsIn ss

end

def Grammar.Phrase.FaultsIn : Phrase → Prop
  | .atom e | .term e | .expr e => e.FaultsIn G
  | .exprs es => Expr.AllFaultsIn G es
  | .stmt s => s.FaultsIn opener G
  | .lines ss | .stmts ss | .block ss => Stmt.AllFaultsIn opener G ss

/-- Whether the faults of a kind are enough for whatever is read from tokens. -/
structure Covers (ts : List Token) : Prop where
  name : ∀ t ∈ ts, t.kind = .name → G (.unknownName t.stop t.text) ∧
    G (.unknownCommand t.stop t.text) ∧ G (.unknownNumber t.stop t.text)
  slash : ∀ t ∈ ts, t.kind = .mark .slash → G (.divisionByZero t.stop)
  load : ∀ load path, [load, path] <:+: ts → load.kind = .keyword .load → path.kind = .quoted →
    ∀ f ∈ opener.refusal? path.word, G f

end Trees

section Covers

variable {opener : Opener} {G : Fault → Prop} {t : Token} {ts us : List Token}

namespace Covers

theorem mono {G' : Fault → Prop} (h : Covers opener G ts) (hG : ∀ f, G f → G' f) :
    Covers opener G' ts where
  name t ht hk := ⟨hG _ (h.name t ht hk).1, hG _ (h.name t ht hk).2.1, hG _ (h.name t ht hk).2.2⟩
  slash t ht hk := hG _ (h.slash t ht hk)
  load load path hpair hload hpath f hf := hG _ (h.load load path hpair hload hpath f hf)

theorem part (h : Covers opener G ts) (hus : us <:+: ts) : Covers opener G us where
  name t ht := h.name t (hus.subset ht)
  slash t ht := h.slash t (hus.subset ht)
  load load path hpair := h.load load path (hpair.trans hus)

theorem tail (h : Covers opener G (t :: ts)) : Covers opener G ts :=
  h.part (List.suffix_cons t ts).isInfix

theorem left (h : Covers opener G (ts ++ us)) : Covers opener G ts :=
  h.part (List.prefix_append ts us).isInfix

theorem right (h : Covers opener G (ts ++ us)) : Covers opener G us :=
  h.part (List.suffix_append ts us).isInfix

end Covers

/-- What is read from tokens lists faults that point at these tokens. -/
theorem faultsIn_of_derives {ph : Phrase} (h : Derives ph ts) (hts : Covers opener G ts) :
    ph.FaultsIn opener G := by
  induction h with
  | literal | noExprs | noStmts => trivial
  | name hk => exact (hts.name _ List.mem_cons_self hk).1
  | load hk hp => exact hts.load _ _ List.infix_rfl hk hp
  | factor _ ih | summand _ ih | nested _ ih => exact ih hts
  | parens _ _ _ ih | block _ _ _ ih => exact ih hts.tail.left
  | numberCall _ hf _ _ ih =>
    exact ⟨(hts.tail.name _ List.mem_cons_self hf).2.2, ih hts.tail.tail.left⟩
  | commandCall hf _ ih => exact ⟨(hts.name _ List.mem_cons_self hf).2.1, ih hts.tail⟩
  | product _ _ hsign _ ihl ihr | sum _ _ hsign _ ihl ihr =>
    refine ⟨ihl hts.left, ihr hts.right.tail, ?_⟩
    rintro rfl
    exact hts.right.slash _ List.mem_cons_self hsign
  | moreExprs _ _ ihe ihes => exact ⟨ihe hts.left, ihes hts.right⟩
  | paper _ _ ih | pen _ _ ih | value _ _ ih => exact ih hts.tail
  | line _ _ _ _ _ iha ihb ihc ihd =>
    exact ⟨iha hts.tail.left, ihb hts.tail.right.left, ihc hts.tail.right.right.left,
      ihd hts.tail.right.right.right⟩
  | assign _ _ _ ih => exact ih hts.tail.tail
  | setPixel _ _ _ _ _ _ ihx ihy ih =>
    have hrest := hts.tail.tail.right
    exact ⟨ihx hts.tail.tail.left, ihy hrest.left, ih hrest.right.tail⟩
  | readPixel _ _ _ _ _ _ ihx ihy =>
    have hrest := hts.tail.tail.tail
    exact ⟨ihx hrest.left, ihy hrest.right.left⟩
  | loop _ _ _ _ _ iha ihb ihss =>
    have hrest := hts.tail.tail
    exact ⟨iha hrest.left, ihb hrest.right.left, ihss hrest.right.right⟩
  | test _ _ _ _ iha ihb ihss =>
    exact ⟨iha hts.tail.left, ihb hts.tail.right.left, ihss hts.tail.right.right⟩
  | define _ _ _ _ ihss => exact ihss hts.tail.tail.right
  | oneLine _ ih => exact ⟨ih hts, trivial⟩
  | moreLines _ _ _ _ ih ihss => exact ⟨ih hts.left, ihss hts.right.right⟩
  | someStmts _ _ _ ih => exact ih hts.right.left

end Covers

/-! ## Texts and their faults -/

section Parse

variable {opener : Opener} {file text : String}

/-- A fault at the end of a token points at the text, if the token is what it is about. -/
theorem pointsAt_of_stop {t : Token} {f : Fault} (ht : t ∈ tokenize file text)
    (hplace : f.position? = some t.stop)
    (hfits : ∀ before, t.chars <:+ before → f.Fits opener file text before) :
    f.PointsAt opener file text := by
  obtain ⟨before, after, happend, -, hstop⟩ := exists_chars_of_mem ht
  rw [← List.append_assoc] at happend
  rw [hstop] at hplace
  exact ⟨before ++ t.chars, after, happend, hplace, hfits _ (List.suffix_append before t.chars)⟩

/-- Faults that point at a text are enough for its tokens. -/
theorem covers_tokenize (opener : Opener) (file text : String) :
    Covers opener (Fault.PointsAt opener file text) (tokenize file text) where
  name t ht hk := by
    have hchars : t.chars = t.text.toList := by simp [Token.chars, hk]
    have hfits (before : List Char) (h : t.chars <:+ before) : t.text.toList <:+ before :=
      hchars ▸ h
    exact ⟨pointsAt_of_stop ht rfl hfits, pointsAt_of_stop ht rfl hfits,
      pointsAt_of_stop ht rfl hfits⟩
  slash t ht hk := by
    refine pointsAt_of_stop ht rfl fun before h => ?_
    rw [chars_of_mark ht hk] at h
    exact h
  load load path hpair hload hpath f hf := by
    have hmem : path ∈ tokenize file text := hpair.subset (by simp)
    have hchars : path.chars = '"' :: (path.text.toList ++ ['"']) := by simp [Token.chars, hpath]
    obtain ⟨reason, rfl⟩ := exists_of_refusal? hf
    refine pointsAt_of_stop hmem rfl fun before h => ?_
    exact ⟨load, path, hpair, hload, hpath, rfl, hchars ▸ h, hf⟩

/-- A text that cannot be read is blamed on the start of one of its tokens. -/
theorem pointsAt_of_parse {place : Position} (h : parse? file text = .error place) :
    (Fault.misplacedToken place).PointsAt opener file text := by
  obtain ⟨t, ht, rfl⟩ : ∃ t ∈ tokenize file text, t.start = place := by
    unfold parse? at h
    cases hread : Program.ofTokens? (tokenize file text) with
    | ok program =>
      rw [hread] at h
      cases h
    | error rest =>
      rw [hread] at h
      obtain rfl : blamed rest = place := Except.error.inj h
      obtain ⟨before, htokens, -, hfinish⟩ := beginsProgram_of_error hread
      cases rest with
      | nil =>
        -- the last token ends the text, and no token that was taken does
        obtain ⟨init, last, hlast, hkind, -⟩ := finish_last_of_tiles (tokenize_eq_iff.1 rfl)
        rw [htokens, List.append_nil] at hlast
        exact absurd hkind (hfinish last (by simp [hlast]))
      | cons t rest => exact ⟨t, by simp [htokens], rfl⟩
  obtain ⟨before, after, happend, hstart, -⟩ := exists_chars_of_mem ht
  exact ⟨before, _, happend, congrArg some hstart, t, ht, rfl⟩

/-- Whether the faults of a text are of a kind: if it cannot be read, that it cannot be, and
otherwise those that what is read can list by itself. -/
def TextFaultsIn (opener : Opener) (G : Fault → Prop) (file text : String) : Prop :=
  match parse? file text with
  | .error place => G (.misplacedToken place)
  | .ok program => Stmt.AllFaultsIn opener G program

theorem textFaultsIn_of_covers {G : Fault → Prop}
    (hplace : ∀ place, parse? file text = .error place → G (.misplacedToken place))
    (h : Covers opener G (tokenize file text)) : TextFaultsIn opener G file text := by
  unfold TextFaultsIn
  split
  · rename_i place hparse
    exact hplace place hparse
  · rename_i program hparse
    obtain ⟨used, rest, htokens, hd⟩ := derives_of_parse hparse
    rw [htokens] at h
    exact faultsIn_of_derives hd h.left

/-- The faults of a text point at that text. -/
theorem textFaultsIn_of_pointsAt {G : Fault → Prop}
    (h : ∀ f, Fault.PointsAt opener file text f → G f) : TextFaultsIn opener G file text :=
  textFaultsIn_of_covers (fun _ hparse => h _ (pointsAt_of_parse hparse))
    ((covers_tokenize opener file text).mono h)

end Parse

end DrawLang
