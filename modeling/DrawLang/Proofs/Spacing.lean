import DrawLang.Proofs.Tiling

/-!
# Any spacing will do

Tokens can be written down in many ways: reserved words in any case, and between two tokens any
blanks and comments, as long as a blank comes first. Reading gets the tokens back, because a blank
ends every lexeme and no lexeme that a blank follows opens a gap.

* `Lexeme.Legal`: how a token can be written.
* `IsSeparator`: what can be put between two tokens.
* `spaced_tokens_read_back`: the tokens that are read are those that were written.
-/

namespace DrawLang

/-! ## Lexemes and separators -/

/-- Whether a lexeme is legal for its kind: it is whole at the end of a text, and it is not illegal.
Numerals are digits, reserved words have any case, names are words that are not reserved, and what
is quoted does not leave its line: a backslash takes any character with it but a line feed. -/
def Lexeme.Legal (l : Lexeme) : Prop := l.Whole [] ∧ l.kind ≠ .illegal

/-- Blanks and closed block comments, in any mixture. -/
inductive IsFiller : List Char → Prop where
  | nil : IsFiller []
  | blank {c : Char} {cs : List Char} : isBlank c = true → IsFiller cs → IsFiller (c :: cs)
  | comment {body cs : List Char} : ¬ ['*', '/'] <:+: body → IsFiller cs →
      IsFiller ('/' :: '*' :: (body ++ '*' :: '/' :: cs))

/-- Whether a text begins with a blank. -/
def BeginsBlank (cs : List Char) : Prop := ∃ c ∈ cs.head?, isBlank c = true

/-- What is put between two tokens: filler that begins with a blank. -/
def IsSeparator (cs : List Char) : Prop := BeginsBlank cs ∧ IsFiller cs

theorem IsFiller.isGap {gap rest : List Char} (h : IsFiller gap) (hrest : ¬ OpensGap rest) :
    IsGap gap rest := by
  induction h with
  | nil => exact .nil hrest
  | blank hc _ ih => exact .blank hc ih
  | comment hbody _ ih => exact .block hbody ih

theorem BeginsBlank.append {cs : List Char} (h : BeginsBlank cs) (rest : List Char) :
    BeginsBlank (cs ++ rest) := by
  obtain ⟨c, hc, hblank⟩ := h
  obtain ⟨ds, rfl⟩ := List.head?_eq_some_iff.1 hc
  exact ⟨c, rfl, hblank⟩

/-! ## A blank ends a lexeme -/

section Blank

variable {rest : List Char}

/-- A blank is none of the characters that go on with a lexeme. -/
theorem head?_of_beginsBlank (h : BeginsBlank rest) : ∀ c ∈ rest.head?,
    c.isDigit = false ∧ Lexeme.isWordChar c = false ∧ c ≠ '?' ∧ c ≠ '/' ∧ c ≠ '*' := by
  obtain ⟨b, hb, hblank⟩ := h
  intro c hc
  obtain rfl := Option.mem_unique hb hc
  simp only [isBlank, Bool.or_eq_true, beq_iff_eq] at hblank
  rcases hblank with (rfl | rfl) | rfl <;> decide

/-- What is whole at the end of a text is whole in front of a blank. -/
theorem Lexeme.Legal.whole {l : Lexeme} (h : l.Legal) (hrest : BeginsBlank rest) :
    l.Whole rest := by
  have hhead := head?_of_beginsBlank hrest
  have hword : EndsWord rest := fun c hc => (hhead c hc).2.1
  obtain ⟨hwhole, hkind⟩ := h
  cases hwhole with
  | newline => exact .newline
  | mark m => exact .mark m
  | numeral hne hdigits => exact .numeral hne hdigits fun c hc => (hhead c hc).1
  | keyword hk hagree => exact .keyword hk hagree hword
  | relation hagree => exact .relation hagree
  | name hname hplain => exact .name hname hplain (fun _ _ hc => (hhead _ hc).2.2.1 rfl) hword
  | quoted hinner => exact .quoted hinner
  | unclosed => exact absurd rfl hkind
  | dangling => exact absurd rfl hkind
  | stray => exact absurd rfl hkind

theorem not_opensGap_of_isWord {word : List Char} (h : isWord word = true) (rest : List Char) :
    ¬ OpensGap (word ++ rest) := by
  cases word with
  | nil => cases h
  | cons c cs =>
    have hc : opensWord c = true := ((Bool.and_eq_true _ _).mp h).1
    have hslash : c ≠ '/' := ne_of_opensWord hc (by decide) rfl (by decide)
    rw [List.cons_append, opensGap_cons]
    simp [isBlank_of_opensWord hc, hslash]

/-- In front of a blank no lexeme opens a gap: the only mark that could is the slash, and a second
character is needed for that. -/
theorem Lexeme.Legal.not_opensGap {l : Lexeme} (h : l.Legal) (hrest : BeginsBlank rest) :
    ¬ OpensGap (l.chars ++ rest) := by
  obtain ⟨hwhole, hkind⟩ := h
  cases hwhole with
  | newline => simp [single, opensGap_cons, isBlank]
  | mark m =>
    have hblank : isBlank m.char = false := by cases m <;> rfl
    have hhead := head?_of_beginsBlank hrest
    rw [single, List.singleton_append, opensGap_cons]
    rintro (hm | ⟨-, d, hd, rfl | rfl⟩)
    · rw [hblank] at hm
      cases hm
    · exact (hhead _ hd).2.2.2.1 rfl
    · exact (hhead _ hd).2.2.2.2 rfl
  | @numeral digits _ hne hdigits =>
    cases digits with
    | nil => exact absurd rfl hne
    | cons d ds =>
      have hd : d.isDigit = true := hdigits d List.mem_cons_self
      have hslash : d ≠ '/' := ne_of_isDigit hd rfl
      rw [List.cons_append, opensGap_cons]
      simp [isBlank_of_isDigit hd, hslash]
  | keyword hk hagree => exact not_opensGap_of_isWord (isWord_of_agree_keyword hk hagree) rest
  | relation hagree =>
    rw [List.append_assoc]
    exact not_opensGap_of_isWord (isWord_of_agree_relation hagree) _
  | name hname => exact not_opensGap_of_isWord hname rest
  | quoted => simp [opensGap_cons, isBlank]
  | unclosed => exact absurd rfl hkind
  | dangling => exact absurd rfl hkind
  | stray => exact absurd rfl hkind

end Blank

/-! ## Reading what was written -/

/-- A text of lexemes, a separator in front of each, and one behind the last. -/
def spaced (written : List (List Char × Lexeme)) (last : List Char) : List Char :=
  written.flatMap (fun w => w.1 ++ w.2.chars) ++ last

theorem spaced_cons (w : List Char × Lexeme) (written : List (List Char × Lexeme))
    (last : List Char) :
    spaced (w :: written) last = w.1 ++ (w.2.chars ++ spaced written last) := by
  simp only [spaced, List.flatMap_cons, List.append_assoc]

theorem beginsBlank_spaced {written : List (List Char × Lexeme)} {last : List Char}
    (hseparators : ∀ w ∈ written, IsSeparator w.1) (hlast : IsSeparator last) :
    BeginsBlank (spaced written last) := by
  cases written with
  | nil => exact hlast.1
  | cons w written =>
    rw [spaced_cons]
    exact (hseparators w List.mem_cons_self).1.append _

theorem exists_tiles_spaced (file : String) {written : List (List Char × Lexeme)}
    {last : List Char} (hseparators : ∀ w ∈ written, IsSeparator w.1)
    (hlegal : ∀ w ∈ written, w.2.Legal) (hlast : IsSeparator last) (before : List Char) :
    ∃ ts, Tiles file before (spaced written last) ts ∧
      ts.map Token.shape = written.map (fun w => w.2.shape) ++ [(.finish, "")] := by
  induction written generalizing before with
  | nil => exact ⟨_, .finish (hlast.2.isGap not_opensGap_nil), rfl⟩
  | cons w written ih =>
    obtain ⟨hseparator, hseparators⟩ := List.forall_mem_cons.1 hseparators
    obtain ⟨hw, hlegal⟩ := List.forall_mem_cons.1 hlegal
    have hblank := beginsBlank_spaced hseparators hlast
    have hgap : IsGap w.1 (w.2.chars ++ spaced written last) :=
      hseparator.2.isGap (hw.not_opensGap hblank)
    obtain ⟨ts, htiles, hshapes⟩ := ih hseparators hlegal (before ++ w.1 ++ w.2.chars)
    rw [spaced_cons]
    refine ⟨_, .lexeme hgap (hw.whole hblank) htiles, ?_⟩
    rw [List.map_cons, hshapes]
    rfl

/-- **Any spacing will do.** Whatever lexemes tokens are written with, and whatever separators stand
in front of them and behind the last one, their kinds and texts are read back, and then the end of
the text. -/
theorem spaced_tokens_read_back (name : String) {written : List (List Char × Lexeme)}
    {last : List Char} (hseparators : ∀ w ∈ written, IsSeparator w.1)
    (hlegal : ∀ w ∈ written, w.2.Legal) (hlast : IsSeparator last) :
    (tokenize name (String.ofList (spaced written last))).map Token.shape =
      written.map (fun w => w.2.shape) ++ [(.finish, "")] := by
  obtain ⟨ts, htiles, hshapes⟩ := exists_tiles_spaced name hseparators hlegal hlast []
  rw [← String.toList_ofList (l := spaced written last)] at htiles
  rw [tokenize_eq_iff.2 htiles, hshapes]

/-- Lexemes that a careless separator would fuse or swallow. -/
def crowded : List (List Char × Lexeme) :=
  [([' ', '/', '*', '\n', '*', '*', '/'], ⟨.keyword .loop, ['r', 'E', 'P', 'E', 'A', 'T'],
      ['r', 'E', 'P', 'E', 'A', 'T']⟩),
    (['\t'], Lexeme.single (.mark .slash) '/'),
    (['\r'], Lexeme.single (.mark .star) '*'),
    ([' ', '/', '*', '/', '*', '/', ' '], ⟨.name, ['S', 'a', 'm', 'e'], ['S', 'a', 'm', 'e']⟩),
    ([' '], ⟨.keyword (.test .same), ['s', 'A', 'M', 'E', '?'], ['s', 'A', 'M', 'E', '?']⟩),
    ([' '], ⟨.quoted, ['\\', '"', '/', '/'], ['"', '\\', '"', '/', '/', '"']⟩)]

theorem crowded_tokens_read_back :
    (∀ w ∈ crowded, IsSeparator w.1) ∧ (∀ w ∈ crowded, w.2.Legal) ∧
      (tokenize "" (String.ofList (spaced crowded [' ', '/', '*', '*', '/']))).map Token.shape =
        [(.keyword .loop, "rEPEAT"), (.mark .slash, "/"), (.mark .star, "*"), (.name, "Same"),
          (.keyword (.test .same), "sAME?"), (.quoted, "\\\"//"), (.finish, "")] := by
  have hblank {c : Char} {cs : List Char} (hc : isBlank c = true) (hcs : IsFiller cs) :
      IsSeparator (c :: cs) := ⟨⟨c, rfl, hc⟩, .blank hc hcs⟩
  have hcomment {cs : List Char} (body : List Char) (hbody : ¬ ['*', '/'] <:+: body)
      (hcs : IsFiller cs) : IsFiller ('/' :: '*' :: (body ++ '*' :: '/' :: cs)) :=
    .comment hbody hcs
  have hseparators : ∀ w ∈ crowded, IsSeparator w.1 := by
    simp only [crowded, List.forall_mem_cons]
    exact ⟨hblank rfl (hcomment ['\n', '*'] (by decide) .nil), hblank rfl .nil, hblank rfl .nil,
      hblank rfl (hcomment ['/'] (by decide) (.blank rfl .nil)), hblank rfl .nil,
      hblank rfl .nil, nofun⟩
  have hrelation : Lexeme.Whole ⟨.keyword (.test .same), ['s', 'A', 'M', 'E', '?'],
      ['s', 'A', 'M', 'E', '?']⟩ [] :=
    @Lexeme.Whole.relation .same ['s', 'A', 'M', 'E'] [] rfl
  have hlegal : ∀ w ∈ crowded, w.2.Legal := by
    simp only [crowded, List.forall_mem_cons]
    exact ⟨⟨.keyword (by decide) rfl nofun, nofun⟩, ⟨.mark .slash, nofun⟩, ⟨.mark .star, nofun⟩,
      ⟨.name (by decide) (by decide) (by simp) nofun, nofun⟩, ⟨hrelation, nofun⟩,
      ⟨.quoted (by decide), nofun⟩, nofun⟩
  have hlast : IsSeparator [' ', '/', '*', '*', '/'] :=
    hblank rfl (hcomment [] (by decide) .nil)
  exact ⟨hseparators, hlegal, spaced_tokens_read_back "" hseparators hlegal hlast⟩

end DrawLang
