import DrawLang.Proofs.Sections
import DrawLang.Proofs.Spacing
import DrawLang.Proofs.Trimming
import DrawLang.Syntax.Equality

/-!
# Trimmed texts

Every text that can be read has a trimmed one: where a statement is left out, blanks are written
over its tokens. What stands elsewhere stays at its place, line ends stay line ends, and comments
stay comments. So the places in what is read are those that they were.

* `Thins`, `exists_trimmed`: the tokens of a trimmed program.
* `Softens`: texts that begin alike, or with a blank instead.
* `exists_tiles_of_thins`: a text for the tokens that are left.
* `values_matter_in_numbers`: runs of programs and texts without what does nothing.
-/

namespace DrawLang

open Grammar

/-! ## The tokens that are left -/

/-- Whether tokens are what is left of some others. All line ends are left. -/
inductive Thins : List Token → List Token → Prop where
  | nil : Thins [] []
  | keep (t : Token) {ts us : List Token} : Thins ts us → Thins (t :: ts) (t :: us)
  | drop {t : Token} {ts us : List Token} : t.kind ≠ .newline → Thins ts us → Thins (t :: ts) us

namespace Thins

theorem refl : ∀ ts : List Token, Thins ts ts
  | [] => .nil
  | t :: ts => .keep t (refl ts)

theorem append {ts us ts' us' : List Token} (h : Thins ts us) (h' : Thins ts' us') :
    Thins (ts ++ ts') (us ++ us') := by
  induction h with
  | nil => exact h'
  | keep t _ ih => exact .keep t ih
  | drop ht _ ih => exact .drop ht ih

/-- Nothing but the line ends need be left. -/
theorem exists_newlines (ts : List Token) : ∃ seps, Thins ts seps ∧ AllOf .newline seps := by
  induction ts with
  | nil => exact ⟨[], .nil, nofun⟩
  | cons t ts ih =>
    obtain ⟨seps, hthins, hseps⟩ := ih
    by_cases ht : t.kind = .newline
    · exact ⟨t :: seps, .keep t hthins, List.forall_mem_cons.2 ⟨ht, hseps⟩⟩
    · exact ⟨seps, .drop ht hthins, hseps⟩

end Thins

namespace Grammar

def Phrase.trim (role : Role) : Phrase → Phrase
  | .stmt s => .stmt (s.trim role)
  | .lines ss | .stmts ss => .stmts (Stmt.trimAll role ss)
  | .block ss => .block (Stmt.trimAll role ss)
  | ph => ph

section Lines

variable {s : Stmt} {ss : List Stmt} {ts seps us : List Token}

theorem stmts_newlines_left (hseps : AllOf .newline seps) (h : Derives (.stmts ss) ts) :
    Derives (.stmts ss) (seps ++ ts) := by
  cases h with
  | noStmts hseps' => exact .noStmts (hseps.append hseps')
  | someStmts hbefore hlines hafter =>
    rw [← List.append_assoc]
    exact .someStmts (hseps.append hbefore) hlines hafter

theorem stmts_newlines_right (h : Derives (.stmts ss) ts) (hseps : AllOf .newline seps) :
    Derives (.stmts ss) (ts ++ seps) := by
  cases h with
  | noStmts hseps' => exact .noStmts (hseps'.append hseps)
  | someStmts hbefore hlines hafter =>
    rw [List.append_assoc, List.append_assoc]
    exact .someStmts hbefore hlines (hafter.append hseps)

theorem stmts_of_stmt (h : Derives (.stmt s) ts) : Derives (.stmts [s]) ts := by
  have hlines : Derives (.stmts [s]) ([] ++ (ts ++ [])) := .someStmts nofun (.oneLine h) nofun
  simpa using hlines

end Lines

theorem exists_trimmed {ph : Phrase} {ts : List Token} (h : Derives ph ts) (role : Role) :
    ∃ us, Thins ts us ∧ Derives (ph.trim role) us := by
  induction h generalizing role with
  | product hl htight hsign hr => exact ⟨_, .refl _, .product hl htight hsign hr⟩
  | sum hl htight hsign hr => exact ⟨_, .refl _, .sum hl htight hsign hr⟩
  | noStmts hseps => exact ⟨_, .refl _, .noStmts hseps⟩
  | loop hk hn ha hb _ _ _ ih =>
    obtain ⟨us, hthins, hblock⟩ := ih role
    refine ⟨_, .keep _ (.keep _ ?_), .loop hk hn ha hb hblock⟩
    exact (Thins.refl _).append ((Thins.refl _).append hthins)
  | test hk ha hb _ _ _ ih =>
    obtain ⟨us, hthins, hblock⟩ := ih role
    refine ⟨_, .keep _ ?_, .test hk ha hb hblock⟩
    exact (Thins.refl _).append ((Thins.refl _).append hthins)
  | define hk hn hps _ ih =>
    obtain ⟨us, hthins, hblock⟩ := ih _
    exact ⟨_, .keep _ (.keep _ ((Thins.refl _).append hthins)), .define hk hn hps hblock⟩
  | nested _ ih =>
    obtain ⟨us, hthins, hblock⟩ := ih role
    exact ⟨us, hthins, .nested hblock⟩
  | @oneLine s ts hs ih =>
    rcases trimAll_cons role s with ⟨result, rfl⟩ | htrim
    · cases role with
      | number => exact ⟨ts, .refl ts, stmts_of_stmt hs⟩
      | command =>
        obtain ⟨seps, hthins, hseps⟩ := Thins.exists_newlines ts
        exact ⟨seps, hthins, .noStmts hseps⟩
    · obtain ⟨us, hthins, hs'⟩ := ih role
      refine ⟨us, hthins, ?_⟩
      rw [Phrase.trim, htrim]
      exact stmts_of_stmt hs'
  | @moreLines s ss ts seps us hs hseps hne hss ih ihss =>
    rcases trimAll_cons role s with ⟨result, rfl⟩ | htrim
    · cases role with
      | number =>
        obtain ⟨seps', hthins, hseps'⟩ := Thins.exists_newlines (seps ++ us)
        exact ⟨_, (Thins.refl ts).append hthins, stmts_newlines_right (stmts_of_stmt hs) hseps'⟩
      | command =>
        obtain ⟨seps', hthins, hseps'⟩ := Thins.exists_newlines ts
        obtain ⟨us', hthins', hss'⟩ := ihss .command
        exact ⟨_, hthins.append ((Thins.refl seps).append hthins'),
          stmts_newlines_left hseps' (stmts_newlines_left hseps hss')⟩
    · obtain ⟨ts', hthins, hs'⟩ := ih role
      obtain ⟨us', hthins', hss'⟩ := ihss role
      refine ⟨_, hthins.append ((Thins.refl seps).append hthins'), ?_⟩
      cases seps with
      | nil => exact absurd rfl hne
      | cons sep seps =>
        obtain ⟨hsep, hseps⟩ := List.forall_mem_cons.1 hseps
        rw [Phrase.trim, htrim]
        exact stmts_append (stmts_of_stmt hs') hsep (stmts_newlines_left hseps hss')
  | someStmts hbefore _ hafter ih =>
    obtain ⟨us, hthins, hss⟩ := ih role
    exact ⟨_, (Thins.refl _).append (hthins.append (.refl _)),
      stmts_newlines_left hbefore (stmts_newlines_right hss hafter)⟩
  | block ho _ hc ih =>
    obtain ⟨us, hthins, hss⟩ := ih role
    exact ⟨_, .keep _ (hthins.append (.refl _)), .block ho hss hc⟩
  | _ => exact ⟨_, .refl _, by constructor <;> assumption⟩

theorem kind_ne_illegal_of_mem {ph : Phrase} {ts : List Token} (h : Derives ph ts) :
    ∀ t ∈ ts, t.kind ≠ .illegal := by
  induction h <;> simp_all [AllOf, or_imp]

end Grammar

/-! ## Texts that begin alike -/

/-- Whether a text begins as another one does, or with a blank instead, or not at all. -/
def Softens (rest rest' : List Char) : Prop :=
  ∀ c ∈ rest'.head?, c ∈ rest.head? ∨ isBlank c = true

section Softens

variable {rest rest' : List Char}

/-- What no blank is stays ruled out. -/
theorem Softens.forall_head? (h : Softens rest rest') {P : Char → Prop}
    (hrest : ∀ c ∈ rest.head?, P c) (hblank : ∀ c, isBlank c = true → P c) :
    ∀ c ∈ rest'.head?, P c := by
  intro c hc
  rcases h c hc with hsame | hc
  · exact hrest c hsame
  · exact hblank c hc

theorem Softens.append_left (h : Softens rest rest') (cs : List Char) :
    Softens (cs ++ rest) (cs ++ rest') := by
  cases cs with
  | nil => exact h
  | cons c cs => exact fun _ => .inl

/-- What a blank is not. -/
theorem blank_is_none {c : Char} (h : isBlank c = true) : c.isDigit = false ∧
    Lexeme.isWordChar c = false ∧ c ≠ '?' ∧ c ≠ '/' ∧ c ≠ '*' := by
  have hbegins : BeginsBlank [c] := ⟨c, rfl, h⟩
  exact head?_of_beginsBlank hbegins c rfl

theorem Lexeme.Whole.soften {l : Lexeme} (h : l.Whole rest) (hlegal : l.kind ≠ .illegal)
    (hsoft : Softens rest rest') : l.Whole rest' := by
  have hends (hword : EndsWord rest) : EndsWord rest' :=
    hsoft.forall_head? hword fun c hc => (blank_is_none hc).2.1
  cases h with
  | newline => exact .newline
  | mark m => exact .mark m
  | numeral hne hdigits hrest =>
    exact .numeral hne hdigits (hsoft.forall_head? hrest fun c hc => (blank_is_none hc).1)
  | keyword hk hagree hrest => exact .keyword hk hagree (hends hrest)
  | relation hagree => exact .relation hagree
  | name hword hplain hrelation hrest =>
    refine .name hword hplain (fun r hr => ?_) (hends hrest)
    have hnext : ∀ c ∈ rest.head?, c ≠ '?' := by
      rintro c hc rfl
      exact hrelation r hr hc
    exact fun hmark => hsoft.forall_head? hnext (fun c hc => (blank_is_none hc).2.2.1) '?' hmark rfl
  | quoted hinner => exact .quoted hinner
  | unclosed | dangling | stray => exact absurd rfl hlegal

theorem IsGap.soften {gap : List Char} {c : Char} (h : IsGap gap (c :: rest))
    (hsoft : Softens rest rest') : IsGap gap (c :: rest') := by
  generalize hstart : c :: rest = start at h
  induction h with
  | nil hopens =>
    subst hstart
    rw [opensGap_cons, not_or, not_and] at hopens
    refine .nil (opensGap_cons.not.2 (not_or.2 ⟨hopens.1, fun ⟨hc, d, hd, hmark⟩ => ?_⟩))
    have hnext : ∀ d ∈ rest.head?, ¬ (d = '/' ∨ d = '*') :=
      fun d hd hmark => hopens.2 hc ⟨d, hd, hmark⟩
    have hblank (d : Char) (hd : isBlank d = true) : ¬ (d = '/' ∨ d = '*') :=
      not_or.2 (blank_is_none hd).2.2.2
    exact hsoft.forall_head? hnext hblank d hd hmark
  | blank hblank _ ih => exact .blank hblank (ih hstart)
  | line hbody hrest =>
    subst hstart
    exact .line hbody hrest
  | block hbody _ ih => exact .block hbody (ih hstart)
  | unclosed => cases hstart

/-- A gap that no line end follows ends no line, so it is filler. -/
theorem isFiller_of_isGap {gap : List Char} {c : Char} (h : IsGap gap (c :: rest))
    (hc : c ≠ '\n') : IsFiller gap := by
  generalize hstart : c :: rest = start at h
  induction h with
  | nil => exact .nil
  | blank hblank _ ih => exact .blank hblank (ih hstart)
  | line _ hrest =>
    subst hstart
    exact absurd (hrest c rfl) hc
  | block hbody _ ih => exact .comment hbody (ih hstart)
  | unclosed => cases hstart

theorem IsFiller.append {cs ds : List Char} (h : IsFiller cs) (h' : IsFiller ds) :
    IsFiller (cs ++ ds) := by
  induction h with
  | nil => exact h'
  | blank hc _ ih => exact .blank hc ih
  | comment hbody _ ih =>
    rw [List.cons_append, List.cons_append, List.append_assoc]
    exact .comment hbody ih

theorem IsFiller.append_isGap {cs gap : List Char} (h : IsFiller cs) (hgap : IsGap gap rest) :
    IsGap (cs ++ gap) rest := by
  induction h with
  | nil => exact hgap
  | blank hc _ ih => exact .blank hc ih
  | comment hbody _ ih =>
    rw [List.cons_append, List.cons_append, List.append_assoc]
    exact .block hbody ih

theorem isFiller_spaces (n : Nat) : IsFiller (List.replicate n ' ') := by
  induction n with
  | zero => exact .nil
  | succ n ih => exact .blank rfl ih

end Softens

/-! ## A text for the tokens that are left -/

section Texts

variable {file : String} {before before' cs : List Char} {ts : List Token}

/-- Filler in front of a text is part of its first gap. -/
theorem Tiles.filler_append {filler : List Char} (hfiller : IsFiller filler)
    (h : Tiles file (before ++ filler) cs ts) : Tiles file before (filler ++ cs) ts := by
  cases h with
  | finish hgap =>
    rw [List.append_assoc]
    exact .finish (hfiller.append_isGap hgap)
  | @lexeme _ gap rest l us hgap hl htiles =>
    rw [← List.append_assoc filler, List.append_assoc before]
    rw [List.append_assoc before] at htiles
    exact .lexeme (hfiller.append_isGap hgap) hl htiles

theorem line_notMem_of_isWord {word : List Char} (h : isWord word = true) : '\n' ∉ word := by
  cases word with
  | nil => cases h
  | cons c cs =>
    obtain ⟨hc, hcs⟩ := (Bool.and_eq_true _ _).mp h
    rw [List.mem_cons, not_or]
    refine ⟨(ne_of_opensWord hc (by decide) rfl (by decide)).symm, fun hline => ?_⟩
    have hword : Lexeme.isWordChar '\n' = true := List.all_eq_true.1 hcs _ hline
    revert hword
    decide

theorem Quotable.line_notMem {inner : List Char} (h : Quotable inner) : '\n' ∉ inner := by
  induction h with
  | nil => exact List.not_mem_nil
  | plain _ hc _ _ ih => simp [Ne.symm hc, ih]
  | escape hc _ ih => simp [Ne.symm hc, ih]

/-- A lexeme that is neither a line end nor illegal stays in its line. -/
theorem line_notMem_chars {l : Lexeme} {rest : List Char} (h : l.Whole rest)
    (hline : l.kind ≠ .newline) (hlegal : l.kind ≠ .illegal) : '\n' ∉ l.chars := by
  cases h with
  | newline => exact absurd rfl hline
  | mark m => cases m <;> decide
  | numeral _ hdigits =>
    intro hmem
    cases hdigits _ hmem
  | keyword hk hagree => exact line_notMem_of_isWord (isWord_of_agree_keyword hk hagree)
  | relation hagree =>
    have hword := line_notMem_of_isWord (isWord_of_agree_relation hagree)
    simp [hword]
  | name hword => exact line_notMem_of_isWord hword
  | quoted hinner => simp [hinner.line_notMem]
  | unclosed | dangling | stray => exact absurd rfl hlegal

theorem advance_of_line {cs : List Char} (h : '\n' ∉ cs) (place : Position) :
    place.advance cs = ⟨place.file, place.line, place.column + cs.length⟩ := by
  induction cs generalizing place with
  | nil => rfl
  | cons c cs ih =>
    rw [List.mem_cons, not_or] at h
    obtain ⟨hc, hcs⟩ := h
    rw [Position.advance_cons, ih hcs, Position.next, if_neg (Ne.symm hc), List.length_cons,
      Nat.add_comm cs.length, ← Nat.add_assoc]

/-- From places that are the same, parts that take the same room within a line lead to the same. -/
theorem placeAfter_append_congr (hplace : placeAfter file before' = placeAfter file before)
    {ds : List Char} (hcs : '\n' ∉ cs) (hds : '\n' ∉ ds) (hlength : ds.length = cs.length) :
    placeAfter file (before' ++ ds) = placeAfter file (before ++ cs) := by
  rw [← advance_placeAfter, ← advance_placeAfter, hplace, advance_of_line hcs, advance_of_line hds,
    hlength]

/-- What stands behind places that are the same leads to places that are the same. -/
theorem placeAfter_append (hplace : placeAfter file before' = placeAfter file before)
    (cs : List Char) : placeAfter file (before' ++ cs) = placeAfter file (before ++ cs) := by
  rw [← advance_placeAfter, ← advance_placeAfter, hplace]

theorem token_congr (hplace : placeAfter file before' = placeAfter file before) (l : Lexeme) :
    l.token file before' = l.token file before := by
  rw [Lexeme.token, Lexeme.token, hplace, placeAfter_append hplace]

theorem exists_tiles_of_thins (h : Tiles file before cs ts) {init us : List Token} {eof : Token}
    (hts : ts = init ++ [eof]) (hthins : Thins init us) (hlegal : ∀ t ∈ init, t.kind ≠ .illegal)
    (hplace : placeAfter file before' = placeAfter file before) :
    ∃ cs', Tiles file before' cs' (us ++ [eof]) ∧ Softens cs cs' := by
  induction h generalizing init us before' with
  | @finish before gap hgap =>
    obtain ⟨rfl, hlast⟩ := List.append_eq_singleton_iff.1 hts.symm |>.resolve_right (by simp)
    cases hthins
    have htiles : Tiles file before' gap [Lexeme.finish.token file (before' ++ gap)] :=
      .finish hgap
    rw [token_congr (placeAfter_append hplace gap)] at htiles
    exact ⟨gap, by simpa [← hlast] using htiles, fun _ => .inl⟩
  | @lexeme before gap rest l ts hgap hl htiles ih =>
    obtain ⟨c, chars, hchars, -⟩ := Lexeme.split_of_whole hl
    have hgapPlace := placeAfter_append hplace gap
    cases init with
    | nil => exact absurd (List.cons.inj hts).2 htiles.ne_nil
    | cons t init =>
      obtain ⟨rfl, hrest⟩ := List.cons.inj hts
      obtain ⟨hl', hlegal⟩ := List.forall_mem_cons.1 hlegal
      change l.kind ≠ .illegal at hl'
      cases hthins with
      | keep t hthins =>
        have hnextPlace := placeAfter_append hgapPlace l.chars
        obtain ⟨rest', htiles', hsoft⟩ := ih hrest hthins hlegal hnextPlace
        have hgap' : IsGap gap (l.chars ++ rest') := by
          rw [hchars, List.cons_append] at hgap ⊢
          exact hgap.soften (hsoft.append_left chars)
        have hall := Tiles.lexeme hgap' (hl.soften hl' hsoft) htiles'
        rw [token_congr hgapPlace] at hall
        exact ⟨_, hall, (hsoft.append_left l.chars).append_left gap⟩
      | drop hline hthins =>
        change l.kind ≠ .newline at hline
        let spaces := List.replicate l.chars.length ' '
        have hnoLine := line_notMem_chars hl hline hl'
        have hspaces : '\n' ∉ spaces := by simp [spaces]
        have hspacesPlace := placeAfter_append_congr hgapPlace hnoLine hspaces (by simp [spaces])
        obtain ⟨rest', htiles', -⟩ := ih hrest hthins hlegal hspacesPlace
        have hfiller : IsFiller (gap ++ spaces) := by
          rw [hchars, List.cons_append] at hgap
          refine (isFiller_of_isGap hgap ?_).append (isFiller_spaces _)
          rintro rfl
          exact hnoLine (by simp [hchars])
        rw [List.append_assoc] at htiles'
        refine ⟨_, htiles'.filler_append hfiller, ?_⟩
        rw [List.append_assoc]
        refine Softens.append_left (fun d hd => .inr ?_) gap
        simp [spaces, hchars, List.replicate_succ] at hd
        subst hd
        rfl

end Texts

/-- Every text has a trimmed one, whose tokens are left of those of the text. -/
theorem exists_trimsTo (name text : String) :
    ∃ text', TrimsTo name text text' ∧ Thins (tokenize name text) (tokenize name text') := by
  cases hparse : parse? name text with
  | error place =>
    refine ⟨text, ?_, .refl _⟩
    rw [TrimsTo, hparse]
    rfl
  | ok p =>
    obtain ⟨ts, htiles, hprogram⟩ := parse?_ok_iff_spells.1 hparse
    obtain ⟨hd, heof⟩ := hprogram
    obtain ⟨us, hthins, htrimmed⟩ := exists_trimmed hd .command
    obtain ⟨cs', htiles', -⟩ :=
      exists_tiles_of_thins htiles rfl hthins (kind_ne_illegal_of_mem hd) rfl
    rw [← String.toList_ofList (l := cs')] at htiles'
    refine ⟨String.ofList cs', ?_, ?_⟩
    · rw [TrimsTo, hparse]
      exact parse?_ok_iff_spells.2 ⟨_, htiles', .intro htrimmed heof⟩
    · rw [tokenize_eq_iff.2 htiles, tokenize_eq_iff.2 htiles']
      exact hthins.append (.refl _)

theorem Library.exists_trimsTo (library : Library) : ∃ library', library.TrimsTo library' := by
  induction library with
  | nil => exact ⟨[], .nil⟩
  | cons source sources ih =>
    obtain ⟨sources', hsources⟩ := ih
    obtain ⟨text', htext, -⟩ := DrawLang.exists_trimsTo source.name source.text
    exact ⟨⟨source.name, text'⟩ :: sources', .cons ⟨rfl, htext⟩ hsources⟩

/-! ## Outcomes -/

/-- **Values matter in numbers only, and nothing after them there does.** Every text and every
library can be trimmed. With a trimmed library, a trimmed program ends at the same depths as the
program does with the library, and so do texts; the picture, the frames and the faults are the
same. -/
theorem values_matter_in_numbers (settings : Settings) (name : String) :
    (∀ library', settings.library.TrimsTo library' → ∀ depth,
      (∀ p : Program, Option.Rel SameResult (p.run? settings depth name)
        (Program.run? { settings with library := library' } depth name
          (Stmt.trimAll .command p))) ∧
      ∀ text text', TrimsTo name text text' →
        Option.Rel SameResult (runText? settings depth name text)
          (runText? { settings with library := library' } depth name text')) ∧
    (∃ library', settings.library.TrimsTo library') ∧
    ∀ text, ∃ text', TrimsTo name text text' ∧
      Thins (tokenize name text) (tokenize name text') := by
  refine ⟨fun library' hlibrary depth => ?_, settings.library.exists_trimsTo, exists_trimsTo name⟩
  refine ⟨rel_run?_trimmed settings hlibrary depth name, fun text text' htext => ?_⟩
  rw [TrimsTo] at htext
  unfold runText?
  rw [htext]
  cases parse? name text with
  | error place => exact rel_unexecuted? Iff.rfl ⟨rfl, rfl, rfl⟩
  | ok p => exact rel_run?_trimmed settings hlibrary depth name p

/-- A source with a command and a number that have values. -/
def shadeText : String :=
  "Command Dot X \x7b\nSet [X X] <Shade X>\nValue 1 / 0\n\x7d\n" ++
    "Number Shade A \x7b\nSame? A 0 \x7b\nValue 9\nPaper A\n\x7d\nValue 9 / A\nDot 1\n\x7d"

def shadeTrimmedText : String :=
  "Command Dot X \x7b\nSet [X X] <Shade X>\n           \n\x7d\n" ++
    "Number Shade A \x7b\nSame? A 0 \x7b\nValue 9\n       \n\x7d\nValue 9 / A\n     \n\x7d"

theorem trimsTo_shadeTrimmedText : TrimsTo "shade" shadeText shadeTrimmedText := by
  unfold TrimsTo
  decide +kernel

def shadeSettings : Settings :=
  { length := 2, recording := true, library := [⟨"shade", shadeText⟩] }

theorem shade_trimmed : ∃ o o',
    shadeSettings.library.TrimsTo [⟨"shade", shadeTrimmedText⟩] ∧
    TrimsTo "main" "Dot 0\nValue 3\nDot 1\nDot Nix" "Dot 0\n       \nDot 1\nDot Nix" ∧
    runText? shadeSettings 4 "main" "Dot 0\nValue 3\nDot 1\nDot Nix" = some o ∧
    runText? { shadeSettings with library := [⟨"shade", shadeTrimmedText⟩] } 4 "main"
      "Dot 0\n       \nDot 1\nDot Nix" = some o' ∧
    o.faults = #[.unknownName ⟨"main", 4, 8⟩ "Nix"] ∧ SameResult o o' := by
  have htext : TrimsTo "main" "Dot 0\nValue 3\nDot 1\nDot Nix"
      "Dot 0\n       \nDot 1\nDot Nix" := by
    unfold TrimsTo
    decide +kernel
  have hlibrary : shadeSettings.library.TrimsTo [⟨"shade", shadeTrimmedText⟩] :=
    .cons ⟨rfl, trimsTo_shadeTrimmedText⟩ .nil
  have hfaults : (runText? shadeSettings 4 "main" "Dot 0\nValue 3\nDot 1\nDot Nix").map
      (·.faults) = some #[.unknownName ⟨"main", 4, 8⟩ "Nix"] := by
    decide +kernel
  obtain ⟨o, ho, hlist⟩ := Option.map_eq_some_iff.1 hfaults
  have hrel := ((values_matter_in_numbers shadeSettings "main").1 _ hlibrary 4).2 _ _ htext
  generalize runText? shadeSettings 4 _ _ = r at ho hrel ⊢
  generalize runText? { shadeSettings with library := _ } 4 _ _ = r' at hrel ⊢
  cases ho
  cases hrel with
  | @some _ o' hsame => exact ⟨o, o', hlibrary, htext, rfl, rfl, hlist, hsame⟩

end DrawLang
