import DrawLang.Proofs.Canonical
import DrawLang.Proofs.Grammar.Completeness

/-!
# Reading canonical texts back

The tokens of a canonical text spell, by the rules of the grammar, the tree that was written, up to
places; and readers follow the grammar. So a canonical text reads back as the tree it was made from.

* `derives_of_shapes_stmt`: tokens with the shapes of a statement spell that statement.
* `wellFormed_of_parse`: what is read can be written.
* `parse_render`: what is written reads back as the same tree, apart from places.
-/

namespace DrawLang

open Grammar

/-! ## From tokens to trees -/

section Tokens

variable {t : Token} {kind : Kind} {text : String}

theorem Token.kind_of_shape (h : t.shape = (kind, text)) : t.kind = kind := congrArg Prod.fst h

theorem Token.text_of_shape (h : t.shape = (kind, text)) : t.text = text := congrArg Prod.snd h

theorem Token.outline_word {w : Word} (h : t.shape = (kind, w.text)) :
    t.word.outline = w.outline := by
  simp only [Word.outline, Token.word, Token.text_of_shape h]

end Tokens

/-- An atom is an expression of its own. -/
theorem derives_expr_of_atom {e : Expr} {ts : List Token} (h : Derives (.atom e) ts) :
    Derives (.expr e) ts :=
  .summand (.factor h)

/-- Two atoms around an operator, in parentheses. -/
theorem derives_binary {l r : Expr} {op : Operator} {o sign c : Token} {ls rs : List Token}
    (ho : o.kind = .mark .openParen) (hl : Derives (.atom l) ls) (hsign : sign.kind = .mark op.mark)
    (hr : Derives (.atom r) rs) (hc : c.kind = .mark .closeParen) :
    Derives (.atom (.binary op l r sign.stop)) (o :: (ls ++ sign :: (rs ++ [c]))) := by
  have hinner : Derives (.expr (.binary op l r sign.stop)) (ls ++ sign :: rs) := by
    cases htight : op.isTight with
    | true => exact .summand (.product (.factor hl) htight hsign hr)
    | false => exact .sum (derives_expr_of_atom hl) htight hsign (.factor hr)
  have h := Derives.parens ho hinner hc
  rwa [List.append_assoc, List.cons_append] at h

mutual

/-- Tokens with the shapes of an expression spell that expression, apart from places. -/
theorem derives_of_shapes_expr : ∀ (e : Expr) {ts : List Token},
    ts.map Token.shape = e.shapes → ∃ e', Derives (.atom e') ts ∧ e'.outline = e.outline
  | .literal digits, ts, h => by
    obtain ⟨t, us, rfl, ht, hus⟩ := List.map_eq_cons_iff.1 h
    obtain rfl := List.map_eq_nil_iff.1 hus
    refine ⟨_, .literal (Token.kind_of_shape ht), ?_⟩
    simp only [Expr.outline, Token.text_of_shape ht]
  | .name word, ts, h => by
    obtain ⟨t, us, rfl, ht, hus⟩ := List.map_eq_cons_iff.1 h
    obtain rfl := List.map_eq_nil_iff.1 hus
    refine ⟨_, .name (Token.kind_of_shape ht), ?_⟩
    simp only [Expr.outline, Token.outline_word ht]
  | .binary op l r place, ts, h => by
    obtain ⟨o, us, rfl, ho, h⟩ := List.map_eq_cons_iff.1 h
    obtain ⟨ls, us, rfl, hls, h⟩ := List.map_eq_append_iff.1 h
    obtain ⟨sign, us, rfl, hsign, h⟩ := List.map_eq_cons_iff.1 h
    obtain ⟨rs, us, rfl, hrs, h⟩ := List.map_eq_append_iff.1 h
    obtain ⟨c, us, rfl, hc, h⟩ := List.map_eq_cons_iff.1 h
    obtain rfl := List.map_eq_nil_iff.1 h
    obtain ⟨l', hl, hlo⟩ := derives_of_shapes_expr l hls
    obtain ⟨r', hr, hro⟩ := derives_of_shapes_expr r hrs
    refine ⟨_, derives_binary (Token.kind_of_shape ho) hl (Token.kind_of_shape hsign) hr
      (Token.kind_of_shape hc), ?_⟩
    simp only [Expr.outline, hlo, hro]
  | .call word args, ts, h => by
    obtain ⟨o, us, rfl, ho, h⟩ := List.map_eq_cons_iff.1 h
    obtain ⟨f, us, rfl, hf, h⟩ := List.map_eq_cons_iff.1 h
    obtain ⟨as, us, rfl, has, h⟩ := List.map_eq_append_iff.1 h
    obtain ⟨c, us, rfl, hc, h⟩ := List.map_eq_cons_iff.1 h
    obtain rfl := List.map_eq_nil_iff.1 h
    obtain ⟨args', hargs, hargso⟩ := derives_of_shapes_args args has
    refine ⟨_, .numberCall (Token.kind_of_shape ho) (Token.kind_of_shape hf) hargs
      (Token.kind_of_shape hc), ?_⟩
    simp only [Expr.outline, Token.outline_word hf, hargso]

theorem derives_of_shapes_args : ∀ (es : List Expr) {ts : List Token},
    ts.map Token.shape = Expr.shapesAll es →
    ∃ es', Derives (.exprs es') ts ∧ Expr.outlineAll es' = Expr.outlineAll es
  | [], ts, h => by
    obtain rfl := List.map_eq_nil_iff.1 h
    exact ⟨[], .noExprs, rfl⟩
  | e :: es, ts, h => by
    obtain ⟨as, bs, rfl, has, hbs⟩ := List.map_eq_append_iff.1 h
    obtain ⟨e', he, heo⟩ := derives_of_shapes_expr e has
    obtain ⟨es', hes, heso⟩ := derives_of_shapes_args es hbs
    refine ⟨e' :: es', .moreExprs (derives_expr_of_atom he) hes, ?_⟩
    simp only [Expr.outlineAll, heo, heso]

end

theorem derives_newline {ss : List Stmt} {sep : Token} {ts : List Token}
    (hsep : sep.kind = .newline) (h : Derives (.stmts ss) ts) :
    Derives (.stmts ss) (sep :: ts) := by
  cases h with
  | noStmts hseps => exact .noStmts (List.forall_mem_cons.2 ⟨hsep, hseps⟩)
  | someStmts hb hlines ha =>
    exact .someStmts (List.forall_mem_cons.2 ⟨hsep, hb⟩) hlines ha

theorem allOf_name_of_shapes {params : List String} {ps : List Token}
    (h : ps.map Token.shape = params.map fun param => (.name, param)) :
    AllOf .name ps ∧ ps.map (·.text) = params := by
  constructor
  · intro t ht
    have hmem : t.shape ∈ params.map fun param => (Kind.name, param) :=
      h ▸ List.mem_map_of_mem ht
    obtain ⟨param, -, hparam⟩ := List.mem_map.1 hmem
    exact Token.kind_of_shape hparam.symm
  · have htexts := congrArg (List.map Prod.snd) h
    simpa [Token.shape, Function.comp_def] using htexts

mutual

/-- Tokens with the shapes of a statement spell that statement, apart from places. -/
theorem derives_of_shapes_stmt : ∀ (s : Stmt) {ts : List Token},
    ts.map Token.shape = s.shapes → ∃ s', Derives (.stmt s') ts ∧ s'.outline = s.outline
  | .paper e, ts, h => by
    obtain ⟨k, us, rfl, hk, h⟩ := List.map_eq_cons_iff.1 h
    obtain ⟨e', he, heo⟩ := derives_of_shapes_expr e h
    refine ⟨_, .paper (Token.kind_of_shape hk) (derives_expr_of_atom he), ?_⟩
    simp only [Stmt.outline, heo]
  | .pen e, ts, h => by
    obtain ⟨k, us, rfl, hk, h⟩ := List.map_eq_cons_iff.1 h
    obtain ⟨e', he, heo⟩ := derives_of_shapes_expr e h
    refine ⟨_, .pen (Token.kind_of_shape hk) (derives_expr_of_atom he), ?_⟩
    simp only [Stmt.outline, heo]
  | .value e, ts, h => by
    obtain ⟨k, us, rfl, hk, h⟩ := List.map_eq_cons_iff.1 h
    obtain ⟨e', he, heo⟩ := derives_of_shapes_expr e h
    refine ⟨_, .value (Token.kind_of_shape hk) (derives_expr_of_atom he), ?_⟩
    simp only [Stmt.outline, heo]
  | .line x₁ y₁ x₂ y₂, ts, h => by
    obtain ⟨k, us, rfl, hk, h⟩ := List.map_eq_cons_iff.1 h
    obtain ⟨as, us, rfl, ha, h⟩ := List.map_eq_append_iff.1 h
    obtain ⟨bs, us, rfl, hb, h⟩ := List.map_eq_append_iff.1 h
    obtain ⟨cs, ds, rfl, hc, hd⟩ := List.map_eq_append_iff.1 h
    obtain ⟨a', ha, hao⟩ := derives_of_shapes_expr x₁ ha
    obtain ⟨b', hb, hbo⟩ := derives_of_shapes_expr y₁ hb
    obtain ⟨c', hc, hco⟩ := derives_of_shapes_expr x₂ hc
    obtain ⟨d', hd, hdo⟩ := derives_of_shapes_expr y₂ hd
    refine ⟨_, .line (Token.kind_of_shape hk) (derives_expr_of_atom ha) (derives_expr_of_atom hb)
      (derives_expr_of_atom hc) (derives_expr_of_atom hd), ?_⟩
    simp only [Stmt.outline, hao, hbo, hco, hdo]
  | .assign name e, ts, h => by
    obtain ⟨k, us, rfl, hk, h⟩ := List.map_eq_cons_iff.1 h
    obtain ⟨n, us, rfl, hn, h⟩ := List.map_eq_cons_iff.1 h
    obtain ⟨e', he, heo⟩ := derives_of_shapes_expr e h
    refine ⟨_, .assign (Token.kind_of_shape hk) (Token.kind_of_shape hn)
      (derives_expr_of_atom he), ?_⟩
    simp only [Stmt.outline, Token.text_of_shape hn, heo]
  | .setPixel x y e, ts, h => by
    obtain ⟨k, us, rfl, hk, h⟩ := List.map_eq_cons_iff.1 h
    obtain ⟨o, us, rfl, ho, h⟩ := List.map_eq_cons_iff.1 h
    obtain ⟨xs, us, rfl, hx, h⟩ := List.map_eq_append_iff.1 h
    obtain ⟨ys, us, rfl, hy, h⟩ := List.map_eq_append_iff.1 h
    obtain ⟨c, us, rfl, hc, h⟩ := List.map_eq_cons_iff.1 h
    obtain ⟨x', hx, hxo⟩ := derives_of_shapes_expr x hx
    obtain ⟨y', hy, hyo⟩ := derives_of_shapes_expr y hy
    obtain ⟨e', he, heo⟩ := derives_of_shapes_expr e h
    refine ⟨_, .setPixel (Token.kind_of_shape hk) (Token.kind_of_shape ho)
      (derives_expr_of_atom hx) (derives_expr_of_atom hy) (Token.kind_of_shape hc)
      (derives_expr_of_atom he), ?_⟩
    simp only [Stmt.outline, hxo, hyo, heo]
  | .readPixel name x y, ts, h => by
    obtain ⟨k, us, rfl, hk, h⟩ := List.map_eq_cons_iff.1 h
    obtain ⟨n, us, rfl, hn, h⟩ := List.map_eq_cons_iff.1 h
    obtain ⟨o, us, rfl, ho, h⟩ := List.map_eq_cons_iff.1 h
    obtain ⟨xs, us, rfl, hx, h⟩ := List.map_eq_append_iff.1 h
    obtain ⟨ys, us, rfl, hy, h⟩ := List.map_eq_append_iff.1 h
    obtain ⟨c, us, rfl, hc, h⟩ := List.map_eq_cons_iff.1 h
    obtain rfl := List.map_eq_nil_iff.1 h
    obtain ⟨x', hx, hxo⟩ := derives_of_shapes_expr x hx
    obtain ⟨y', hy, hyo⟩ := derives_of_shapes_expr y hy
    refine ⟨_, .readPixel (Token.kind_of_shape hk) (Token.kind_of_shape hn)
      (Token.kind_of_shape ho) (derives_expr_of_atom hx) (derives_expr_of_atom hy)
      (Token.kind_of_shape hc), ?_⟩
    simp only [Stmt.outline, Token.text_of_shape hn, hxo, hyo]
  | .block body, ts, h => by
    obtain ⟨body', hbody, hbodyo⟩ := derives_of_shapes_block body h
    refine ⟨_, .nested hbody, ?_⟩
    simp only [Stmt.outline, hbodyo]
  | .loop name a b body, ts, h => by
    obtain ⟨k, us, rfl, hk, h⟩ := List.map_eq_cons_iff.1 h
    obtain ⟨n, us, rfl, hn, h⟩ := List.map_eq_cons_iff.1 h
    obtain ⟨as, us, rfl, ha, h⟩ := List.map_eq_append_iff.1 h
    obtain ⟨bs, us, rfl, hb, h⟩ := List.map_eq_append_iff.1 h
    obtain ⟨a', ha, hao⟩ := derives_of_shapes_expr a ha
    obtain ⟨b', hb, hbo⟩ := derives_of_shapes_expr b hb
    obtain ⟨body', hbody, hbodyo⟩ := derives_of_shapes_block body h
    refine ⟨_, .loop (Token.kind_of_shape hk) (Token.kind_of_shape hn) (derives_expr_of_atom ha)
      (derives_expr_of_atom hb) hbody, ?_⟩
    simp only [Stmt.outline, Token.text_of_shape hn, hao, hbo, hbodyo]
  | .test r a b body, ts, h => by
    obtain ⟨k, us, rfl, hk, h⟩ := List.map_eq_cons_iff.1 h
    obtain ⟨as, us, rfl, ha, h⟩ := List.map_eq_append_iff.1 h
    obtain ⟨bs, us, rfl, hb, h⟩ := List.map_eq_append_iff.1 h
    obtain ⟨a', ha, hao⟩ := derives_of_shapes_expr a ha
    obtain ⟨b', hb, hbo⟩ := derives_of_shapes_expr b hb
    obtain ⟨body', hbody, hbodyo⟩ := derives_of_shapes_block body h
    refine ⟨_, .test (Token.kind_of_shape hk) (derives_expr_of_atom ha) (derives_expr_of_atom hb)
      hbody, ?_⟩
    simp only [Stmt.outline, hao, hbo, hbodyo]
  | .define role name params body, ts, h => by
    obtain ⟨k, us, rfl, hk, h⟩ := List.map_eq_cons_iff.1 h
    obtain ⟨n, us, rfl, hn, h⟩ := List.map_eq_cons_iff.1 h
    obtain ⟨ps, us, rfl, hps, h⟩ := List.map_eq_append_iff.1 h
    obtain ⟨hall, htexts⟩ := allOf_name_of_shapes hps
    obtain ⟨body', hbody, hbodyo⟩ := derives_of_shapes_block body h
    refine ⟨_, .define (Token.kind_of_shape hk) (Token.kind_of_shape hn) hall hbody, ?_⟩
    simp only [Stmt.outline, Token.text_of_shape hn, htexts, hbodyo]
  | .call word args, ts, h => by
    obtain ⟨f, us, rfl, hf, h⟩ := List.map_eq_cons_iff.1 h
    obtain ⟨args', hargs, hargso⟩ := derives_of_shapes_args args h
    refine ⟨_, .commandCall (Token.kind_of_shape hf) hargs, ?_⟩
    simp only [Stmt.outline, Token.outline_word hf, hargso]
  | .load path, ts, h => by
    obtain ⟨k, us, rfl, hk, h⟩ := List.map_eq_cons_iff.1 h
    obtain ⟨t, us, rfl, ht, h⟩ := List.map_eq_cons_iff.1 h
    obtain rfl := List.map_eq_nil_iff.1 h
    refine ⟨_, .load (Token.kind_of_shape hk) (Token.kind_of_shape ht), ?_⟩
    simp only [Stmt.outline, Token.outline_word ht]

theorem derives_of_shapes_block : ∀ (ss : List Stmt) {ts : List Token},
    ts.map Token.shape = blockShapes (Stmt.shapesAll ss) →
    ∃ ss', Derives (.block ss') ts ∧ Stmt.outlineAll ss' = Stmt.outlineAll ss
  | ss, ts, h => by
    obtain ⟨o, us, rfl, ho, h⟩ := List.map_eq_cons_iff.1 h
    obtain ⟨sep, us, rfl, hsep, h⟩ := List.map_eq_cons_iff.1 h
    obtain ⟨bs, us, rfl, hbs, h⟩ := List.map_eq_append_iff.1 h
    obtain ⟨c, us, rfl, hc, h⟩ := List.map_eq_cons_iff.1 h
    obtain rfl := List.map_eq_nil_iff.1 h
    obtain ⟨ss', hss, hsso⟩ := derives_of_shapes_lines ss hbs
    exact ⟨ss', .block (Token.kind_of_shape ho) (derives_newline (Token.kind_of_shape hsep) hss)
      (Token.kind_of_shape hc), hsso⟩

theorem derives_of_shapes_lines : ∀ (ss : List Stmt) {ts : List Token},
    ts.map Token.shape = Stmt.shapesAll ss →
    ∃ ss', Derives (.stmts ss') ts ∧ Stmt.outlineAll ss' = Stmt.outlineAll ss
  | [], ts, h => by
    obtain rfl := List.map_eq_nil_iff.1 h
    exact ⟨[], .noStmts (by simp [AllOf]), rfl⟩
  | s :: ss, ts, h => by
    obtain ⟨as, us, rfl, ha, h⟩ := List.map_eq_append_iff.1 h
    obtain ⟨sep, us, rfl, hsep, h⟩ := List.map_eq_cons_iff.1 h
    obtain ⟨s', hs, hso⟩ := derives_of_shapes_stmt s ha
    obtain ⟨ss', hss, hsso⟩ := derives_of_shapes_lines ss h
    have hnil : AllOf .newline [] := by simp [AllOf]
    refine ⟨s' :: ss', stmts_cons hnil hs (Token.kind_of_shape hsep) hss, ?_⟩
    simp only [Stmt.outlineAll, hso, hsso]

end

/-! ## What is read can be written -/

section Legible

variable {t : Token}

theorem isNumeral_of_legible (h : Legible t.shape) (hk : t.kind = .integer) : IsNumeral t.text := by
  rwa [Token.shape, hk] at h

theorem isName_of_legible (h : Legible t.shape) (hk : t.kind = .name) : IsName t.text := by
  rwa [Token.shape, hk] at h

theorem quotable_of_legible (h : Legible t.shape) (hk : t.kind = .quoted) :
    Quotable t.text.toList := by
  rwa [Token.shape, hk] at h

end Legible

def Grammar.Phrase.WellFormed : Phrase → Prop
  | .atom e | .term e | .expr e => e.WellFormed
  | .exprs es => Expr.AllWellFormed es
  | .stmt s => s.WellFormed
  | .lines ss | .stmts ss | .block ss => Stmt.AllWellFormed ss

/-- Whether tokens have texts as the tokens of a text have them. -/
def AllLegible (ts : List Token) : Prop := ∀ t ∈ ts, Legible t.shape

@[simp] theorem allLegible_cons {t : Token} {ts : List Token} :
    AllLegible (t :: ts) ↔ Legible t.shape ∧ AllLegible ts :=
  List.forall_mem_cons

@[simp] theorem allLegible_append {ts us : List Token} :
    AllLegible (ts ++ us) ↔ AllLegible ts ∧ AllLegible us :=
  List.forall_mem_append

/-- A tree can be written if its tokens are those of a text. -/
theorem wellFormed_of_derives {ph : Phrase} {ts : List Token} (h : Derives ph ts)
    (hts : AllLegible ts) : ph.WellFormed := by
  induction h with
  | literal hk => exact isNumeral_of_legible (allLegible_cons.1 hts).1 hk
  | name hk => exact isName_of_legible (allLegible_cons.1 hts).1 hk
  | factor _ ih | summand _ ih | nested _ ih => exact ih hts
  | noExprs | noStmts => trivial
  | oneLine _ ih => exact ⟨ih hts, trivial⟩
  | paper _ _ ih | pen _ _ ih | value _ _ ih => exact ih (allLegible_cons.1 hts).2
  | parens _ _ _ ih | block _ _ _ ih =>
    simp only [allLegible_cons, allLegible_append] at hts
    obtain ⟨-, hinner, -⟩ := hts
    exact ih hinner
  | numberCall _ hf _ _ ih =>
    simp only [allLegible_cons, allLegible_append] at hts
    obtain ⟨-, hname, hargs, -⟩ := hts
    exact ⟨isName_of_legible hname hf, ih hargs⟩
  | commandCall hf _ ih =>
    obtain ⟨hname, hargs⟩ := allLegible_cons.1 hts
    exact ⟨isName_of_legible hname hf, ih hargs⟩
  | product _ _ _ _ ihl ihr | sum _ _ _ _ ihl ihr =>
    simp only [allLegible_cons, allLegible_append] at hts
    obtain ⟨hleft, -, hright⟩ := hts
    exact ⟨ihl hleft, ihr hright⟩
  | moreExprs _ _ ihe ihes =>
    obtain ⟨he, hes⟩ := allLegible_append.1 hts
    exact ⟨ihe he, ihes hes⟩
  | line _ _ _ _ _ iha ihb ihc ihd =>
    simp only [allLegible_cons, allLegible_append] at hts
    obtain ⟨-, ha, hb, hc, hd⟩ := hts
    exact ⟨iha ha, ihb hb, ihc hc, ihd hd⟩
  | assign _ hn _ ih =>
    simp only [allLegible_cons] at hts
    obtain ⟨-, hname, he⟩ := hts
    exact ⟨isName_of_legible hname hn, ih he⟩
  | setPixel _ _ _ _ _ _ ihx ihy ih =>
    simp only [allLegible_cons, allLegible_append] at hts
    obtain ⟨-, -, hx, hy, -, he⟩ := hts
    exact ⟨ihx hx, ihy hy, ih he⟩
  | readPixel _ hn _ _ _ _ ihx ihy =>
    simp only [allLegible_cons, allLegible_append] at hts
    obtain ⟨-, hname, -, hx, hy, -⟩ := hts
    exact ⟨isName_of_legible hname hn, ihx hx, ihy hy⟩
  | loop _ hn _ _ _ iha ihb ihss =>
    simp only [allLegible_cons, allLegible_append] at hts
    obtain ⟨-, hname, ha, hb, hss⟩ := hts
    exact ⟨isName_of_legible hname hn, iha ha, ihb hb, ihss hss⟩
  | test _ _ _ _ iha ihb ihss =>
    simp only [allLegible_cons, allLegible_append] at hts
    obtain ⟨-, ha, hb, hss⟩ := hts
    exact ⟨iha ha, ihb hb, ihss hss⟩
  | define _ hn hps _ ihss =>
    simp only [allLegible_cons, allLegible_append] at hts
    obtain ⟨-, hname, hparams, hss⟩ := hts
    refine ⟨isName_of_legible hname hn, ?_, ihss hss⟩
    intro param hparam
    obtain ⟨t, ht, rfl⟩ := List.mem_map.1 hparam
    exact isName_of_legible (hparams t ht) (hps t ht)
  | load _ hp =>
    simp only [allLegible_cons] at hts
    obtain ⟨-, hpath, -⟩ := hts
    exact quotable_of_legible hpath hp
  | moreLines _ _ _ _ ih ihss =>
    simp only [allLegible_append] at hts
    obtain ⟨hs, -, hss⟩ := hts
    exact ⟨ih hs, ihss hss⟩
  | someStmts _ _ _ ih =>
    simp only [allLegible_append] at hts
    obtain ⟨-, hlines, -⟩ := hts
    exact ih hlines

theorem parse?_ok_iff {name source : String} {p : Program} :
    parse? name source = .ok p ↔ Program.ofTokens? (tokenize name source) = .ok p := by
  unfold parse?
  cases Program.ofTokens? (tokenize name source) with
  | error e =>
    show Except.error (blamed e) = Except.ok p ↔ Except.error e = Except.ok p
    simp
  | ok q =>
    show Except.ok q = Except.ok p ↔ Except.ok q = Except.ok p
    simp

/-- A program is read from the tokens of its text by the rules of the grammar. -/
theorem derives_of_parse {name source : String} {p : Program}
    (h : parse? name source = .ok p) :
    ∃ used rest, tokenize name source = used ++ rest ∧ Derives (.stmts p) used := by
  have hread := parse?_ok_iff.1 h
  obtain ⟨rest, hss⟩ := ofTokens?_ok_iff.1 hread
  obtain ⟨used, hts, hd⟩ := statements_sound (stmtAt_sound _) .finish _ hss
  exact ⟨used, _, hts, hd⟩

/-- A text that parses is read as some program. -/
theorem exists_parse_of_isSome {name source : String}
    (h : (parse? name source).toOption.isSome = true) : ∃ p, parse? name source = .ok p := by
  cases hparse : parse? name source with
  | error place =>
    rw [hparse] at h
    cases h
  | ok p => exact ⟨p, rfl⟩

/-- Every program that is read from a text can be written. -/
theorem wellFormed_of_parse {name source : String} {p : Program}
    (h : parse? name source = .ok p) : p.WellFormed := by
  obtain ⟨used, rest, hts, hd⟩ := derives_of_parse h
  apply wellFormed_of_derives hd
  intro t ht
  have hmem : t ∈ tokenize name source := by
    rw [hts]
    exact List.mem_append_left _ ht
  exact legible_of_mem_tokensFrom hmem

/-! ## What is written reads back -/

/-- A canonical text reads back as the tree it was made from, apart from places. -/
theorem parse_render {p : Program} (h : p.WellFormed) (name : String) :
    ∃ q, parse? name p.render = .ok q ∧ q.outline = p.outline := by
  have hshapes : (tokenize name p.render).map Token.shape =
      Stmt.shapesAll p ++ [(.finish, "")] := by
    rw [map_shape_tokenize, shapesOf_program h]
  obtain ⟨ts, us, htokens, hts, hus⟩ := List.map_eq_append_iff.1 hshapes
  obtain ⟨eof, us, rfl, heof, hnil⟩ := List.map_eq_cons_iff.1 hus
  obtain rfl := List.map_eq_nil_iff.1 hnil
  obtain ⟨q, hq, hqo⟩ := derives_of_shapes_lines p hts
  refine ⟨q, ?_, hqo⟩
  rw [parse?_ok_iff, htokens]
  exact ofTokens?_of_isProgram (.intro hq (Token.kind_of_shape heof))

/-- Writing and reading are inverse to each other, up to places, and on whatever has been read: the
canonical text of a program that can be written reads back as that program, which has the same
canonical text, and what is read from any text can be written. -/
theorem canonical_texts_read_back :
    (∀ (name : String) (p : Program), p.WellFormed →
      ∃ q, parse? name p.render = .ok q ∧ q.outline = p.outline ∧ q.render = p.render) ∧
    ∀ (name source : String) (p : Program), parse? name source = .ok p → p.WellFormed := by
  refine ⟨fun name p hp => ?_, fun name source p h => wellFormed_of_parse h⟩
  obtain ⟨q, hq, hout⟩ := parse_render hp name
  exact ⟨q, hq, hout, Program.render_congr hout⟩

/-- A word without its place, as trees made by hand have it. -/
def Word.ofText (text : String) : Word := ⟨text, .origin, .origin⟩

/-- A command named like half a reserved word, with a block in a block, a path with an escaped quote
and a difference on the right of a difference. -/
def nestedProgram : Program :=
  [.define .command "Same" ["a", "B_1"] [.block [.load (.ofText "x\\\"y")], .block []],
    .call (.ofText "Same") [.binary .sub (.literal "007") (.binary .sub (.name (.ofText "a"))
      (.call (.ofText "f") [.literal "1", .literal "2"]) .origin) .origin, .literal "3"]]

theorem nestedProgram_reads_back :
    nestedProgram.WellFormed ∧ ∃ q, parse? "" nestedProgram.render = .ok q ∧
      q.outline = nestedProgram.outline ∧ q.render = nestedProgram.render := by
  have h : nestedProgram.WellFormed := by
    simp only [nestedProgram, Program.WellFormed, Stmt.AllWellFormed, Stmt.WellFormed,
      Expr.AllWellFormed, Expr.WellFormed]
    decide +kernel
  exact ⟨h, canonical_texts_read_back.1 "" nestedProgram h⟩

end DrawLang
