import DrawLang.Proofs.Grammar
import DrawLang.Proofs.Spelling
import DrawLang.Syntax.Render

/-!
# Tokens of canonical texts

A tree whose names, numerals and paths can be written has a canonical text that reads as tokens one
would expect: those of `shapes`. Every part of a canonical text ends in front of a character that
cannot prolong it, and this is what holds the parts together.

* `Stmt.WellFormed`: names, numerals and paths can be written.
* `Stmt.outline`: the tree without its places.
* `Program.render_congr`: the canonical text does not depend on places.
* `Stmt.shapes`: the tokens of the canonical text, without places.
* `shapesOf_program`: the canonical text reads as these tokens.
-/

namespace DrawLang

/-! ## Trees that can be written -/

mutual

/-- Whether all names and numerals of an expression can be written. -/
def Expr.WellFormed : Expr → Prop
  | .literal digits => IsNumeral digits
  | .name word => IsName word.text
  | .binary _ left right _ => left.WellFormed ∧ right.WellFormed
  | .call word args => IsName word.text ∧ Expr.AllWellFormed args

def Expr.AllWellFormed : List Expr → Prop
  | [] => True
  | e :: es => e.WellFormed ∧ Expr.AllWellFormed es

end

mutual

def Stmt.WellFormed : Stmt → Prop
  | .paper e | .pen e | .value e => e.WellFormed
  | .line x₁ y₁ x₂ y₂ => x₁.WellFormed ∧ y₁.WellFormed ∧ x₂.WellFormed ∧ y₂.WellFormed
  | .assign name e => IsName name ∧ e.WellFormed
  | .setPixel x y e => x.WellFormed ∧ y.WellFormed ∧ e.WellFormed
  | .readPixel name x y => IsName name ∧ x.WellFormed ∧ y.WellFormed
  | .block body => Stmt.AllWellFormed body
  | .loop name a b body =>
    IsName name ∧ a.WellFormed ∧ b.WellFormed ∧ Stmt.AllWellFormed body
  | .test _ a b body => a.WellFormed ∧ b.WellFormed ∧ Stmt.AllWellFormed body
  | .define _ name params body =>
    IsName name ∧ (∀ param ∈ params, IsName param) ∧ Stmt.AllWellFormed body
  | .call word args => IsName word.text ∧ Expr.AllWellFormed args
  | .load path => Quotable path.text.toList

def Stmt.AllWellFormed : List Stmt → Prop
  | [] => True
  | s :: ss => s.WellFormed ∧ Stmt.AllWellFormed ss

end

def Program.WellFormed (p : Program) : Prop := Stmt.AllWellFormed p

/-! ## Trees without places -/

/-- The place that stands for all others. -/
def Position.origin : Position := .start ""

/-- A word without its place. -/
def Word.outline (w : Word) : Word := ⟨w.text, .origin, .origin⟩

mutual

/-- An expression without its places. -/
def Expr.outline : Expr → Expr
  | .literal digits => .literal digits
  | .name word => .name word.outline
  | .binary op left right _ => .binary op left.outline right.outline .origin
  | .call word args => .call word.outline (Expr.outlineAll args)

def Expr.outlineAll : List Expr → List Expr
  | [] => []
  | e :: es => e.outline :: Expr.outlineAll es

end

mutual

def Stmt.outline : Stmt → Stmt
  | .paper e => .paper e.outline
  | .pen e => .pen e.outline
  | .line x₁ y₁ x₂ y₂ => .line x₁.outline y₁.outline x₂.outline y₂.outline
  | .assign name e => .assign name e.outline
  | .setPixel x y e => .setPixel x.outline y.outline e.outline
  | .readPixel name x y => .readPixel name x.outline y.outline
  | .block body => .block (Stmt.outlineAll body)
  | .loop name a b body => .loop name a.outline b.outline (Stmt.outlineAll body)
  | .test r a b body => .test r a.outline b.outline (Stmt.outlineAll body)
  | .define role name params body => .define role name params (Stmt.outlineAll body)
  | .call word args => .call word.outline (Expr.outlineAll args)
  | .value e => .value e.outline
  | .load path => .load path.outline

def Stmt.outlineAll : List Stmt → List Stmt
  | [] => []
  | s :: ss => s.outline :: Stmt.outlineAll ss

end

def Program.outline (p : Program) : Program := Stmt.outlineAll p

mutual

theorem Expr.render_outline : ∀ e : Expr, e.outline.render = e.render
  | .literal _ => rfl
  | .name _ => rfl
  | .binary _ l r _ => by
    simp only [Expr.outline, Expr.render, Expr.render_outline l, Expr.render_outline r]
  | .call _ args => by
    simp only [Expr.outline, Expr.render, Expr.renderArgs_outlineAll args, Word.outline]

theorem Expr.renderArgs_outlineAll :
    ∀ es : List Expr, Expr.renderArgs (Expr.outlineAll es) = Expr.renderArgs es
  | [] => rfl
  | e :: es => by
    simp only [Expr.outlineAll, Expr.renderArgs, Expr.render_outline e,
      Expr.renderArgs_outlineAll es]

end

mutual

/-- The canonical text does not depend on places. -/
theorem Stmt.render_outline : ∀ s : Stmt, s.outline.render = s.render
  | .paper e | .pen e | .value e | .assign _ e => by
    simp only [Stmt.outline, Stmt.render, Expr.render_outline e]
  | .line x₁ y₁ x₂ y₂ => by
    simp only [Stmt.outline, Stmt.render]
    rw [← Expr.renderArgs_outlineAll [x₁, y₁, x₂, y₂]]
    rfl
  | .setPixel x y e => by
    simp only [Stmt.outline, Stmt.render, Expr.render_outline]
  | .readPixel _ x y => by
    simp only [Stmt.outline, Stmt.render, Expr.render_outline]
  | .block body => by
    simp only [Stmt.outline, Stmt.render, Stmt.renderLines_outlineAll body]
  | .loop _ a b body => by
    simp only [Stmt.outline, Stmt.render, Stmt.renderLines_outlineAll body, Expr.renderArgs,
      Expr.render_outline]
  | .test _ a b body => by
    simp only [Stmt.outline, Stmt.render, Stmt.renderLines_outlineAll body, Expr.renderArgs,
      Expr.render_outline]
  | .define _ _ _ body => by
    simp only [Stmt.outline, Stmt.render, Stmt.renderLines_outlineAll body]
  | .call _ args => by
    simp only [Stmt.outline, Stmt.render, Expr.renderArgs_outlineAll args, Word.outline]
  | .load _ => rfl

theorem Stmt.renderLines_outlineAll :
    ∀ ss : List Stmt, Stmt.renderLines (Stmt.outlineAll ss) = Stmt.renderLines ss
  | [] => rfl
  | s :: ss => by
    simp only [Stmt.outlineAll, Stmt.renderLines, Stmt.render_outline s,
      Stmt.renderLines_outlineAll ss]

end

/-- Programs that differ in places only have one canonical text. -/
theorem Program.render_congr {p q : Program} (h : p.outline = q.outline) :
    p.render = q.render := by
  have hp : Stmt.renderLines (Stmt.outlineAll p) = Stmt.renderLines p :=
    Stmt.renderLines_outlineAll p
  have hq : Stmt.renderLines (Stmt.outlineAll q) = Stmt.renderLines q :=
    Stmt.renderLines_outlineAll q
  unfold Program.render
  rw [← hp, ← hq]
  exact congrArg Stmt.renderLines h

/-! ## Tokens of trees -/

def Mark.shape (m : Mark) : Kind × String := (.mark m, String.ofList [m.char])

def Keyword.shape (k : Keyword) : Kind × String := (.keyword k, k.spelling)

def newlineShape : Kind × String := (.newline, "\n")

mutual

/-- The tokens of the canonical text of an expression. -/
def Expr.shapes : Expr → List (Kind × String)
  | .literal digits => [(.integer, digits)]
  | .name word => [(.name, word.text)]
  | .binary op left right _ => Mark.shape .openParen ::
      (left.shapes ++ op.mark.shape :: (right.shapes ++ [Mark.shape .closeParen]))
  | .call word args => Mark.shape .openAngle :: (.name, word.text) ::
      (Expr.shapesAll args ++ [Mark.shape .closeAngle])

def Expr.shapesAll : List Expr → List (Kind × String)
  | [] => []
  | e :: es => e.shapes ++ Expr.shapesAll es

end

def blockShapes (body : List (Kind × String)) : List (Kind × String) :=
  Mark.shape .openBrace :: newlineShape :: (body ++ [Mark.shape .closeBrace])

mutual

def Stmt.shapes : Stmt → List (Kind × String)
  | .paper e => Keyword.paper.shape :: e.shapes
  | .pen e => Keyword.pen.shape :: e.shapes
  | .line x₁ y₁ x₂ y₂ =>
    Keyword.line.shape :: (x₁.shapes ++ (y₁.shapes ++ (x₂.shapes ++ y₂.shapes)))
  | .assign name e => Keyword.set.shape :: (.name, name) :: e.shapes
  | .setPixel x y e => Keyword.set.shape :: Mark.shape .openBracket ::
      (x.shapes ++ (y.shapes ++ Mark.shape .closeBracket :: e.shapes))
  | .readPixel name x y => Keyword.set.shape :: (.name, name) :: Mark.shape .openBracket ::
      (x.shapes ++ (y.shapes ++ [Mark.shape .closeBracket]))
  | .block body => blockShapes (Stmt.shapesAll body)
  | .loop name a b body => Keyword.loop.shape :: (.name, name) ::
      (a.shapes ++ (b.shapes ++ blockShapes (Stmt.shapesAll body)))
  | .test r a b body => (Keyword.test r).shape ::
      (a.shapes ++ (b.shapes ++ blockShapes (Stmt.shapesAll body)))
  | .define role name params body => role.keyword.shape :: (.name, name) ::
      (params.map (fun param => (.name, param)) ++ blockShapes (Stmt.shapesAll body))
  | .call word args => (.name, word.text) :: Expr.shapesAll args
  | .value e => Keyword.value.shape :: e.shapes
  | .load path => [Keyword.load.shape, (.quoted, path.text)]

def Stmt.shapesAll : List Stmt → List (Kind × String)
  | [] => []
  | s :: ss => s.shapes ++ newlineShape :: Stmt.shapesAll ss

end

/-! ## Reading canonical texts -/

/-- Whether what follows a part of a canonical text cannot prolong its last token. -/
def Delimited (rest : List Char) : Prop :=
  ∀ c ∈ rest.head?, c ∈ [' ', '\n', ')', ']', '>']

section Delimited

variable {rest : List Char}

theorem delimited_cons {c : Char} (cs : List Char) (h : c ∈ [' ', '\n', ')', ']', '>']) :
    Delimited (c :: cs) := by
  intro d hd
  obtain rfl := Option.some.inj hd
  exact h

theorem Delimited.isDigit (h : Delimited rest) : ∀ c ∈ rest.head?, c.isDigit = false := by
  intro c hc
  have hmem := h c hc
  simp only [List.mem_cons, List.not_mem_nil, or_false] at hmem
  rcases hmem with rfl | rfl | rfl | rfl | rfl <;> rfl

theorem Delimited.isWordChar (h : Delimited rest) :
    ∀ c ∈ rest.head?, Lexeme.isWordChar c = false ∧ c ≠ '?' := by
  intro c hc
  have hmem := h c hc
  simp only [List.mem_cons, List.not_mem_nil, or_false] at hmem
  rcases hmem with rfl | rfl | rfl | rfl | rfl <;> decide

theorem shapesOf_space (cs : List Char) : shapesOf (' ' :: cs) = shapesOf cs :=
  shapesOf_blank rfl cs

/-- Marks that cannot open a comment are read wherever they stand. -/
theorem shapesOf_char (c : Char) {m : Mark} (hc : Mark.ofChar? c = some m) (hm : m ≠ .slash)
    (cs : List Char) : shapesOf (c :: cs) = m.shape :: shapesOf cs := by
  rw [← Mark.char_of_ofChar? hc]
  exact shapesOf_mark m fun e => absurd e hm

theorem shapesOf_symbol (op : Operator) (cs : List Char) :
    shapesOf (op.symbol.toList ++ ' ' :: cs) = op.mark.shape :: shapesOf cs := by
  rw [← shapesOf_space cs]
  cases op with
  | add => exact shapesOf_char '+' rfl (by decide) _
  | sub => exact shapesOf_char '-' rfl (by decide) _
  | mul => exact shapesOf_char '*' rfl (by decide) _
  | div => exact shapesOf_mark .slash fun _ => by simp

theorem delimited_renderArgs (args : List Expr) (h : Delimited rest) :
    Delimited ((Expr.renderArgs args).toList ++ rest) := by
  cases args with
  | nil => simpa [Expr.renderArgs] using h
  | cons e es =>
    simp only [Expr.renderArgs, String.toList_append, List.append_assoc]
    exact delimited_cons _ (by decide)

end Delimited

mutual

/-- The canonical text of an expression reads as the tokens of the expression. -/
theorem shapesOf_expr : ∀ (e : Expr), e.WellFormed → ∀ {rest : List Char}, Delimited rest →
    shapesOf (e.render.toList ++ rest) = e.shapes ++ shapesOf rest
  | .literal digits, h, rest, hrest => shapesOf_isNumeral h hrest.isDigit
  | .name word, h, rest, hrest => shapesOf_name h hrest.isWordChar
  | .binary op l r place, h, rest, hrest => by
    have hr := shapesOf_expr r h.2 (delimited_cons (c := ')') rest (by decide))
    have hl := shapesOf_expr l h.1 (delimited_cons (c := ' ')
      (op.symbol.toList ++ ' ' :: (r.render.toList ++ ')' :: rest)) (by decide))
    have htext : (Expr.binary op l r place).render.toList ++ rest = '(' :: (l.render.toList ++
        ' ' :: (op.symbol.toList ++ ' ' :: (r.render.toList ++ ')' :: rest))) := by
      simp [Expr.render]
    rw [htext, shapesOf_char '(' rfl (by decide), hl, shapesOf_space, shapesOf_symbol, hr,
      shapesOf_char ')' rfl (by decide)]
    simp [Expr.shapes]
  | .call word args, h, rest, hrest => by
    have hargs := shapesOf_args args h.2 (delimited_cons (c := '>') rest (by decide))
    have hname := shapesOf_name h.1 (delimited_renderArgs args
      (delimited_cons (c := '>') rest (by decide))).isWordChar
    have htext : (Expr.call word args).render.toList ++ rest =
        '<' :: (word.text.toList ++ ((Expr.renderArgs args).toList ++ '>' :: rest)) := by
      simp [Expr.render]
    rw [htext, shapesOf_char '<' rfl (by decide), hname, hargs,
      shapesOf_char '>' rfl (by decide)]
    simp [Expr.shapes]

theorem shapesOf_args : ∀ (es : List Expr), Expr.AllWellFormed es → ∀ {rest : List Char},
    Delimited rest →
    shapesOf ((Expr.renderArgs es).toList ++ rest) = Expr.shapesAll es ++ shapesOf rest
  | [], _, rest, _ => by simp [Expr.renderArgs, Expr.shapesAll]
  | e :: es, h, rest, hrest => by
    have he := shapesOf_expr e h.1 (delimited_renderArgs es hrest)
    have hes := shapesOf_args es h.2 hrest
    have htext : (Expr.renderArgs (e :: es)).toList ++ rest =
        ' ' :: (e.render.toList ++ ((Expr.renderArgs es).toList ++ rest)) := by
      simp [Expr.renderArgs]
    rw [htext, shapesOf_space, he, hes]
    simp [Expr.shapesAll]

end

/-! ### Statements -/

section Parts

variable {rest : List Char}

/-- A reserved word in front of something that a space sets apart. -/
theorem shapesOf_opening (k : Keyword) (cs : List Char) :
    shapesOf (k.letters ++ ' ' :: cs) = k.shape :: shapesOf cs := by
  have hspace : ∀ d ∈ (' ' :: cs).head?, Lexeme.isWordChar d = false :=
    fun d hd => ((delimited_cons cs (by decide)).isWordChar d hd).1
  rw [shapesOf_keyword k hspace, shapesOf_space]
  rfl

theorem shapesOf_inked (k : Keyword) {e : Expr} (h : e.WellFormed) (hrest : Delimited rest) :
    shapesOf ((k.spelling ++ " " ++ e.render).toList ++ rest) =
      k.shape :: e.shapes ++ shapesOf rest := by
  have htext : (k.spelling ++ " " ++ e.render).toList ++ rest =
      k.letters ++ ' ' :: (e.render.toList ++ rest) := by
    simp [Keyword.spelling]
  rw [htext, shapesOf_opening, shapesOf_expr e h hrest]
  rfl

/-- The position of a point, in brackets. -/
theorem shapesOf_coordinates {x y : Expr} (hx : x.WellFormed) (hy : y.WellFormed)
    (rest : List Char) :
    shapesOf ('[' :: (x.render.toList ++ ' ' :: (y.render.toList ++ ']' :: rest))) =
      Mark.shape .openBracket :: (x.shapes ++ (y.shapes ++
        Mark.shape .closeBracket :: shapesOf rest)) := by
  have hys := shapesOf_expr y hy (delimited_cons (c := ']') rest (by decide))
  have hxs := shapesOf_expr x hx
    (delimited_cons (c := ' ') (y.render.toList ++ ']' :: rest) (by decide))
  rw [shapesOf_char '[' rfl (by decide), hxs, shapesOf_space, hys,
    shapesOf_char ']' rfl (by decide)]

theorem shapesOf_params {params : List String} (h : ∀ param ∈ params, IsName param)
    (hrest : Delimited rest) :
    shapesOf (params.flatMap (fun param => ' ' :: param.toList) ++ rest) =
      params.map (fun param => (Kind.name, param)) ++ shapesOf rest := by
  induction params with
  | nil => rfl
  | cons param params ih =>
    have hnext : Delimited (params.flatMap (fun param => ' ' :: param.toList) ++ rest) := by
      cases params with
      | nil => exact hrest
      | cons q qs => exact delimited_cons _ (by decide)
    have hname := shapesOf_name (h param (by simp)) hnext.isWordChar
    have hmore := ih fun q hq => h q (by simp [hq])
    rw [List.flatMap_cons, List.cons_append, List.cons_append, List.append_assoc,
      shapesOf_space, hname, hmore]
    rfl

theorem toList_renderHeader (name : String) (params : List String) :
    (renderHeader name params).toList =
      name.toList ++ params.flatMap fun param => ' ' :: param.toList := by
  induction params generalizing name with
  | nil => simp [renderHeader]
  | cons param params ih =>
    have hfold : renderHeader name (param :: params) =
        renderHeader (name ++ " " ++ param) params := rfl
    rw [hfold, ih]
    simp

theorem shapesOf_header {name : String} {params : List String} (hname : IsName name)
    (hparams : ∀ param ∈ params, IsName param) (hrest : Delimited rest) :
    shapesOf ((renderHeader name params).toList ++ rest) =
      (.name, name) :: (params.map (fun param => (.name, param)) ++ shapesOf rest) := by
  have hnext : Delimited (params.flatMap (fun param => ' ' :: param.toList) ++ rest) := by
    cases params with
    | nil => exact hrest
    | cons q qs => exact delimited_cons _ (by decide)
  rw [toList_renderHeader, List.append_assoc, shapesOf_name hname hnext.isWordChar,
    shapesOf_params hparams hrest]

theorem shapesOf_renderBlock {lines : String} {body : List (Kind × String)}
    (h : ∀ rest, shapesOf (lines.toList ++ rest) = body ++ shapesOf rest) (rest : List Char) :
    shapesOf ((renderBlock lines).toList ++ rest) = blockShapes body ++ shapesOf rest := by
  have htext : (renderBlock lines).toList ++ rest =
      '\x7b' :: '\n' :: (lines.toList ++ '\x7d' :: rest) := by
    simp [renderBlock]
  rw [htext, shapesOf_char '\x7b' rfl (by decide), shapesOf_newline, h,
    shapesOf_char '\x7d' rfl (by decide)]
  simp [blockShapes, newlineShape]

end Parts

mutual

/-- The canonical text of a statement reads as the tokens of the statement. -/
theorem shapesOf_stmt : ∀ (s : Stmt), s.WellFormed → ∀ {rest : List Char}, Delimited rest →
    shapesOf (s.render.toList ++ rest) = s.shapes ++ shapesOf rest
  | .paper e, h, rest, hrest => shapesOf_inked .paper h hrest
  | .pen e, h, rest, hrest => shapesOf_inked .pen h hrest
  | .value e, h, rest, hrest => shapesOf_inked .value h hrest
  | .line x₁ y₁ x₂ y₂, h, rest, hrest => by
    have htext : (Stmt.line x₁ y₁ x₂ y₂).render.toList ++ rest =
        Keyword.line.letters ++ ((Expr.renderArgs [x₁, y₁, x₂, y₂]).toList ++ rest) := by
      simp [Stmt.render, Keyword.spelling]
    have hargs := shapesOf_args [x₁, y₁, x₂, y₂] ⟨h.1, h.2.1, h.2.2.1, h.2.2.2, trivial⟩ hrest
    have hword := shapesOf_keyword .line
      fun d hd => ((delimited_renderArgs [x₁, y₁, x₂, y₂] hrest).isWordChar d hd).1
    rw [htext, hword, hargs]
    simp [Stmt.shapes, Expr.shapesAll, Keyword.shape]
  | .assign name e, h, rest, hrest => by
    have htext : (Stmt.assign name e).render.toList ++ rest =
        Keyword.set.letters ++ ' ' :: (name.toList ++ ' ' :: (e.render.toList ++ rest)) := by
      simp [Stmt.render, Keyword.spelling]
    have hname := shapesOf_name h.1
      (delimited_cons (c := ' ') (e.render.toList ++ rest) (by decide)).isWordChar
    rw [htext, shapesOf_opening, hname, shapesOf_space, shapesOf_expr e h.2 hrest]
    rfl
  | .setPixel x y e, h, rest, hrest => by
    have htext : (Stmt.setPixel x y e).render.toList ++ rest = Keyword.set.letters ++ ' ' ::
        '[' :: (x.render.toList ++ ' ' :: (y.render.toList ++ ']' :: ' ' ::
          (e.render.toList ++ rest))) := by
      simp [Stmt.render, Keyword.spelling]
    rw [htext, shapesOf_opening, shapesOf_coordinates h.1 h.2.1, shapesOf_space,
      shapesOf_expr e h.2.2 hrest]
    simp [Stmt.shapes]
  | .readPixel name x y, h, rest, hrest => by
    have htext : (Stmt.readPixel name x y).render.toList ++ rest = Keyword.set.letters ++ ' ' ::
        (name.toList ++ ' ' :: '[' :: (x.render.toList ++ ' ' ::
          (y.render.toList ++ ']' :: rest))) := by
      simp [Stmt.render, Keyword.spelling]
    have hname := shapesOf_name h.1 (delimited_cons (c := ' ')
      ('[' :: (x.render.toList ++ ' ' :: (y.render.toList ++ ']' :: rest)))
      (by decide)).isWordChar
    rw [htext, shapesOf_opening, hname, shapesOf_space, shapesOf_coordinates h.2.1 h.2.2]
    simp [Stmt.shapes]
  | .block body, h, rest, _ => shapesOf_renderBlock (shapesOf_lines body h) rest
  | .loop name a b body, h, rest, _ => by
    have htext : (Stmt.loop name a b body).render.toList ++ rest = Keyword.loop.letters ++ ' ' ::
        (name.toList ++ ((Expr.renderArgs [a, b]).toList ++ ' ' ::
          ((renderBlock (Stmt.renderLines body)).toList ++ rest))) := by
      simp [Stmt.render, Keyword.spelling]
    have hspace := delimited_cons (c := ' ')
      ((renderBlock (Stmt.renderLines body)).toList ++ rest) (by decide)
    have hname := shapesOf_name h.1 (delimited_renderArgs [a, b] hspace).isWordChar
    have hargs := shapesOf_args [a, b] ⟨h.2.1, h.2.2.1, trivial⟩ hspace
    rw [htext, shapesOf_opening, hname, hargs, shapesOf_space,
      shapesOf_renderBlock (shapesOf_lines body h.2.2.2)]
    simp [Stmt.shapes, Expr.shapesAll]
  | .test r a b body, h, rest, _ => by
    have htext : (Stmt.test r a b body).render.toList ++ rest = (Keyword.test r).letters ++
        ((Expr.renderArgs [a, b]).toList ++ ' ' ::
          ((renderBlock (Stmt.renderLines body)).toList ++ rest)) := by
      simp [Stmt.render, Relation.spelling, Keyword.letters]
    have hspace := delimited_cons (c := ' ')
      ((renderBlock (Stmt.renderLines body)).toList ++ rest) (by decide)
    have hword := shapesOf_keyword (.test r)
      fun d hd => ((delimited_renderArgs [a, b] hspace).isWordChar d hd).1
    have hargs := shapesOf_args [a, b] ⟨h.1, h.2.1, trivial⟩ hspace
    rw [htext, hword, hargs, shapesOf_space, shapesOf_renderBlock (shapesOf_lines body h.2.2)]
    simp [Stmt.shapes, Expr.shapesAll, Keyword.shape]
  | .define role name params body, h, rest, _ => by
    have htext : (Stmt.define role name params body).render.toList ++ rest =
        role.keyword.letters ++ ' ' :: ((renderHeader name params).toList ++ ' ' ::
          ((renderBlock (Stmt.renderLines body)).toList ++ rest)) := by
      simp [Stmt.render, Keyword.spelling]
    have hheader := shapesOf_header h.1 h.2.1 (delimited_cons (c := ' ')
      ((renderBlock (Stmt.renderLines body)).toList ++ rest) (by decide))
    rw [htext, shapesOf_opening, hheader, shapesOf_space,
      shapesOf_renderBlock (shapesOf_lines body h.2.2)]
    simp [Stmt.shapes]
  | .call word args, h, rest, hrest => by
    have htext : (Stmt.call word args).render.toList ++ rest =
        word.text.toList ++ ((Expr.renderArgs args).toList ++ rest) := by
      simp [Stmt.render]
    have hname := shapesOf_name h.1 (delimited_renderArgs args hrest).isWordChar
    rw [htext, hname, shapesOf_args args h.2 hrest]
    rfl
  | .load path, h, rest, _ => by
    have htext : (Stmt.load path).render.toList ++ rest =
        Keyword.load.letters ++ ' ' :: '"' :: (path.text.toList ++ '"' :: rest) := by
      simp [Stmt.render, Keyword.spelling]
    rw [htext, shapesOf_opening, shapesOf_quoted h]
    rfl

/-- The canonical text of statements reads as their tokens, with line ends. -/
theorem shapesOf_lines : ∀ (ss : List Stmt), Stmt.AllWellFormed ss → ∀ (rest : List Char),
    shapesOf ((Stmt.renderLines ss).toList ++ rest) = Stmt.shapesAll ss ++ shapesOf rest
  | [], _, rest => by simp [Stmt.renderLines, Stmt.shapesAll]
  | s :: ss, h, rest => by
    have htext : (Stmt.renderLines (s :: ss)).toList ++ rest =
        s.render.toList ++ '\n' :: ((Stmt.renderLines ss).toList ++ rest) := by
      simp [Stmt.renderLines]
    have hs := shapesOf_stmt s h.1
      (delimited_cons (c := '\n') ((Stmt.renderLines ss).toList ++ rest) (by decide))
    rw [htext, hs, shapesOf_newline, shapesOf_lines ss h.2]
    simp [Stmt.shapesAll, newlineShape]

end

/-- The canonical text of a program reads as the tokens of its statements, and nothing more. -/
theorem shapesOf_program {p : Program} (h : p.WellFormed) :
    shapesOf p.render.toList = Stmt.shapesAll p ++ [(.finish, "")] := by
  have hlines := shapesOf_lines p h []
  rwa [List.append_nil, shapesOf_nil] at hlines

end DrawLang
