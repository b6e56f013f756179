import DrawLang.Library
import DrawLang.Proofs.Sections
import Mathlib.Data.List.Infix
import Mathlib.Data.List.SplitBy

/-!
# The trees of the standard library

The sources of the standard library are texts. This module says what they spell: for every letter a
command with one line for each stroke, four numbers, and four commands for shapes. A long text is
read in sections, each by itself, and what a section spells is told by its canonical text, which
leaves nothing of a tree open but its places.

* `outline_eq_of_render_eq`: trees with one canonical text differ in places only.
* `outline_of_sections`: a text whose sections spell some programs.
* `Glyph.definition`, `maximum`, `filledRect` and others: the definitions of the library.
* `standard_outline`: the sources of the library spell these definitions.
-/

namespace DrawLang

/-! ## Trees with one text -/

/-- Programs that can be written and have the same canonical text are the same, apart from
places. -/
theorem outline_eq_of_render_eq {p q : Program} (hp : p.WellFormed) (hq : q.WellFormed)
    (h : p.render = q.render) : p.outline = q.outline := by
  obtain ⟨p', hparse, hp'⟩ := parse_render hp ""
  obtain ⟨q', hparse', hq'⟩ := parse_render hq ""
  rw [h, hparse'] at hparse
  obtain rfl : q' = p' := Except.ok.inj hparse
  exact hp'.symm.trans hq'

theorem outlineAll_eq_map (ss : List Stmt) : Stmt.outlineAll ss = ss.map Stmt.outline := by
  induction ss with
  | nil => rfl
  | cons s ss ih => rw [Stmt.outlineAll, ih, List.map_cons]

theorem outlineAll_append (ss ts : List Stmt) :
    Stmt.outlineAll (ss ++ ts) = Stmt.outlineAll ss ++ Stmt.outlineAll ts := by
  simp only [outlineAll_eq_map, List.map_append]

theorem allWellFormed_iff {ss : List Stmt} :
    Stmt.AllWellFormed ss ↔ ∀ s ∈ ss, s.WellFormed := by
  induction ss with
  | nil => simp [Stmt.AllWellFormed]
  | cons s ss ih => simp [Stmt.AllWellFormed, ih]

/-! ## Texts in sections -/

def joinSections (sections : List (List Char)) : List Char := sections.flatMap (· ++ ['\n'])

theorem placeAfter_line (file : String) (before : List Char) :
    placeAfter file (before ++ ['\n']) = ⟨file, before.count '\n' + 2, 1⟩ := by
  simp [placeAfter]

/-- Whether reading has led to a program with the canonical text of another one. -/
def readsLike (q : Program) : Except (List Token) Program → Bool
  | .ok p => decide (p.render = q.render)
  | .error _ => false

theorem readsLike_iff {q : Program} {result : Except (List Token) Program} :
    readsLike q result = true ↔ ∃ p, result = .ok p ∧ p.render = q.render := by
  cases result <;> simp [readsLike]

/-- Whether sections of a named text, from a line on, are read as programs with the canonical texts
of some others, each by itself, and none opens a comment between marks. -/
def sectionsSpell (file : String) : Nat → List (List Char) → List Program → Bool
  | _, [], [] => true
  | line, cs :: sections, q :: programs =>
    decide (¬ ['/', '*'] <:+: cs) &&
      readsLike q (Program.ofTokens? (tokensFrom (cs.length + 1) ⟨file, line, 1⟩ cs)) &&
      sectionsSpell file (line + cs.count '\n' + 1) sections programs
  | _, _, _ => false

/-- The program of sections has the canonical text of the programs that the sections spell. -/
theorem spells_of_sections {file : String} {sections : List (List Char)} {programs : List Program}
    {line : Nat} {before : List Char} (hplace : placeAfter file before = ⟨file, line, 1⟩)
    (h : sectionsSpell file line sections programs = true) :
    ∃ p, Spells file before (joinSections sections) p ∧
      p.render = Program.render programs.flatten := by
  induction sections generalizing line before programs with
  | nil =>
    cases programs with
    | nil =>
      have hempty : Grammar.Derives (.stmts []) [] := .noStmts (List.forall_mem_nil _)
      exact ⟨[], ⟨_, .finish (.nil not_opensGap_nil), .intro hempty rfl⟩, rfl⟩
    | cons q programs => cases h
  | cons cs sections ih =>
    cases programs with
    | nil => cases h
    | cons q programs =>
      simp only [sectionsSpell, Bool.and_eq_true, decide_eq_true_eq] at h
      obtain ⟨⟨hopen, hread⟩, hsections⟩ := h
      obtain ⟨p, hp, hrender⟩ := readsLike_iff.1 hread
      rw [← hplace] at hp
      have hnext : placeAfter file (before ++ cs ++ ['\n']) =
          ⟨file, line + cs.count '\n' + 1, 1⟩ := by
        have hline : before.count '\n' + 1 = line := congrArg Position.line hplace
        rw [placeAfter_line, List.count_append]
        congr 1
        omega
      obtain ⟨ps, hps, hrender'⟩ := ih hnext hsections
      have hclosed : ¬ EndsInComment cs := fun h => hopen h.opens
      have hspells := (Spells.of_tokensFrom (Nat.lt_succ_self _) hp).append_line hclosed hps
      refine ⟨p ++ ps, by simpa [joinSections] using hspells, ?_⟩
      calc Stmt.renderLines (p ++ ps)
        _ = p.render ++ ps.render := Stmt.renderLines_append p ps
        _ = q.render ++ Program.render programs.flatten := by rw [hrender, hrender']
        _ = Stmt.renderLines (q ++ programs.flatten) := (Stmt.renderLines_append _ _).symm

theorem outline_of_sections {file text : String} {sections : List (List Char)}
    {programs : List Program} (htext : text.toList = joinSections sections)
    (h : sectionsSpell file 1 sections programs = true)
    (hprograms : Program.WellFormed programs.flatten) :
    ∃ p, parse? file text = .ok p ∧ p.outline = Program.outline programs.flatten := by
  have hstart : placeAfter file [] = ⟨file, 1, 1⟩ := rfl
  obtain ⟨p, hp, hrender⟩ := spells_of_sections hstart h
  have hparse : parse? file text = .ok p := parse?_ok_iff_spells.2 (htext ▸ hp)
  exact ⟨p, hparse, outline_eq_of_render_eq (wellFormed_of_parse hparse) hprograms hrender⟩

/-! ## Definitions -/

def Expr.named (name : String) : Expr := .name (.ofText name)

def Definition.stmt (role : Role) (d : Definition) : Stmt := .define role d.name d.params d.body

namespace Library

/-! ### Letters -/

def offsetExpr (corner : String) (offset : Nat) : Expr :=
  if offset = 0 then .named corner
  else .binary .add (.named corner) (.literal (String.ofList [offset.digitChar])) .origin

def Stroke.stmt (s : Stroke) : Stmt :=
  .line (offsetExpr "X" s.x₁) (offsetExpr "Y" s.y₁) (offsetExpr "X" s.x₂) (offsetExpr "Y" s.y₂)

def Glyph.definition (g : Glyph) : Definition :=
  ⟨String.ofList g.command, ["X", "Y"], g.strokes.map Stroke.stmt⟩

def letterDefinitions : List (Role × Definition) := glyphs.map fun g => (.command, g.definition)

/-! ### Numbers and shapes -/

def maximum : Definition :=
  ⟨"Max", ["A", "B"], [.test .smaller (.named "A") (.named "B") [.value (.named "B")],
    .value (.named "A")]⟩

def minimum : Definition :=
  ⟨"Min", ["A", "B"], [.test .smaller (.named "A") (.named "B") [.value (.named "A")],
    .value (.named "B")]⟩

def absolute : Definition :=
  ⟨"Abs", ["A"], [.test .smaller (.named "A") (.literal "0")
      [.value (.binary .sub (.literal "0") (.named "A") .origin)],
    .value (.named "A")]⟩

def clamped : Definition :=
  ⟨"Clamp", ["V", "L", "H"], [.test .smaller (.named "V") (.named "L") [.value (.named "L")],
    .test .smaller (.named "H") (.named "V") [.value (.named "H")], .value (.named "V")]⟩

def rectangle : Definition :=
  ⟨"Rect", ["L", "B", "R", "T"], [.line (.named "L") (.named "B") (.named "R") (.named "B"),
    .line (.named "R") (.named "B") (.named "R") (.named "T"),
    .line (.named "R") (.named "T") (.named "L") (.named "T"),
    .line (.named "L") (.named "T") (.named "L") (.named "B")]⟩

/-- The line that fills one row of a rectangle. -/
def rowLine : Stmt := .line (.named "L") (.named "Row") (.named "R") (.named "Row")

def filledRectangle : Definition :=
  ⟨"FillRect", ["L", "B", "R", "T"],
    [.assign "Lo" (.call (.ofText "Min") [.named "B", .named "T"]),
      .assign "Hi" (.call (.ofText "Max") [.named "B", .named "T"]),
      .loop "Row" (.named "Lo") (.named "Hi") [rowLine]]⟩

def square : Definition :=
  ⟨"Square", ["X", "Y", "S"],
    [.call (.ofText "Rect") [.named "X", .named "Y",
      .binary .add (.named "X") (.named "S") .origin,
      .binary .add (.named "Y") (.named "S") .origin]]⟩

def cross : Definition :=
  ⟨"Cross", ["X", "Y", "S"],
    [.line (.binary .sub (.named "X") (.named "S") .origin) (.named "Y")
        (.binary .add (.named "X") (.named "S") .origin) (.named "Y"),
      .line (.named "X") (.binary .sub (.named "Y") (.named "S") .origin) (.named "X")
        (.binary .add (.named "Y") (.named "S") .origin)]⟩

def graphicsDefinitions : List (Role × Definition) :=
  [(.number, maximum), (.number, minimum), (.number, absolute), (.number, clamped),
    (.command, rectangle), (.command, filledRectangle), (.command, square), (.command, cross)]

def standardDefinitions : List (Role × Definition) := letterDefinitions ++ graphicsDefinitions

/-! ### Sources -/

/-- The source of the letters, in a section for what is said in front and one for each letter. -/
def letterSections : List (List Char) :=
  lettersHead.toList.dropLast :: glyphs.map fun g => '\n' :: g.text.dropLast

/-- The source of helpers and shapes, divided in front of its empty lines. -/
def graphicsSections : List (List Char) :=
  (graphicsLines.splitBy fun _ next => next != "").map fun lines =>
    (lines.flatMap fun line => line.toList ++ ['\n']).dropLast

theorem text_eq_dropLast (g : Glyph) : g.text.dropLast ++ ['\n'] = g.text := by
  have htext : g.text = (Keyword.command.letters ++ [' '] ++ g.command ++
      [' ', 'X', ' ', 'Y', ' ', '\x7b', '\n'] ++ g.strokes.flatMap Stroke.text ++ ['\x7d']) ++
        ['\n'] := by
    simp [Glyph.text]
  rw [htext, List.dropLast_concat]

theorem toList_lettersText : lettersText.toList = joinSections letterSections := by
  have hhead : lettersHead.toList = lettersHead.toList.dropLast ++ ['\n'] := by decide +kernel
  rw [lettersText, String.toList_ofList, joinSections, letterSections, List.flatMap_cons, ← hhead,
    List.flatMap_map]
  simp only [List.cons_append, text_eq_dropLast]

theorem toList_graphicsText : graphicsText.toList = joinSections graphicsSections := by
  have hline (lines : List String) (hne : lines ≠ []) :
      (lines.flatMap fun line => line.toList ++ ['\n']).dropLast ++ ['\n'] =
        lines.flatMap fun line => line.toList ++ ['\n'] := by
    rw [← List.dropLast_append_getLast hne, List.flatMap_append, List.flatMap_singleton,
      ← List.append_assoc, List.dropLast_concat]
  have hsections : joinSections graphicsSections =
      (graphicsLines.splitBy fun _ next => next != "").flatMap
        fun lines => lines.flatMap fun line => line.toList ++ ['\n'] := by
    rw [joinSections, graphicsSections, List.flatMap_map]
    exact List.flatMap_congr fun lines hlines => hline lines (List.ne_nil_of_mem_splitBy hlines)
  have hlines : (graphicsLines.splitBy fun _ next => next != "").flatMap id = graphicsLines := by
    rw [List.flatMap_id, List.flatten_splitBy]
  rw [hsections, graphicsText, String.toList_ofList]
  conv_lhs => rw [← hlines, List.flatMap_assoc]
  rfl

/-- The programs of sections that make one definition each, behind one that makes none. -/
def sectionPrograms (ds : List (Role × Definition)) : List Program :=
  [] :: ds.map fun d => [d.2.stmt d.1]

theorem flatten_sectionPrograms (ds : List (Role × Definition)) :
    (sectionPrograms ds).flatten = ds.map fun d => d.2.stmt d.1 := by
  rw [sectionPrograms, List.flatten_cons, List.nil_append, ← List.flatMap_def,
    List.map_eq_flatMap]

theorem letters_spell : sectionsSpell "letters.dbn" 1 letterSections
    (sectionPrograms letterDefinitions) = true := by
  decide +kernel

theorem graphics_spell : sectionsSpell "graphics.dbn" 1 graphicsSections
    (sectionPrograms graphicsDefinitions) = true := by
  decide +kernel

/-! ### What the sources spell -/

theorem wellFormed_offsetExpr {corner : String} {offset : Nat} (hcorner : IsName corner)
    (h : offset ≤ 9) : (offsetExpr corner offset).WellFormed := by
  have hdigits : ∀ k ≤ 9, IsNumeral (String.ofList [k.digitChar]) := by decide
  unfold offsetExpr
  split
  · exact hcorner
  · exact ⟨hcorner, hdigits offset h⟩

theorem wellFormed_letters :
    Program.WellFormed (letterDefinitions.map fun d => d.2.stmt d.1) := by
  have hX : IsName "X" := by decide +kernel
  have hY : IsName "Y" := by decide +kernel
  have hnames : ∀ g ∈ glyphs, IsName (String.ofList g.command) := by decide +kernel
  refine allWellFormed_iff.2 fun s hs => ?_
  simp only [letterDefinitions, List.map_map, List.mem_map, Function.comp_apply] at hs
  obtain ⟨g, hg, rfl⟩ := hs
  refine ⟨hnames g hg, by simp [Glyph.definition, hX, hY], allWellFormed_iff.2 fun t ht => ?_⟩
  obtain ⟨s, hs, rfl⟩ := List.mem_map.1 ht
  obtain ⟨hx₁, hx₂, hy₁, hy₂⟩ := glyphs_in_cell g hg s hs
  exact ⟨wellFormed_offsetExpr hX (by omega), wellFormed_offsetExpr hY hy₁,
    wellFormed_offsetExpr hX (by omega), wellFormed_offsetExpr hY hy₂⟩

theorem wellFormed_graphics :
    Program.WellFormed (graphicsDefinitions.map fun d => d.2.stmt d.1) := by
  have hnames : ∀ name ∈ ["Max", "Min", "Abs", "Clamp", "Rect", "FillRect", "Square", "Cross", "A",
      "B", "V", "L", "H", "R", "T", "X", "Y", "S", "Lo", "Hi", "Row"], IsName name := by
    decide +kernel
  have hzero : IsNumeral "0" := by decide
  simp only [List.forall_mem_cons] at hnames
  simp only [graphicsDefinitions, List.map_cons, List.map_nil, Definition.stmt, maximum, minimum,
    absolute, clamped, rectangle, filledRectangle, rowLine, square, cross, Expr.named,
    Word.ofText, Program.WellFormed, Stmt.AllWellFormed, Stmt.WellFormed, Expr.AllWellFormed,
    Expr.WellFormed, List.forall_mem_cons, hnames, hzero]
  simp

/-- The sources of the standard library spell its definitions. -/
theorem standard_outline : ∃ p q, parse? "letters.dbn" lettersText = .ok p ∧
    parse? "graphics.dbn" graphicsText = .ok q ∧
    p.outline = Program.outline (letterDefinitions.map fun d => d.2.stmt d.1) ∧
    q.outline = Program.outline (graphicsDefinitions.map fun d => d.2.stmt d.1) := by
  obtain ⟨p, hparse, hp⟩ := outline_of_sections toList_lettersText letters_spell
    (by rw [flatten_sectionPrograms]; exact wellFormed_letters)
  obtain ⟨q, hparse', hq⟩ := outline_of_sections toList_graphicsText graphics_spell
    (by rw [flatten_sectionPrograms]; exact wellFormed_graphics)
  rw [flatten_sectionPrograms] at hp hq
  exact ⟨p, q, hparse, hparse', hp, hq⟩

end Library

end DrawLang
