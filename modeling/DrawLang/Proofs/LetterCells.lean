import DrawLang.Proofs.Painting
import DrawLang.Proofs.LibraryBindings
import Mathlib.Algebra.Group.Prod

/-!
# Letters in their cells

The command of a letter draws the strokes of the letter, each moved by the corner of the cell. The
way a line is rasterised does not depend on where it is: moved ends give a moved line, also where
rows are counted the other way round. So a letter is a fixed set of dots, which is moved as a whole
and cut off at the edges of the canvas.

* `onLine_translate`: moved ends give a moved line.
* `Glyph.dots`: the dots of a letter, as offsets from the corner of its cell.
* `dots_in_cell`: they are in the cell.
* `LetterFrame`: what holds in the frame of the command before and after every stroke.
* `paints_stroke`, `paints_strokes`: one stroke, and all of them.
* `letters_are_rigid`: what a call of the command does.
-/

namespace DrawLang

/-! ## Lines moved -/

section Translation

variable {a b p q r d : Point}

theorem exactPoint_translate (a b d : Point) (k : Int) :
    exactPoint (a + d) (b + d) k = exactPoint a b k + d := by
  simp only [exactPoint, Prod.fst_add, Prod.snd_add, add_sub_add_right_eq_sub]
  split
  · exact Prod.ext (add_right_comm _ _ _) (add_right_comm _ _ _)
  · exact Prod.ext (add_right_comm _ _ _) (add_right_comm _ _ _)

theorem onLineFrom_translate : OnLineFrom (a + d) (b + d) (r + d) ↔ OnLineFrom a b r := by
  simp only [OnLineFrom, exactPoint_translate, Prod.fst_add, Prod.snd_add,
    add_sub_add_right_eq_sub, add_left_inj]

/-- A line between moved ends is the line moved. -/
theorem onLine_translate : OnLine (p + d) (q + d) (r + d) ↔ OnLine p q r := by
  have hprecedes : precedes (p + d) (q + d) = precedes p q := by
    rw [Bool.eq_iff_iff, precedes_iff, precedes_iff]
    simp only [Prod.fst_add, Prod.snd_add, add_sub_add_right_eq_sub]
  unfold OnLine
  rw [hprecedes]
  split
  · exact onLineFrom_translate
  · exact onLineFrom_translate

end Translation

/-! ## Dots -/

namespace Library

/-- The dots of a stroke, as offsets from the corner of the cell to the right and upwards. -/
def Stroke.dots (s : Stroke) : List Point :=
  (plainWalk (s.x₁, -s.y₁) (s.x₂, -s.y₂)).map fun p => (p.1, -p.2)

def Glyph.dots (g : Glyph) : List Point := g.strokes.flatMap Stroke.dots

theorem Stroke.mem_dots {s : Stroke} {u v : Int} :
    (u, v) ∈ s.dots ↔ OnLine (s.x₁, -s.y₁) (s.x₂, -s.y₂) (u, -v) := by
  rw [onLine_iff, Stroke.dots, List.mem_map]
  constructor
  · rintro ⟨⟨x, y⟩, hp, heq⟩
    cases heq
    rwa [Int.neg_neg]
  · intro h
    exact ⟨(u, -v), h, by rw [Int.neg_neg]⟩

/-- The dots of a letter are in its cell. -/
theorem dots_in_cell {g : Glyph} (hg : g ∈ glyphs) {u v : Int} (h : (u, v) ∈ g.dots) :
    (0 ≤ u ∧ u ≤ 5) ∧ 0 ≤ v ∧ v ≤ 9 := by
  obtain ⟨s, hs, hdot⟩ := List.mem_flatMap.1 h
  obtain ⟨hx₁, hx₂, hy₁, hy₂⟩ := glyphs_in_cell g hg s hs
  obtain ⟨hu, hv⟩ := (Stroke.mem_dots.1 hdot).between
  unfold Between at hu hv
  simp only at hu hv
  omega

end Library

/-! ## One stroke -/

open Library (Stroke Glyph glyphs offsetExpr)

/-- The frame of the command between two strokes: the canvas is not so high that an end of a stroke
could get out of range, no result is pending, and the corner of the cell is bound. -/
structure LetterFrame (x y : Int64) (m : Machine) : Prop where
  height : m.canvas.height < 2 ^ 30
  pending : m.pending = none
  column : m.scope.get? "X" = some (.value x)
  row : m.scope.get? "Y" = some (.value y)

/-- A number that leaves room for offsets and for the rows of a canvas. -/
def Moderate (x : Int64) : Prop := |x.toInt| ≤ 2 ^ 30

section Strokes

variable {s : Scope} {x y : Int64} {opener : Opener} {run : BodyRunner}

/-- A coordinate of the corner moved by an offset reads as their sum. -/
theorem reads_offsetExpr {corner : String} {k : Nat} (hget : s.get? corner = some (.value x))
    (hx : Moderate x) (hk : k ≤ 9) :
    ∃ v, ReadsAs s (offsetExpr corner k) v ∧ v.toInt = x.toInt + k := by
  have hdigits : ∀ k : Nat, k ≤ 9 → (literalValue (String.ofList [k.digitChar])).toInt = k := by
    decide
  have hcorner : ReadsAs s (.named corner) x := .name hget
  have hbounds := abs_le.1 hx
  unfold offsetExpr
  split
  · rename_i hzero
    exact ⟨x, hcorner, by omega⟩
  · refine ⟨_, .binary hcorner (.literal _) rfl, ?_⟩
    rw [Int64.toInt_add, hdigits k hk]
    exact Int.bmod_eq_of_le (by omega) (by omega)

/-- On the canvas, the line for a stroke has the dots of the stroke, moved by the corner. -/
theorem lineRegion_stroke {σ : Stroke} {m : Machine} {v₁ w₁ v₂ w₂ : Int64}
    (hheight : m.canvas.height < 2 ^ 30) (hx : Moderate x) (hy : Moderate y)
    (hcell : σ.x₁ ≤ 5 ∧ σ.x₂ ≤ 5 ∧ σ.y₁ ≤ 9 ∧ σ.y₂ ≤ 9)
    (hv₁ : v₁.toInt = x.toInt + σ.x₁) (hw₁ : w₁.toInt = y.toInt + σ.y₁)
    (hv₂ : v₂.toInt = x.toInt + σ.x₂) (hw₂ : w₂.toInt = y.toInt + σ.y₂) (u v : Int) :
    lineRegion m v₁ w₁ v₂ w₂ u v ↔ (u - x.toInt, v - y.toInt) ∈ σ.dots := by
  let d : Point := (x.toInt, m.canvas.height - 1 - y.toInt)
  have hbounds := abs_le.1 hx
  have hbounds' := abs_le.1 hy
  have hpoint {a b : Int64} {i j : Nat} (hi : i ≤ 5) (hj : j ≤ 9) (ha : a.toInt = x.toInt + i)
      (hb : b.toInt = y.toInt + j) : clampPoint (m.point a b) = ((i : Int), -(j : Int)) + d := by
    have hflip : (m.flip b).toInt = m.canvas.height - 1 - b.toInt := by
      rw [toInt_flip (by omega), wrappedHeight_of_le]
      rw [Int64.toInt_minValue]
      omega
    have hrange : InRange (m.point a b) := by
      simp only [InRange, Machine.point, coordinateInRange_iff, hflip]
      omega
    rw [clampPoint_of_inRange hrange]
    refine Prod.ext ?_ ?_
    · show a.toInt = i + x.toInt
      omega
    · show (m.flip b).toInt = -j + (m.canvas.height - 1 - y.toInt)
      omega
  have hplace : (u, m.canvas.height - 1 - v) = (u - x.toInt, -(v - y.toInt)) + d := by
    refine Prod.ext ?_ ?_
    · show u = u - x.toInt + x.toInt
      omega
    · show m.canvas.height - 1 - v = -(v - y.toInt) + (m.canvas.height - 1 - y.toInt)
      omega
  rw [Library.Stroke.mem_dots, lineRegion, hplace, hpoint hcell.1 hcell.2.2.1 hv₁ hw₁,
    hpoint hcell.2.1 hcell.2.2.2 hv₂ hw₂]
  exact onLine_translate

/-- A stroke paints its dots, moved by the corner. -/
theorem paints_stroke {t : Stmt} {σ : Stroke} (hx : Moderate x) (hy : Moderate y)
    (hcell : σ.x₁ ≤ 5 ∧ σ.x₂ ≤ 5 ∧ σ.y₁ ≤ 9 ∧ σ.y₂ ≤ 9) (ht : t.outline = σ.stmt.outline) :
    Paints (LetterFrame x y) (fun u v => (u - x.toInt, v - y.toInt) ∈ σ.dots)
      (t.exec opener run) := by
  obtain ⟨e₁, f₁, e₂, f₂, rfl, he₁, hf₁, he₂, hf₂⟩ := outline_eq_line ht
  intro m hm
  obtain ⟨v₁, hv₁, hsum₁⟩ := reads_offsetExpr (k := σ.x₁) hm.column hx (by omega)
  obtain ⟨w₁, hw₁, hsum₂⟩ := reads_offsetExpr (k := σ.y₁) hm.row hy (by omega)
  obtain ⟨v₂, hv₂, hsum₃⟩ := reads_offsetExpr (k := σ.x₂) hm.column hx (by omega)
  obtain ⟨w₂, hw₂, hsum₄⟩ := reads_offsetExpr (k := σ.y₂) hm.row hy (by omega)
  obtain ⟨m', hexec, hscope, hpending, hpainted⟩ :=
    painted_line opener (hv₁.congr he₁) (hw₁.congr hf₁) (hv₂.congr he₂) (hw₂.congr hf₂)
  refine ⟨m', hexec, ?_, hpainted.congr fun u v _ =>
    lineRegion_stroke hm.height hx hy hcell hsum₁ hsum₂ hsum₃ hsum₄ u v⟩
  exact ⟨hpainted.height ▸ hm.height, hpending.trans hm.pending, hscope ▸ hm.column,
    hscope ▸ hm.row⟩

/-- Statements with the outlines of strokes paint the dots of the strokes, one by one. -/
theorem paints_strokes {strokes : List Stroke} (hx : Moderate x) (hy : Moderate y)
    (hcell : ∀ σ ∈ strokes, σ.x₁ ≤ 5 ∧ σ.x₂ ≤ 5 ∧ σ.y₁ ≤ 9 ∧ σ.y₂ ≤ 9) {body : List Stmt}
    (hbody : Stmt.outlineAll body = Stmt.outlineAll (strokes.map Stroke.stmt)) :
    List.Forall₂ (fun t σ => Paints (LetterFrame x y)
      (fun u v => (u - x.toInt, v - y.toInt) ∈ Library.Stroke.dots σ) (t.exec opener run))
      body strokes := by
  induction strokes generalizing body with
  | nil =>
    obtain rfl := outlineAll_eq_nil hbody
    exact .nil
  | cons σ strokes ih =>
    obtain ⟨hσ, hstrokes⟩ := List.forall_mem_cons.1 hcell
    obtain ⟨t, rest, rfl, ht, hrest⟩ := outlineAll_eq_cons hbody
    exact .cons (paints_stroke hx hy hσ ht) (ih hstrokes hrest)

end Strokes

/-! ## Letters -/

/-- **Letters are rigid.** The dots of a letter are in a cell 6 wide and 10 high. Take a state in
which no result is pending and the name of the command of the letter means what the standard library
says. There a call of the command, at any corner that is at most 2³⁰ away from the origin either
way, ends. On a canvas of less than 2³⁰ rows it paints the dots of the letter, moved
by the corner, and nothing else; the pen, the bindings and the list of faults stay as the arguments
have left them. -/
theorem letters_are_rigid (g : Glyph) (hg : g ∈ glyphs) :
    (∀ u v, (u, v) ∈ g.dots → (0 ≤ u ∧ u ≤ 5) ∧ 0 ≤ v ∧ v ≤ 9) ∧
    ∀ (opener : Opener) (depth : Nat) (word : Word) (args : List Expr) (x y : Int64)
      (m m₁ : Machine), m.pending = none → word.text = String.ofList g.command →
      m.scope.Standard word.text →
      Expr.evalAll (execAt opener (depth + 1)) args m = some ([x, y], m₁) →
      m₁.canvas.height < 2 ^ 30 → |x.toInt| ≤ 2 ^ 30 → |y.toInt| ≤ 2 ^ 30 →
      ∃ m', (Stmt.call word args).exec opener (execAt opener (depth + 1)) m = some ((), m') ∧
        Painted (fun u v => (u - x.toInt, v - y.toInt) ∈ g.dots) m₁ m' ∧
        m'.scope = m.scope ∧ m'.inNumber = m.inNumber ∧ m'.pending = none := by
  refine ⟨fun u v => Library.dots_in_cell hg, ?_⟩
  intro opener depth word args x y m m₁ hpending hword hstandard hargs hheight hx hy
  have hmem : (.command, g.definition) ∈ Library.standardDefinitions :=
    List.mem_append_left _ (List.mem_map_of_mem hg)
  obtain ⟨body, hfind, hbody⟩ := findDefinition_standard hmem hword hstandard
  have hnone := (evalAll_keeps (execAt_keeps opener (depth + 1)) args hargs).pending hpending
  have hparams : ["X", "Y"].Nodup := by decide
  have hframe : LetterFrame x y (m₁.enter .command ["X", "Y"] [x, y]) :=
    { height := hheight
      pending := hnone
      column := Scope.get?_setAll_of_mem hparams (.head _) _
      row := Scope.get?_setAll_of_mem hparams (.tail _ (.head _)) _ }
  refine exists_call hfind hargs ?_ hpending
  have hpaints : Paints (LetterFrame x y)
      (fun u v => ∃ σ ∈ g.strokes, (u - x.toInt, v - y.toInt) ∈ Library.Stroke.dots σ)
      (Stmt.execAll opener (execAt opener depth) body) :=
    Paints.execAll (fun m h => h.pending) (paints_strokes hx hy (Library.glyphs_in_cell g hg) hbody)
  obtain ⟨m', hexec, -, hpainted⟩ := hpaints _ hframe
  exact ⟨m', hexec, hpainted.congr fun u v _ => List.mem_flatMap.symm⟩

/-- A letter that a canvas of five by five pixels cuts off at the top and at the right. -/
theorem letterL_cut_off : ∃ m m' : Machine, m.canvas = .blank 5 5 ∧ m.pen = .black ∧
    m.pending = none ∧ m.scope.Standard "letterL" ∧
    (Stmt.call (.ofText "letterL") [.literal "1", .literal "2"]).exec .none (execAt .none 1) m =
      some ((), m') ∧
    m'.pixelAt 1 4 = .black ∧ m'.pixelAt 4 2 = .black ∧ m'.pixelAt 2 3 = .transparent := by
  obtain ⟨m, hcanvas, hpen, hnone, hstandard⟩ := exists_standard 5
  let L : Glyph := ⟨'L', [⟨0, 8, 0, 0⟩, ⟨0, 0, 4, 0⟩]⟩
  let args : List Expr := [.literal "1", .literal "2"]
  have hargs : Expr.evalAll (execAt .none 1) args m = some ([1, 2], m) := rfl
  have hsize : m.canvas.width = 5 ∧ m.canvas.height = 5 := by
    rw [hcanvas]
    exact ⟨rfl, rfl⟩
  obtain ⟨m', hexec, hpainted, -⟩ := (letters_are_rigid L (by decide)).2 .none 0 (.ofText "letterL")
    _ 1 2 m m hnone rfl (hstandard _) hargs (by omega) (by decide) (by decide)
  have hon {x y : Int} (h : 0 ≤ x ∧ x < 5 ∧ 0 ≤ y ∧ y < 5) : m.OnCanvas x y := by
    unfold Machine.OnCanvas
    omega
  have hblank : m.pixelAt 2 3 = .transparent := by
    rw [Machine.pixelAt, hcanvas]
    decide
  refine ⟨m, m', hcanvas, hpen, hnone, hstandard _, hexec, ?_, ?_, ?_⟩
  · exact (hpainted.inside 1 4 (by decide) (hon (by decide))).trans hpen
  · exact (hpainted.inside 4 2 (by decide) (hon (by decide))).trans hpen
  · exact (hpainted.outside 2 3 fun h => absurd h.1 (by decide)).trans hblank

end DrawLang
