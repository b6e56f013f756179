import DrawLang.Proofs.Painting
import DrawLang.Proofs.NumberHelpers

/-!
# Filled rectangles

The library fills a rectangle row by row, from the lower of two heights to the higher one. Every row
is a line along the bottom of the canvas, moved up, so that it keeps its course however far its ends
are off the canvas, and a row at one of the lowest heights, which stand for heights far above, is
not on the canvas either way. So what is painted is the rectangle.

* `lineRegion_level`: the places of one row.
* `RowFrame`: what holds in the frame of the command before and after every row.
* `paints_row`, `paints_rows`: one row, and all of them.
* `CornerFrame`, `painted_rectangle`: the body of the command.
* `filled_rectangles`: what a call of the command does.
-/

namespace DrawLang

/-! ## One row -/

/-- On the canvas, a line between two ends of one height is what lies between them. -/
theorem lineRegion_level {m : Machine} {l r i : Int64} (hwidth : m.canvas.width < 2 ^ 31)
    (hheight : m.canvas.height < 2 ^ 31) {x y : Int} (hon : m.OnCanvas x y) :
    lineRegion m l i r i x y ↔ Between l.toInt r.toInt x ∧ y = i.toInt := by
  have hlevel : (m.point l i).2 = (m.point r i).2 := rfl
  have hcourse : KeepsCourse m.canvas.width m.canvas.height (m.point l i) (m.point r i) :=
    .inr (.inr (.inl hlevel))
  have hrow : m.canvas.height - 1 - y = (m.flip i).toInt ↔ y = i.toInt := by
    obtain ⟨-, -, hlow, hhigh⟩ := hon
    have hleast := i.le_toInt
    rw [toInt_flip hheight, wrappedHeight, Int64.toInt_minValue]
    split <;> omega
  rw [lineRegion, onLine_clamp_iff hwidth hheight (within_iff_onCanvas.2 hon) hcourse,
    onLine_level hlevel, and_comm]
  exact and_congr_right fun _ => hrow

/-- The frame of the command between two rows: the canvas is of a size at which lines keep to it,
no result is pending, and the sides of the rectangle and the bounds of its rows are bound. -/
structure RowFrame (l r lo hi : Int64) (m : Machine) : Prop where
  width : m.canvas.width < 2 ^ 31
  height : m.canvas.height < 2 ^ 31
  pending : m.pending = none
  left : m.scope.get? "L" = some (.value l)
  right : m.scope.get? "R" = some (.value r)
  low : m.scope.get? "Lo" = some (.value lo)
  high : m.scope.get? "Hi" = some (.value hi)

section Rows

variable {l r lo hi : Int64} {opener : Opener} {run : BodyRunner}

theorem RowFrame.bindRow {m : Machine} (h : RowFrame l r lo hi m) (i : Int64) :
    RowFrame l r lo hi { m with scope := m.scope.set "Row" (.value i) } :=
  { h with
    left := (m.scope.get?_set _ _ _).trans h.left
    right := (m.scope.get?_set _ _ _).trans h.right
    low := (m.scope.get?_set _ _ _).trans h.low
    high := (m.scope.get?_set _ _ _).trans h.high }

/-- One pass of the loop paints one row. -/
theorem paints_row {body : List Stmt}
    (hbody : Stmt.outlineAll body = Stmt.outlineAll [Library.rowLine]) (i : Int64) :
    Paints (RowFrame l r lo hi) (fun x y => Between l.toInt r.toInt x ∧ y = i.toInt)
      (passOnce opener run "Row" body i) := by
  obtain ⟨s, rest, rfl, hs, hrest⟩ := outlineAll_eq_cons hbody
  obtain rfl := outlineAll_eq_nil hrest
  obtain ⟨x₁, y₁, x₂, y₂, rfl, hx₁, hy₁, hx₂, hy₂⟩ := outline_eq_line hs
  intro m hm
  let m₁ : Machine := { m with scope := m.scope.set "Row" (.value i) }
  have hm₁ : RowFrame l r lo hi m₁ := hm.bindRow i
  have hrow : m₁.scope.get? "Row" = some (.value i) :=
    (m.scope.get?_set _ _ _).trans (if_pos rfl)
  have hleft : ReadsAs m₁.scope x₁ l := .of_outline (hx₁ ▸ .name hm₁.left)
  have hright : ReadsAs m₁.scope x₂ r := .of_outline (hx₂ ▸ .name hm₁.right)
  have hlow : ReadsAs m₁.scope y₁ i := .of_outline (hy₁ ▸ .name hrow)
  have hhigh : ReadsAs m₁.scope y₂ i := .of_outline (hy₂ ▸ .name hrow)
  obtain ⟨m', hexec, hscope, hpending, hpainted⟩ := painted_line opener hleft hlow hright hhigh
  have hnone : m'.pending = none := hpending.trans hm₁.pending
  have hregion : Painted (fun x y => Between l.toInt r.toInt x ∧ y = i.toInt) m₁ m' :=
    hpainted.congr fun x y => lineRegion_level hm₁.width hm₁.height
  refine ⟨m', (execAll_of_none hexec hnone).trans rfl, ?_, { hregion with }⟩
  exact ⟨hregion.width ▸ hm₁.width, hregion.height ▸ hm₁.height, hnone, hscope ▸ hm₁.left,
    hscope ▸ hm₁.right, hscope ▸ hm₁.low, hscope ▸ hm₁.high⟩

/-- The loop paints the rows for all its numbers. -/
theorem paints_rows {first last : Expr} {body : List Stmt}
    (hfirst : first.outline = Expr.outline (.named "Lo"))
    (hlast : last.outline = Expr.outline (.named "Hi"))
    (hbody : Stmt.outlineAll body = Stmt.outlineAll [Library.rowLine]) :
    Paints (RowFrame l r lo hi)
      (fun x y => ∃ i ∈ countUp lo hi, Between l.toInt r.toInt x ∧ y = i.toInt)
      ((Stmt.loop "Row" first last body).exec opener run) := by
  have hlow {m : Machine} (hm : RowFrame l r lo hi m) : ReadsAs m.scope first lo :=
    ReadsAs.congr (.name hm.low) hfirst
  have hhigh {m : Machine} (hm : RowFrame l r lo hi m) : ReadsAs m.scope last hi :=
    ReadsAs.congr (.name hm.high) hlast
  exact Paints.loop (fun m hm => hm.pending) (fun m hm => (hlow hm).eval rfl)
    (fun m hm => (hhigh hm).eval rfl) (paints_row hbody)

end Rows

/-! ## All rows -/

/-- What holds in the frame of the command when its body starts. -/
structure CornerFrame (l b r t : Int64) (m : Machine) : Prop where
  width : m.canvas.width < 2 ^ 31
  height : m.canvas.height < 2 ^ 31
  pending : m.pending = none
  smaller : m.scope.Standard "Min"
  larger : m.scope.Standard "Max"
  left : m.scope.get? "L" = some (.value l)
  bottom : m.scope.get? "B" = some (.value b)
  right : m.scope.get? "R" = some (.value r)
  top : m.scope.get? "T" = some (.value t)

section Calls

variable {opener : Opener} {depth : Nat} {l b r t lo hi : Int64} {m : Machine}

/-- An assignment of a number that an expression stands for binds this number. -/
theorem exec_assign {name : String} {e : Expr} {v : Int64} (hnone : m.pending = none)
    (he : Denotes m.scope e v) :
    (Stmt.assign name e).exec opener (execAt opener (depth + 1)) m =
      some ((), { m with scope := m.scope.set name (.value v) }) := by
  rw [Stmt.exec, bind_of_eq_some (eval_of_denotes hnone e he)]
  rfl

theorem CornerFrame.denotes_min (h : CornerFrame l b r t m)
    (hlo : Helper.minimum.Computes [b, t] lo) :
    Denotes m.scope (.call (.ofText "Min") [.named "B", .named "T"]) lo :=
  .call .minimum rfl h.smaller
    (.cons (.plain (.name h.bottom)) (.cons (.plain (.name h.top)) .nil)) hlo

theorem CornerFrame.denotes_max (h : CornerFrame l b r t m)
    (hhi : Helper.maximum.Computes [b, t] hi) :
    Denotes m.scope (.call (.ofText "Max") [.named "B", .named "T"]) hi :=
  .call .maximum rfl h.larger
    (.cons (.plain (.name h.bottom)) (.cons (.plain (.name h.top)) .nil)) hhi

theorem CornerFrame.bindLow (h : CornerFrame l b r t m) (v : Int64) :
    CornerFrame l b r t { m with scope := m.scope.set "Lo" (.value v) } :=
  { h with
    smaller := h.smaller.set (by decide) _
    larger := h.larger.set (by decide) _
    left := (m.scope.get?_set _ _ _).trans h.left
    bottom := (m.scope.get?_set _ _ _).trans h.bottom
    right := (m.scope.get?_set _ _ _).trans h.right
    top := (m.scope.get?_set _ _ _).trans h.top }

theorem CornerFrame.rowFrame (h : CornerFrame l b r t m)
    (hlo : m.scope.get? "Lo" = some (.value lo)) (hi : Int64) :
    RowFrame l r lo hi { m with scope := m.scope.set "Hi" (.value hi) } :=
  { h with
    left := (m.scope.get?_set _ _ _).trans h.left
    right := (m.scope.get?_set _ _ _).trans h.right
    low := (m.scope.get?_set _ _ _).trans hlo
    high := (m.scope.get?_set _ _ _).trans (if_pos rfl) }

/-- The numbers from the smaller to the larger of two heights are the rows of a rectangle. -/
theorem row_iff {rows : Nat} (hrows : rows < 2 ^ 31) (hlo : Helper.minimum.Computes [b, t] lo)
    (hhi : Helper.maximum.Computes [b, t] hi) {y : Int} (hy : 0 ≤ y ∧ y < rows) {p : Prop} :
    (∃ i ∈ countUp lo hi, p ∧ y = i.toInt) ↔ p ∧ Between b.toInt t.toInt y := by
  cases hlo with | minimum hlo
  cases hhi with | maximum hhi
  unfold Between
  rw [← hlo, ← hhi]
  constructor
  · rintro ⟨i, hi, hp, rfl⟩
    rw [mem_countUp, Int64.le_iff_toInt_le, Int64.le_iff_toInt_le] at hi
    exact ⟨hp, hi⟩
  · rintro ⟨hp, hbetween⟩
    have hword : (Int64.ofInt y).toInt = y := Int64.toInt_ofInt_of_le (by omega) (by omega)
    refine ⟨Int64.ofInt y, ?_, hp, hword.symm⟩
    rw [mem_countUp, Int64.le_iff_toInt_le, Int64.le_iff_toInt_le, hword]
    exact hbetween

/-- The body of the command paints the rectangle. -/
theorem painted_rectangle {body : List Stmt} (h : CornerFrame l b r t m)
    (hbody : Stmt.outlineAll body = Stmt.outlineAll Library.filledRectangle.body) :
    ∃ m', execAt opener (depth + 2) body m = some ((), m') ∧
      Painted (fun x y => Between l.toInt r.toInt x ∧ Between b.toInt t.toInt y) m m' := by
  obtain ⟨_, _, rfl, hs₁, hbody⟩ := outlineAll_eq_cons hbody
  obtain ⟨_, _, rfl, hs₂, hbody⟩ := outlineAll_eq_cons hbody
  obtain ⟨_, _, rfl, hs₃, hbody⟩ := outlineAll_eq_cons hbody
  obtain rfl := outlineAll_eq_nil hbody
  obtain ⟨e₁, rfl, he₁⟩ := outline_eq_assign hs₁
  obtain ⟨e₂, rfl, he₂⟩ := outline_eq_assign hs₂
  obtain ⟨first, last, rows, rfl, hfirst, hlast, hrows⟩ := outline_eq_loop hs₃
  obtain ⟨lo, hlo⟩ : ∃ lo, Helper.minimum.Computes [b, t] lo :=
    ⟨_, Helper.computes_result (.minimum b t)⟩
  obtain ⟨hi, hhi⟩ : ∃ hi, Helper.maximum.Computes [b, t] hi :=
    ⟨_, Helper.computes_result (.maximum b t)⟩
  let m₁ : Machine := { m with scope := m.scope.set "Lo" (.value lo) }
  let m₂ : Machine := { m₁ with scope := m₁.scope.set "Hi" (.value hi) }
  have h₁ : CornerFrame l b r t m₁ := h.bindLow lo
  have h₂ : RowFrame l r lo hi m₂ :=
    h₁.rowFrame ((m.scope.get?_set _ _ _).trans (if_pos rfl)) hi
  have hmin : Denotes m.scope e₁ lo := Denotes.of_outline e₁ (he₁ ▸ h.denotes_min hlo)
  have hmax : Denotes m₁.scope e₂ hi := Denotes.of_outline e₂ (he₂ ▸ h₁.denotes_max hhi)
  obtain ⟨m', hexec, hm', hpainted⟩ := paints_rows hfirst hlast hrows m₂ h₂
  have hrectangle := hpainted.congr fun x y hon => row_iff h.height hlo hhi hon.2.2
  refine ⟨m', ?_, { hrectangle with }⟩
  show Stmt.execAll opener (execAt opener (depth + 1)) _ m = _
  rw [execAll_of_none (exec_assign h.pending hmin) h.pending,
    execAll_of_none (exec_assign (m := m₁) h.pending hmax) h.pending]
  exact (execAll_of_none hexec hm'.pending).trans rfl

end Calls

/-- **Filled rectangles are exact.** Take a state in which no result is pending and the names of the
command and of the smaller and the larger of two numbers mean what the standard library says. There
a call of the command, for any corners and in any order, ends. On a canvas whose edges are shorter
than 2³¹ pixels it paints what lies between the corners, up to and including them, and nothing else;
the pen, the bindings and the list of faults stay as the arguments have left them. -/
theorem filled_rectangles (opener : Opener) (depth : Nat) (word : Word) (args : List Expr)
    (l b r t : Int64) (m m₁ : Machine) (hpending : m.pending = none)
    (hword : word.text = "FillRect")
    (hstandard : ∀ name ∈ ["FillRect", "Min", "Max"], m.scope.Standard name)
    (hargs : Expr.evalAll (execAt opener (depth + 2)) args m = some ([l, b, r, t], m₁))
    (hwidth : m₁.canvas.width < 2 ^ 31) (hheight : m₁.canvas.height < 2 ^ 31) :
    ∃ m', (Stmt.call word args).exec opener (execAt opener (depth + 2)) m = some ((), m') ∧
      Painted (fun x y => Between l.toInt r.toInt x ∧ Between b.toInt t.toInt y) m₁ m' ∧
      m'.scope = m.scope ∧ m'.inNumber = m.inNumber ∧ m'.pending = none := by
  simp only [List.forall_mem_cons, List.not_mem_nil] at hstandard
  obtain ⟨hfill, hmin, hmax, -⟩ := hstandard
  have hmem : (.command, Library.filledRectangle) ∈ Library.standardDefinitions :=
    List.mem_append_right _ (by simp [Library.graphicsDefinitions])
  obtain ⟨body, hfind, hbody⟩ := findDefinition_standard hmem hword (hword ▸ hfill)
  obtain ⟨hscope, -, hnone⟩ := evalAll_keeps (execAt_keeps opener (depth + 2)) args hargs
  rw [← hscope] at hmin hmax
  have hparams : ["L", "B", "R", "T"].Nodup := by decide
  have hcorners : CornerFrame l b r t (m₁.enter .command ["L", "B", "R", "T"] [l, b, r, t]) :=
    { width := hwidth
      height := hheight
      pending := hnone hpending
      smaller := hmin.push.setAll (by decide) _
      larger := hmax.push.setAll (by decide) _
      left := Scope.get?_setAll_of_mem hparams (.head _) _
      bottom := Scope.get?_setAll_of_mem hparams (.tail _ (.head _)) _
      right := Scope.get?_setAll_of_mem hparams (.tail _ (.tail _ (.head _))) _
      top := Scope.get?_setAll_of_mem hparams (.tail _ (.tail _ (.tail _ (.head _)))) _ }
  exact exists_call hfind hargs (painted_rectangle hcorners hbody) hpending

/-- A rectangle with its corners in odd order, which goes from the third row of the canvas up to the
greatest height that there is, and has a column beyond the right edge. -/
theorem high_rectangle_fills : ∃ m m' : Machine, m.canvas = .blank 5 5 ∧ m.pen = .black ∧
    m.pending = none ∧ (∀ name ∈ ["FillRect", "Min", "Max"], m.scope.Standard name) ∧
    (Stmt.call (.ofText "FillRect") [.literal "5", .literal "9223372036854775807", .literal "3",
      .literal "2"]).exec .none (execAt .none 2) m = some ((), m') ∧
    m'.pixelAt 3 2 = .black ∧ m'.pixelAt 4 4 = .black ∧ m'.pixelAt 2 3 = .transparent ∧
    m'.pixelAt 4 1 = .transparent := by
  obtain ⟨m, hcanvas, hpen, hnone, hstandard⟩ := exists_standard 5
  let args : List Expr := [.literal "5", .literal "9223372036854775807", .literal "3", .literal "2"]
  have hargs : Expr.evalAll (execAt .none 2) args m = some ([5, Int64.maxValue, 3, 2], m) := rfl
  have hsize : m.canvas.width = 5 ∧ m.canvas.height = 5 := by
    rw [hcanvas]
    exact ⟨rfl, rfl⟩
  obtain ⟨m', hexec, hpainted, -⟩ := filled_rectangles .none 0 (.ofText "FillRect") args _ _ _ _ m m
    hnone rfl (fun name _ => hstandard name) hargs (by omega) (by omega)
  have hon {x y : Int} (h : 0 ≤ x ∧ x < 5 ∧ 0 ≤ y ∧ y < 5) : m.OnCanvas x y := by
    unfold Machine.OnCanvas
    omega
  have hblank : m.pixelAt 2 3 = .transparent ∧ m.pixelAt 4 1 = .transparent := by
    simp only [Machine.pixelAt, hcanvas]
    decide
  refine ⟨m, m', hcanvas, hpen, hnone, fun name _ => hstandard name, hexec, ?_, ?_, ?_, ?_⟩
  · exact (hpainted.inside 3 2 (by decide) (hon (by decide))).trans hpen
  · exact (hpainted.inside 4 4 (by decide) (hon (by decide))).trans hpen
  · exact (hpainted.outside 2 3 fun h => absurd h.1 (by decide)).trans hblank.1
  · exact (hpainted.outside 4 1 fun h => absurd h.1 (by decide)).trans hblank.2

end DrawLang
