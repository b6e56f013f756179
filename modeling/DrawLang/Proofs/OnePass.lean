import DrawLang.Proofs.Palette

/-!
# A frame in one pass

The frame of a canvas can be made by looking at every pixel once. On the way a palette grows, with a
table of the colors that are in it; every pixel gets its index at once, from the palette as it is
then. That comes to the same as to choose the palette first: a color gets its index in front of later
colors, and a color that gets no place of its own comes when the palette is full and no longer
changes.

* `Pass`, `Pass.next`: what a pass has filled, and what one pixel does to it.
* `paletteOf_concat_of_room`, `indexIn_concat`: one more pixel, seen from the palette.
* `Indexes`: the table of a palette.
* `filled_next`, `filled_foldl`: what a pass has filled after one more pixel, and after any pixels.
* `inOnePass_eq`: the frame of a canvas.
-/

namespace DrawLang

namespace Frame

/-- What a pass over pixels has filled: the palette, the table of the colors in it with their
indices, and the indices of the pixels. -/
structure Pass where
  palette : List Rgba
  table : List (Rgba × UInt8)
  indices : Array UInt8

namespace Pass

def start : Pass := ⟨[], [], #[]⟩

/-- The pass after one more pixel. A color of the table gets the index that it has there. A new one
goes to the end of the palette and into the table, as long as there is room; then it gets the index
of the nearest color. -/
def next (p : Pass) (color : Rgba) : Pass :=
  match p.table.lookup color with
  | some index => { p with indices := p.indices.push index }
  | none =>
    if p.palette.length < maxPalette then
      let index := UInt8.ofNat p.palette.length
      ⟨p.palette ++ [color], (color, index) :: p.table, p.indices.push index⟩
    else { p with indices := p.indices.push (UInt8.ofNat (color.nearest p.palette)) }

end Pass

/-- The frame of a canvas, made in one pass over its pixels. -/
def inOnePass (c : Canvas) : Frame :=
  let pass := c.pixels.foldl Pass.next .start
  ⟨c.width, c.height, pass.palette, pass.indices, 0⟩

/-! ## One more pixel -/

/-- A palette with room has all the colors. -/
theorem paletteOf_of_room {pixels : List Rgba} (h : (paletteOf pixels).length < maxPalette) :
    paletteOf pixels = pixels.eraseDups := by
  apply List.take_of_length_le
  rw [paletteOf, List.length_take] at h
  omega

theorem mem_paletteOf_of_room {pixels : List Rgba} (h : (paletteOf pixels).length < maxPalette)
    {color : Rgba} : color ∈ paletteOf pixels ↔ color ∈ pixels := by
  rw [paletteOf_of_room h, List.mem_eraseDups]

/-- A color of the palette brings nothing new. -/
theorem paletteOf_concat_of_mem {pixels : List Rgba} {color : Rgba}
    (h : color ∈ paletteOf pixels) : paletteOf (pixels ++ [color]) = paletteOf pixels := by
  have hseen : color ∈ pixels := List.mem_eraseDups.1 (List.mem_of_mem_take h)
  rw [paletteOf, eraseDups_concat, if_pos hseen, paletteOf]

/-- A new color goes to the end of the palette if there is room. -/
theorem paletteOf_concat_of_room {pixels : List Rgba} {color : Rgba}
    (hroom : (paletteOf pixels).length < maxPalette) (h : color ∉ paletteOf pixels) :
    paletteOf (pixels ++ [color]) = paletteOf pixels ++ [color] := by
  have hlength : pixels.eraseDups.length < maxPalette := by rwa [← paletteOf_of_room hroom]
  rw [mem_paletteOf_of_room hroom] at h
  rw [paletteOf_of_room hroom, paletteOf, eraseDups_concat, if_neg h, List.take_of_length_le]
  rw [List.length_append, List.length_singleton]
  exact hlength

/-- A full palette stays as it is. -/
theorem paletteOf_concat_of_full {pixels : List Rgba}
    (h : ¬ (paletteOf pixels).length < maxPalette) (color : Rgba) :
    paletteOf (pixels ++ [color]) = paletteOf pixels := by
  have hfull : maxPalette ≤ pixels.eraseDups.length := by
    rw [paletteOf, List.length_take] at h
    omega
  rw [paletteOf, eraseDups_concat, paletteOf]
  split
  · rfl
  · exact List.take_append_of_le_length hfull

/-- No pixel loses its index when one more pixel comes. -/
theorem indexIn_concat {pixels : List Rgba} {color : Rgba} (h : color ∈ pixels) (next : Rgba) :
    indexIn (paletteOf (pixels ++ [next])) color = indexIn (paletteOf pixels) color := by
  by_cases hnext : next ∈ paletteOf pixels
  · rw [paletteOf_concat_of_mem hnext]
  by_cases hroom : (paletteOf pixels).length < maxPalette
  · have hcolor : color ∈ paletteOf pixels := (mem_paletteOf_of_room hroom).2 h
    rw [paletteOf_concat_of_room hroom hnext, indexIn, indexIn, if_pos hcolor,
      if_pos (List.mem_append_left _ hcolor), List.idxOf_append_of_mem hcolor]
  · rw [paletteOf_concat_of_full hroom]

/-! ## The table -/

/-- A table finds the index of every color of a palette, and no other color. -/
def Indexes (table : List (Rgba × UInt8)) (palette : List Rgba) : Prop :=
  ∀ color, table.lookup color =
    if color ∈ palette then some (UInt8.ofNat (palette.idxOf color)) else none

theorem indexes_nil : Indexes [] [] := fun _ => rfl

/-- A new color goes into the table with the index of the place behind the palette. -/
theorem indexes_concat {table : List (Rgba × UInt8)} {palette : List Rgba} {color : Rgba}
    (h : Indexes table palette) (hcolor : color ∉ palette) :
    Indexes ((color, UInt8.ofNat palette.length) :: table) (palette ++ [color]) := by
  intro d
  rw [List.lookup_cons]
  by_cases hd : d = color
  · subst hd
    rw [if_pos (by simp), beq_self_eq_true, List.idxOf_append_of_notMem hcolor,
      List.idxOf_cons_self, Nat.add_zero]
  · have hne : (d == color) = false := by simpa using hd
    have hmem : d ∈ palette ++ [color] ↔ d ∈ palette := by simp [hd]
    rw [hne]
    simp only [h d, hmem]
    split
    · rename_i hin
      rw [List.idxOf_append_of_mem hin]
    · rfl

/-! ## All pixels -/

/-- What a pass has filled when it has seen some pixels. -/
structure Pass.Filled (p : Pass) (pixels : List Rgba) : Prop where
  palette : p.palette = paletteOf pixels
  table : Indexes p.table (paletteOf pixels)
  indices : p.indices.toList =
    pixels.map fun color => UInt8.ofNat (indexIn (paletteOf pixels) color)

theorem filled_start : Pass.start.Filled [] where
  palette := rfl
  table := indexes_nil
  indices := rfl

section Next

variable {p : Pass} {pixels : List Rgba} {color : Rgba}

/-- The indices after one more pixel, if it gets the index that the new palette says. -/
theorem Pass.Filled.indices_push (h : p.Filled pixels) {index : UInt8}
    (hindex : index = UInt8.ofNat (indexIn (paletteOf (pixels ++ [color])) color)) :
    (p.indices.push index).toList = (pixels ++ [color]).map fun d =>
      UInt8.ofNat (indexIn (paletteOf (pixels ++ [color])) d) := by
  have hold : (pixels.map fun d => UInt8.ofNat (indexIn (paletteOf (pixels ++ [color])) d)) =
      p.indices.toList := by
    rw [h.indices]
    exact List.map_congr_left fun d hd => by rw [indexIn_concat hd]
  rw [Array.toList_push, List.map_append, hold, hindex]
  rfl

theorem filled_next_of_mem (h : p.Filled pixels) (hcolor : color ∈ paletteOf pixels) :
    (p.next color).Filled (pixels ++ [color]) := by
  have hsame := paletteOf_concat_of_mem hcolor
  have htable := (h.table color).trans (if_pos hcolor)
  simp only [Pass.next, htable]
  refine ⟨h.palette.trans hsame.symm, by rw [hsame]; exact h.table, h.indices_push ?_⟩
  rw [hsame, indexIn, if_pos hcolor]

theorem filled_next_of_room (h : p.Filled pixels) (hcolor : color ∉ paletteOf pixels)
    (hroom : (paletteOf pixels).length < maxPalette) :
    (p.next color).Filled (pixels ++ [color]) := by
  have hmore := paletteOf_concat_of_room hroom hcolor
  have htable := (h.table color).trans (if_neg hcolor)
  simp only [Pass.next, htable, h.palette, if_pos hroom]
  refine ⟨hmore.symm, by rw [hmore]; exact indexes_concat h.table hcolor, h.indices_push ?_⟩
  rw [hmore, indexIn, if_pos (by simp), List.idxOf_append_of_notMem hcolor, List.idxOf_cons_self,
    Nat.add_zero]

theorem filled_next_of_full (h : p.Filled pixels) (hcolor : color ∉ paletteOf pixels)
    (hroom : ¬ (paletteOf pixels).length < maxPalette) :
    (p.next color).Filled (pixels ++ [color]) := by
  have hsame := paletteOf_concat_of_full hroom color
  have htable := (h.table color).trans (if_neg hcolor)
  simp only [Pass.next, htable, h.palette, if_neg hroom]
  refine ⟨hsame.symm, by rw [hsame]; exact h.table, h.indices_push ?_⟩
  rw [hsame, indexIn, if_neg hcolor]

/-- One more pixel is filled in as if the palette had been known. -/
theorem filled_next (h : p.Filled pixels) (color : Rgba) :
    (p.next color).Filled (pixels ++ [color]) := by
  by_cases hcolor : color ∈ paletteOf pixels
  · exact filled_next_of_mem h hcolor
  · by_cases hroom : (paletteOf pixels).length < maxPalette
    · exact filled_next_of_room h hcolor hroom
    · exact filled_next_of_full h hcolor hroom

end Next

theorem filled_foldl (pixels : List Rgba) : (pixels.foldl Pass.next .start).Filled pixels := by
  induction pixels using List.reverseRecOn with
  | nil => exact filled_start
  | append_singleton pixels color ih =>
    rw [List.foldl_append]
    exact filled_next ih color

/-- The frame that one pass makes is the frame of the canvas. -/
theorem inOnePass_eq (c : Canvas) : inOnePass c = ofCanvas c := by
  have hfilled := filled_foldl c.pixels.toList
  have hindices : (c.pixels.toList.foldl Pass.next .start).indices =
      c.pixels.map fun color => UInt8.ofNat (indexIn (paletteOf c.pixels.toList) color) := by
    rw [← Array.toList_inj, hfilled.indices, Array.toList_map]
  simp only [inOnePass, ofCanvas, ← Array.foldl_toList, hfilled.palette, hindices]

end Frame

end DrawLang
