import DrawLang.Frame
import Mathlib.Data.List.Induction
import Mathlib.Data.List.Perm.Subperm

/-!
# Palettes

The palette of a canvas is its colors in the order in which they are first seen. A frame shows every
color of its palette as it is, so a canvas with no more colors than a palette holds is the canvas
that its frame shows. Scaling a canvas brings no color in and changes the order of none, so the
frame of a scaled canvas has the same palette and shows the scaled picture.

* `eraseDups_filter`, `eraseDups_append_congr`, `eraseDups_flatMap_congr`: first sight, part by
  part.
* `exists_front`, `pairwise_idxOf_eraseDups`: first sight, in order.
* `Canvas.Only`: canvases with colors of a kind, kept by drawing in these colors.
* `eraseDups_inBlocks`: the colors of a scaled canvas.
* `Frame.nodup_palette`, `Frame.index_lt`: the palette of a frame, and the indices into it.
* `Frame.toCanvas_ofCanvas`: what a frame shows, color by color.
* `Frame.toCanvas_of_few`, `Frame.toCanvas_inBlocks`: few colors, scaled canvases.
-/

namespace DrawLang

/-! ## First sight -/

section FirstSight

variable {α : Type} [DecidableEq α]

theorem length_filter_ne_lt (x : α) (xs : List α) :
    (xs.filter fun y => !y == x).length < xs.length + 1 :=
  Nat.lt_succ_of_le (List.length_filter_le _ _)

/-- Leaving out some items of a list keeps the order in which the others are first seen. -/
theorem eraseDups_filter (p : α → Bool) : ∀ xs : List α,
    (xs.filter p).eraseDups = xs.eraseDups.filter p
  | [] => by simp
  | x :: xs => by
    have hshort := length_filter_ne_lt x xs
    rw [List.eraseDups_cons, List.filter_cons, List.filter_cons]
    by_cases hx : p x = true
    · rw [if_pos hx, if_pos hx, List.eraseDups_cons, ← eraseDups_filter p (xs.filter _),
        List.filter_filter, List.filter_filter]
      simp only [Bool.and_comm]
    · rw [if_neg hx, if_neg hx, eraseDups_filter p xs, eraseDups_filter _ xs, List.filter_filter]
      apply List.filter_congr
      intro y _
      by_cases hy : y = x
      · simp [hy, hx]
      · simp [hy]
termination_by xs => xs.length

/-- What is first seen in two lists in a row is first seen in the first, or new in the second. -/
theorem eraseDups_append_eq (xs ys : List α) :
    (xs ++ ys).eraseDups = xs.eraseDups ++ ys.eraseDups.filter fun y => !decide (y ∈ xs) := by
  rw [List.eraseDups_append, ← eraseDups_filter, List.removeAll]
  simp only [List.elem_eq_mem]

theorem eraseDups_append_congr {xs xs' ys ys' : List α} (hx : xs.eraseDups = xs'.eraseDups)
    (hy : ys.eraseDups = ys'.eraseDups) : (xs ++ ys).eraseDups = (xs' ++ ys').eraseDups := by
  have hmem : ∀ y, y ∈ xs ↔ y ∈ xs' := fun y => by
    rw [← List.mem_eraseDups, hx, List.mem_eraseDups]
  rw [eraseDups_append_eq, eraseDups_append_eq, hx, hy]
  simp only [hmem]

/-- A second list of items that have all been seen brings nothing new. -/
theorem eraseDups_append_of_subset {xs ys : List α} (h : ∀ y ∈ ys, y ∈ xs) :
    (xs ++ ys).eraseDups = xs.eraseDups := by
  have hnone : ys.eraseDups.filter (fun y => !decide (y ∈ xs)) = [] := by
    rw [List.filter_eq_nil_iff]
    intro y hy
    simp [h y (List.mem_eraseDups.1 hy)]
  rw [eraseDups_append_eq, hnone, List.append_nil]

theorem nodup_eraseDups : ∀ xs : List α, xs.eraseDups.Nodup
  | [] => by simp
  | x :: xs => by
    have hshort := length_filter_ne_lt x xs
    rw [List.eraseDups_cons, List.nodup_cons]
    exact ⟨by simp, nodup_eraseDups _⟩
termination_by xs => xs.length

/-- There are no more different items than there are items to choose from. -/
theorem length_eraseDups_le {xs ys : List α} (h : ∀ x ∈ xs, x ∈ ys) :
    xs.eraseDups.length ≤ ys.length := by
  refine (List.subperm_of_subset (nodup_eraseDups xs) fun x hx => ?_).length_le
  exact h x (List.mem_eraseDups.1 hx)

theorem eraseDups_flatten_replicate (n : Nat) (xs : List α) :
    (List.replicate (n + 1) xs).flatten.eraseDups = xs.eraseDups := by
  rw [List.replicate_succ, List.flatten_cons]
  apply eraseDups_append_of_subset
  intro y hy
  obtain ⟨ys, hys, hy⟩ := List.mem_flatten.1 hy
  rwa [List.eq_of_mem_replicate hys] at hy

theorem eraseDups_flatMap_congr {β : Type} {f g : β → List α}
    (h : ∀ x, (f x).eraseDups = (g x).eraseDups) (xs : List β) :
    (xs.flatMap f).eraseDups = (xs.flatMap g).eraseDups := by
  induction xs with
  | nil => rfl
  | cons x xs ih =>
    rw [List.flatMap_cons, List.flatMap_cons]
    exact eraseDups_append_congr (h x) ih

theorem eraseDups_stretch (n : Nat) (xs : List α) :
    (Canvas.stretch (n + 1) xs).eraseDups = xs.eraseDups := by
  calc (Canvas.stretch (n + 1) xs).eraseDups
    _ = (xs.flatMap fun x => [x]).eraseDups := by
      refine eraseDups_flatMap_congr (fun x => ?_) xs
      rw [← List.flatten_replicate_singleton, eraseDups_flatten_replicate]
    _ = xs.eraseDups := by rw [List.flatMap_singleton']

theorem eraseDups_flatten_stretch (n : Nat) (rows : List (List α)) :
    (Canvas.stretch (n + 1) rows).flatten.eraseDups = rows.flatten.eraseDups := by
  rw [← List.flatMap_id, ← List.flatMap_id, Canvas.stretch, List.flatMap_assoc]
  apply eraseDups_flatMap_congr
  intro row
  rw [List.flatMap_id]
  exact eraseDups_flatten_replicate n row

theorem eraseDups_flatten_map_stretch (n : Nat) (rows : List (List α)) :
    (rows.map (Canvas.stretch (n + 1))).flatten.eraseDups = rows.flatten.eraseDups := by
  rw [← List.flatMap_def, ← List.flatMap_id]
  exact eraseDups_flatMap_congr (eraseDups_stretch n) rows

/-- A further item is new if it has not been seen. -/
theorem eraseDups_concat (xs : List α) (x : α) :
    (xs ++ [x]).eraseDups = if x ∈ xs then xs.eraseDups else xs.eraseDups ++ [x] := by
  rw [eraseDups_append_eq]
  by_cases h : x ∈ xs
  · simp [h, List.eraseDups_cons]
  · simp [h, List.eraseDups_cons]

/-- The first different items of a list are the different items of a beginning of it. -/
theorem exists_front (xs : List α) (n : Nat) :
    ∃ front back, xs = front ++ back ∧ front.eraseDups = xs.eraseDups.take n := by
  induction xs using List.reverseRecOn with
  | nil => exact ⟨[], [], rfl, by simp⟩
  | append_singleton xs x ih =>
    obtain ⟨front, back, hsplit, hfront⟩ := ih
    by_cases hall : (xs ++ [x]).eraseDups.length ≤ n
    · exact ⟨xs ++ [x], [], by simp, (List.take_of_length_le hall).symm⟩
    · refine ⟨front, back ++ [x], by simp [hsplit], ?_⟩
      rw [hfront, eraseDups_concat]
      rw [eraseDups_concat] at hall
      split at hall
      · rename_i hx
        rw [if_pos hx]
      · rename_i hx
        rw [List.length_append, List.length_singleton] at hall
        rw [if_neg hx, List.take_append_of_le_length (by omega)]

/-- Without duplicates, items stand in the order in which they are first seen. -/
theorem pairwise_idxOf_eraseDups (xs : List α) :
    xs.eraseDups.Pairwise fun x y => xs.idxOf x < xs.idxOf y := by
  induction xs using List.reverseRecOn with
  | nil => simp
  | append_singleton xs x ih =>
    have hold : xs.eraseDups.Pairwise fun y z => (xs ++ [x]).idxOf y < (xs ++ [x]).idxOf z := by
      refine ih.imp_of_mem fun hy hz hlt => ?_
      rwa [List.idxOf_append_of_mem (List.mem_eraseDups.1 hy),
        List.idxOf_append_of_mem (List.mem_eraseDups.1 hz)]
    rw [eraseDups_concat]
    split
    · exact hold
    · rename_i hx
      refine List.pairwise_append.2 ⟨hold, List.pairwise_singleton _ _, fun y hy z hz => ?_⟩
      obtain rfl := List.mem_singleton.1 hz
      have hy' : y ∈ xs := List.mem_eraseDups.1 hy
      rw [List.idxOf_append_of_mem hy', List.idxOf_append_of_notMem hx]
      exact Nat.lt_add_right _ (List.idxOf_lt_length_of_mem hy')

end FirstSight

/-! ## Colors on a canvas -/

namespace Canvas

/-- Whether all pixels of a canvas have colors of a kind. -/
def Only (P : Rgba → Prop) (c : Canvas) : Prop := ∀ color ∈ c.pixels, P color

namespace Only

variable {P : Rgba → Prop} {color : Rgba}

theorem plain (h : P color) (width height : Nat) : (plain width height color).Only P := by
  intro d hd
  rw [Canvas.plain] at hd
  rw [(Array.mem_replicate.1 hd).2]
  exact h

theorem fill (h : P color) (c : Canvas) : (c.fill color).Only P :=
  plain h c.width c.height

/-- A write brings in its own color only. -/
theorem set {c : Canvas} (hc : c.Only P) (h : P color) (p : Point) : (c.set p color).Only P := by
  unfold Canvas.set
  split
  · intro d hd
    rcases Array.mem_or_eq_of_mem_setIfInBounds hd with hd | rfl
    · exact hc d hd
    · exact h
  · exact hc

/-- Painting brings in its own color only. -/
theorem paint {c : Canvas} (hc : c.Only P) (h : P color) (points : List Point) :
    (c.paint points color).Only P := by
  induction points generalizing c with
  | nil => exact hc
  | cons p ps ih => exact ih (hc.set h p)

end Only

end Canvas

/-! ## Scaled canvases -/

namespace Canvas

theorem ext {c d : Canvas} (hw : c.width = d.width) (hh : c.height = d.height)
    (hp : c.pixels = d.pixels) : c = d := by
  cases c
  cases d
  cases hw
  cases hh
  cases hp
  rfl

/-- The canvas with another color for each of its colors. -/
def recolor (c : Canvas) (f : Rgba → Rgba) : Canvas :=
  ⟨c.width, c.height, c.pixels.map f, by rw [Array.size_map, c.size_pixels]⟩

theorem recolor_eq_self {c : Canvas} {f : Rgba → Rgba} (h : ∀ color ∈ c.pixels, f color = color) :
    c.recolor f = c := by
  refine Canvas.ext rfl rfl ?_
  show c.pixels.map f = c.pixels
  rw [Array.map_congr_left h, Array.map_id']

theorem of_recolor_eq_self {c : Canvas} {f : Rgba → Rgba} (h : c.recolor f = c) {color : Rgba}
    (hcolor : color ∈ c.pixels) : f color = color := by
  have hmap : c.pixels.map f = c.pixels.map id := by
    rw [Array.map_id]
    exact congrArg Canvas.pixels h
  exact Array.map_inj_left.1 hmap color hcolor

/-- The first rows of a canvas hold its first pixels. -/
theorem flatten_map_rows (c : Canvas) (n : Nat) :
    ((List.range n).map fun y =>
      (c.pixels.extract (y * c.width) (y * c.width + c.width)).toList).flatten =
      (c.pixels.extract 0 (n * c.width)).toList := by
  induction n with
  | zero => simp
  | succ n ih =>
    rw [List.range_succ, List.map_append, List.flatten_append, ih, List.map_singleton,
      List.flatten_singleton, ← Array.toList_append, Array.extract_append_extract, Nat.succ_mul]
    congr 2
    omega

theorem flatten_rows (c : Canvas) : c.rows.flatten = c.pixels.toList := by
  rw [rows, flatten_map_rows, Nat.mul_comm, ← c.size_pixels, Array.extract_size]

theorem rows_recolor (c : Canvas) (f : Rgba → Rgba) :
    (c.recolor f).rows = c.rows.map (List.map f) := by
  simp only [rows, recolor, List.map_map, ← Array.map_extract, Array.toList_map]
  rfl

theorem map_stretch {α β : Type} (f : α → β) (n : Nat) (xs : List α) :
    (stretch n xs).map f = stretch n (xs.map f) := by
  simp only [stretch, List.map_flatMap, List.flatMap_map, List.map_replicate]

theorem toList_inBlocks {c : Canvas} {n : Nat} (hn : ¬ n < 2) :
    (c.inBlocks n).pixels.toList = (stretch n (c.rows.map (stretch n))).flatten := by
  simp only [inBlocks, if_neg hn, blockPixels]

/-- Scaling comes to the same before and after a change of colors. -/
theorem inBlocks_recolor (c : Canvas) (f : Rgba → Rgba) (n : Nat) :
    (c.recolor f).inBlocks n = (c.inBlocks n).recolor f := by
  by_cases hn : n < 2
  · simp only [inBlocks, if_pos hn]
  · refine Canvas.ext ?_ ?_ (Array.toList_inj.1 ?_)
    · simp only [inBlocks, if_neg hn, recolor]
    · simp only [inBlocks, if_neg hn, recolor]
    · rw [toList_inBlocks hn, rows_recolor]
      show _ = ((c.inBlocks n).pixels.map f).toList
      rw [Array.toList_map, toList_inBlocks hn, List.map_flatten, map_stretch]
      simp only [List.map_map, Function.comp_def, map_stretch]

/-- A scaled canvas has the colors of the canvas, first seen in the same order. -/
theorem eraseDups_inBlocks (c : Canvas) (n : Nat) :
    (c.inBlocks n).pixels.toList.eraseDups = c.pixels.toList.eraseDups := by
  by_cases hn : n < 2
  · simp only [inBlocks, if_pos hn]
  · rw [toList_inBlocks hn]
    obtain _ | n := n
    · omega
    rw [eraseDups_flatten_stretch, eraseDups_flatten_map_stretch, flatten_rows]

/-- Scaling brings in no color. -/
theorem Only.inBlocks {P : Rgba → Prop} {c : Canvas} (hc : c.Only P) (n : Nat) :
    (c.inBlocks n).Only P := by
  intro color hcolor
  rw [← Array.mem_toList_iff, ← List.mem_eraseDups, eraseDups_inBlocks, List.mem_eraseDups,
    Array.mem_toList_iff] at hcolor
  exact hc color hcolor

end Canvas

/-! ## What frames show -/

namespace Frame

/-- The color that a frame shows for a color of its canvas. -/
def shown (palette : List Rgba) (color : Rgba) : Rgba :=
  palette.getD (UInt8.ofNat (indexIn palette color)).toNat .transparent

theorem pixel_ofCanvas {c : Canvas} {x y : Nat} (hx : x < c.width) (hy : y < c.height)
    (hi : y * c.width + x < c.pixels.size) : (ofCanvas c).pixel (x, y) =
      shown (ofCanvas c).palette c.pixels[y * c.width + x] := by
  have hin : (0 : Int) ≤ x ∧ (x : Int) < c.width ∧ (0 : Int) ≤ y ∧ (y : Int) < c.height := by
    omega
  refine (if_pos hin).trans ?_
  simp only [ofCanvas, Int.toNat_natCast, Array.getElem?_map, Array.getElem?_eq_getElem hi,
    Option.map_some, shown]

/-- A frame shows its canvas color by color. -/
theorem toCanvas_ofCanvas (c : Canvas) :
    (ofCanvas c).toCanvas = c.recolor (shown (ofCanvas c).palette) := by
  refine Canvas.ext rfl rfl (Array.ext ?_ fun i hi hi' => ?_)
  · show (Array.ofFn _).size = (c.pixels.map _).size
    rw [Array.size_ofFn, Array.size_map, c.size_pixels]
    rfl
  · have hsize : i < c.pixels.size := by rwa [← Array.size_map (f := shown (ofCanvas c).palette)]
    have hlt : i < c.width * c.height := by rwa [← c.size_pixels]
    have hw : 0 < c.width := Nat.pos_of_mul_pos_right (Nat.zero_lt_of_lt hlt)
    have hindex : i / c.width * c.width + i % c.width = i := Nat.div_add_mod' i c.width
    have hpixel := pixel_ofCanvas (Nat.mod_lt i hw) (Nat.div_lt_of_lt_mul hlt)
      (by rwa [hindex])
    simp only [hindex] at hpixel
    simp only [toCanvas, Canvas.ofFn, Array.getElem_ofFn, Canvas.recolor, Array.getElem_map]
    exact hpixel

/-- Indices into a palette fit into a byte. -/
theorem toNat_indexIn {palette : List Rgba} (hp : palette.length ≤ maxPalette)
    (hne : palette ≠ []) (color : Rgba) :
    (UInt8.ofNat (indexIn palette color)).toNat = indexIn palette color :=
  UInt8.toNat_ofNat_of_lt' (Nat.lt_of_lt_of_le (indexIn_lt hne color) hp)

theorem shown_eq_get {palette : List Rgba} (hp : palette.length ≤ maxPalette)
    (hne : palette ≠ []) (color : Rgba) :
    shown palette color = palette.get ⟨indexIn palette color, indexIn_lt hne color⟩ := by
  rw [shown, toNat_indexIn hp hne, List.getD_eq_getElem?_getD,
    List.getElem?_eq_getElem (indexIn_lt hne color), Option.getD_some, List.get_eq_getElem]

/-- A color of a palette is shown as it is. -/
theorem shown_of_mem {palette : List Rgba} (hp : palette.length ≤ maxPalette) {color : Rgba}
    (h : color ∈ palette) : shown palette color = color := by
  rw [shown_eq_get hp (List.ne_nil_of_mem h)]
  simp only [List.get_eq_getElem, indexIn, if_pos h, List.getElem_idxOf]

theorem nodup_palette (c : Canvas) : (ofCanvas c).palette.Nodup :=
  (nodup_eraseDups _).sublist (List.take_sublist _ _)

theorem palette_ne_nil {c : Canvas} {color : Rgba} (h : color ∈ c.pixels) :
    (ofCanvas c).palette ≠ [] := by
  have hseen : c.pixels.toList.eraseDups ≠ [] :=
    List.ne_nil_of_mem (List.mem_eraseDups.2 (Array.mem_toList_iff.2 h))
  simpa [ofCanvas, paletteOf, maxPalette] using hseen

/-- Every index of a frame is one of its palette. -/
theorem index_lt {c : Canvas} {index : UInt8} (h : index ∈ (ofCanvas c).indices) :
    index.toNat < (ofCanvas c).palette.length := by
  obtain ⟨color, hcolor, rfl⟩ := Array.mem_map.1 h
  have hpalette := palette_ne_nil hcolor
  exact lt_of_eq_of_lt (toNat_indexIn (length_palette_le c) hpalette color)
    (indexIn_lt hpalette color)

theorem palette_of_few {c : Canvas} (h : c.pixels.toList.eraseDups.length ≤ maxPalette) :
    (ofCanvas c).palette = c.pixels.toList.eraseDups :=
  List.take_of_length_le h

theorem mem_palette_of_few {c : Canvas} (h : c.pixels.toList.eraseDups.length ≤ maxPalette)
    {color : Rgba} (hc : color ∈ c.pixels) : color ∈ (ofCanvas c).palette := by
  rw [palette_of_few h, List.mem_eraseDups]
  exact Array.mem_toList_iff.2 hc

/-- A canvas with no more colors than a palette holds is the one that its frame shows. -/
theorem toCanvas_of_few {c : Canvas} (h : c.pixels.toList.eraseDups.length ≤ maxPalette) :
    (ofCanvas c).toCanvas = c := by
  rw [toCanvas_ofCanvas]
  apply Canvas.recolor_eq_self
  intro color hcolor
  exact shown_of_mem (length_palette_le c) (mem_palette_of_few h hcolor)

/-- The palette of a canvas is that of the scaled canvas. -/
theorem palette_inBlocks (c : Canvas) (n : Nat) :
    (ofCanvas (c.inBlocks n)).palette = (ofCanvas c).palette := by
  simp only [ofCanvas, paletteOf, Canvas.eraseDups_inBlocks]

/-- The frame of a scaled canvas shows what the frame of the canvas shows, scaled. -/
theorem toCanvas_inBlocks (c : Canvas) (n : Nat) :
    (ofCanvas (c.inBlocks n)).toCanvas = (ofCanvas c).toCanvas.inBlocks n := by
  rw [toCanvas_ofCanvas, toCanvas_ofCanvas, Canvas.inBlocks_recolor, palette_inBlocks]

end Frame

end DrawLang
