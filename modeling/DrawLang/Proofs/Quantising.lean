import DrawLang.Proofs.OnePass
import Mathlib.Data.Finset.Card
import Mathlib.Tactic.Ring

/-!
# Quantising a canvas

The palette of a frame has 256 colors at the most. A frame shows its canvas as it is just when the
canvas has no more colors; otherwise the colors that are seen first stay, and every other color gives
way to the nearest of these. Nothing is lost a second time: the frame of the canvas that a frame
shows is that frame.

* `Rgba.IsNearest`, `IsPaletteOf`, `IsQuantised`: what is asked of an index, a palette and a frame.
* `isNearest_nearest`, `isPaletteOf_paletteOf`, `isQuantised_ofCanvas`: these hold.
* `toCanvas_eq_iff`: the canvases that are shown as they are.
* `quantising_exact_or_nearest`, `quantising_idempotent`: both theorems on quantising.
-/

namespace DrawLang

/-! ## Nearest colors -/

namespace Rgba

/-- The squared distance of two colors as points with four coordinates. -/
def squaredDistance (c d : Rgba) : Int :=
  (c.r.toNat - d.r.toNat) ^ 2 + (c.g.toNat - d.g.toNat) ^ 2 + (c.b.toNat - d.b.toNat) ^ 2 +
    (c.a.toNat - d.a.toNat) ^ 2

/-- An index into a palette at which stands the first of the colors that are nearest to a color. -/
structure IsNearest (color : Rgba) (palette : List Rgba) (index : Nat) : Prop where
  lt : index < palette.length
  least : ∀ d ∈ palette, color.squaredDistance palette[index] ≤ color.squaredDistance d
  first : ∀ j, (h : j < index) →
    color.squaredDistance palette[index] < color.squaredDistance palette[j]

theorem channelDistance_cast (x y : UInt8) :
    (channelDistance x y : Int) = ((x.toNat : Int) - y.toNat) ^ 2 := by
  rcases Nat.le_total x.toNat y.toNat with h | h
  · simp only [channelDistance, Nat.max_eq_right h, Nat.min_eq_left h]
    push_cast [h]
    ring
  · simp only [channelDistance, Nat.max_eq_left h, Nat.min_eq_right h]
    push_cast [h]
    ring

theorem distance_cast (c d : Rgba) : (c.distance d : Int) = c.squaredDistance d := by
  simp only [distance, squaredDistance, Nat.cast_add, channelDistance_cast]

/-- The least distance, and the search for it. -/
theorem exists_least (color : Rgba) {palette : List Rgba} (h : palette ≠ []) :
    ∃ m, (∀ d ∈ palette, m ≤ color.distance d) ∧
      color.nearest palette = palette.findIdx fun d => decide (color.distance d = m) := by
  obtain ⟨m, hm⟩ : ∃ m, (palette.map color.distance).min? = some m := by
    rw [← Option.isSome_iff_exists, List.isSome_min?_iff]
    simpa using h
  refine ⟨m, fun d hd => ?_, ?_⟩
  · exact (List.le_min?_iff hm).1 (Nat.le_refl m) _ (List.mem_map_of_mem hd)
  · simp only [nearest, hm, Option.some.injEq]

theorem isNearest_nearest (color : Rgba) {palette : List Rgba} (h : palette ≠ []) :
    color.IsNearest palette (color.nearest palette) := by
  have hlt := color.nearest_lt h
  obtain ⟨m, hle, hfind⟩ := color.exists_least h
  have hat : color.distance palette[color.nearest palette] = m := by
    rw [hfind] at hlt
    have hfound := List.findIdx_getElem (w := hlt)
    simpa only [hfind, decide_eq_true_eq] using hfound
  refine ⟨hlt, fun d hd => ?_, fun j hj => ?_⟩
  · rw [← distance_cast, ← distance_cast, hat]
    exact Int.ofNat_le.2 (hle d hd)
  · have hother : color.distance palette[j] ≠ m := by
      rw [hfind] at hj
      have hskipped := List.not_of_lt_findIdx hj
      simpa only [decide_eq_true_eq, decide_eq_false_iff_not] using hskipped
    rw [← distance_cast, ← distance_cast, hat]
    exact Int.ofNat_lt.2 (Nat.lt_of_le_of_ne (hle _ (List.getElem_mem _)) hother.symm)

end Rgba

namespace Frame

/-! ## First colors -/

/-- A palette with the first 256 different colors of some pixels, in the order in which they are
first seen. -/
structure IsPaletteOf (palette pixels : List Rgba) : Prop where
  nodup : palette.Nodup
  length : palette.length = min 256 pixels.toFinset.card
  seen : ∀ color ∈ palette, color ∈ pixels
  ordered : palette.Pairwise fun c d => pixels.idxOf c < pixels.idxOf d
  first : ∀ c ∈ palette, ∀ d ∈ pixels, d ∉ palette → pixels.idxOf c < pixels.idxOf d

theorem card_toFinset_eq (pixels : List Rgba) :
    pixels.toFinset.card = pixels.eraseDups.length := by
  rw [← List.toFinset_card_of_nodup (nodup_eraseDups pixels)]
  congr 1
  ext color
  simp only [List.mem_toFinset, List.mem_eraseDups]

theorem isPaletteOf_paletteOf (pixels : List Rgba) : IsPaletteOf (paletteOf pixels) pixels where
  nodup := (nodup_eraseDups pixels).sublist (List.take_sublist _ _)
  length := by rw [paletteOf, List.length_take, card_toFinset_eq, maxPalette]
  seen := fun _ h => List.mem_eraseDups.1 (List.mem_of_mem_take h)
  ordered := (pairwise_idxOf_eraseDups pixels).sublist (List.take_sublist _ _)
  first := by
    intro c hc d _ hd
    obtain ⟨front, back, hsplit, hfront⟩ := exists_front pixels maxPalette
    rw [paletteOf, ← hfront, List.mem_eraseDups] at hc hd
    rw [hsplit, List.idxOf_append_of_mem hc, List.idxOf_append_of_notMem hd]
    exact Nat.lt_add_right _ (List.idxOf_lt_length_of_mem hc)

/-! ## Exact or nearest -/

/-- A frame that shows a canvas as well as 256 colors allow: every pixel with a color of the palette
as it is, and any other in the nearest of these colors. -/
structure IsQuantised (f : Frame) (c : Canvas) : Prop where
  width : f.width = c.width
  height : f.height = c.height
  palette : IsPaletteOf f.palette c.pixels.toList
  size : f.indices.size = c.pixels.size
  index_lt : ∀ index ∈ f.indices, index.toNat < f.palette.length
  kept : ∀ (i : Nat) color (index : UInt8), c.pixels[i]? = some color →
    f.indices[i]? = some index → color ∈ f.palette → f.palette[index.toNat]? = some color
  nearest : ∀ (i : Nat) color (index : UInt8), c.pixels[i]? = some color →
    f.indices[i]? = some index → color ∉ f.palette → color.IsNearest f.palette index.toNat

/-- The index of a pixel. -/
theorem index_eq {c : Canvas} {i : Nat} {color : Rgba} {index : UInt8}
    (hcolor : c.pixels[i]? = some color) (hindex : (ofCanvas c).indices[i]? = some index) :
    index.toNat = indexIn (ofCanvas c).palette color := by
  have hne := palette_ne_nil (Array.mem_of_getElem? hcolor)
  simp only [ofCanvas, Array.getElem?_map, hcolor, Option.map_some, Option.some.injEq] at hindex
  rw [← hindex]
  exact toNat_indexIn (length_palette_le c) hne color

theorem isQuantised_ofCanvas (c : Canvas) : (ofCanvas c).IsQuantised c where
  width := rfl
  height := rfl
  palette := isPaletteOf_paletteOf _
  size := Array.size_map
  index_lt := fun _ h => Frame.index_lt h
  kept := by
    intro i color index hcolor hindex hmem
    rw [index_eq hcolor hindex, indexIn, if_pos hmem,
      List.getElem?_eq_getElem (List.idxOf_lt_length_of_mem hmem), List.getElem_idxOf]
  nearest := by
    intro i color index hcolor hindex hmem
    rw [index_eq hcolor hindex, indexIn, if_neg hmem]
    exact color.isNearest_nearest (palette_ne_nil (Array.mem_of_getElem? hcolor))

theorem shown_mem {c : Canvas} {color : Rgba} (h : color ∈ c.pixels) :
    shown (ofCanvas c).palette color ∈ (ofCanvas c).palette := by
  rw [shown_eq_get (length_palette_le c) (palette_ne_nil h)]
  exact List.get_mem _ _

/-- A frame shows the canvases with no more colors than a palette holds, and no other. -/
theorem toCanvas_eq_iff (c : Canvas) :
    (ofCanvas c).toCanvas = c ↔ c.pixels.toList.toFinset.card ≤ 256 := by
  rw [card_toFinset_eq]
  refine ⟨fun h => ?_, toCanvas_of_few⟩
  rw [toCanvas_ofCanvas] at h
  have hall : ∀ color ∈ c.pixels.toList, color ∈ (ofCanvas c).palette := by
    intro color hcolor
    have hcolor := Array.mem_toList_iff.1 hcolor
    rw [← Canvas.of_recolor_eq_self h hcolor]
    exact shown_mem hcolor
  exact Nat.le_trans (length_eraseDups_le hall) (length_palette_le c)

/-- A frame has the first colors of its canvas, shows these as they are, and shows any other color as
the nearest of these. So it shows the whole canvas as it is if 256 colors are enough for it, and not
otherwise. One pass over the pixels is enough to make it. -/
theorem quantising_exact_or_nearest (c : Canvas) :
    (ofCanvas c).IsQuantised c ∧
      ((ofCanvas c).toCanvas = c ↔ c.pixels.toList.toFinset.card ≤ 256) ∧
      inOnePass c = ofCanvas c :=
  ⟨isQuantised_ofCanvas c, toCanvas_eq_iff c, inOnePass_eq c⟩

/-! ## Twice -/

/-- The color that is shown for a color has the same index. -/
theorem indexIn_shown {c : Canvas} {color : Rgba} (h : color ∈ c.pixels) :
    indexIn (ofCanvas c).palette (shown (ofCanvas c).palette color) =
      indexIn (ofCanvas c).palette color := by
  have hne := palette_ne_nil h
  rw [indexIn, if_pos (shown_mem h), shown_eq_get (length_palette_le c) hne]
  exact (nodup_palette c).idxOf_getElem _ (indexIn_lt hne color)

/-- The colors in front of the last one that gets a place are shown as they are, and whatever is
shown behind them has been seen there. -/
theorem palette_toCanvas (c : Canvas) :
    (ofCanvas (ofCanvas c).toCanvas).palette = (ofCanvas c).palette := by
  obtain ⟨front, back, hsplit, hfront⟩ := exists_front c.pixels.toList maxPalette
  have hpalette : (ofCanvas c).palette = front.eraseDups := hfront.symm
  have hmem : ∀ color, color ∈ (ofCanvas c).palette ↔ color ∈ front := fun color => by
    rw [hpalette, List.mem_eraseDups]
  have hkept : front.map (shown (ofCanvas c).palette) = front := by
    refine (List.map_congr_left fun color hcolor => ?_).trans (List.map_id front)
    exact shown_of_mem (length_palette_le c) ((hmem color).2 hcolor)
  have hback : ∀ color ∈ back.map (shown (ofCanvas c).palette), color ∈ front := by
    intro color hcolor
    obtain ⟨d, hd, rfl⟩ := List.mem_map.1 hcolor
    refine (hmem _).1 (shown_mem (Array.mem_toList_iff.1 ?_))
    rw [hsplit]
    exact List.mem_append_right _ hd
  calc (ofCanvas (ofCanvas c).toCanvas).palette
    _ = paletteOf (c.pixels.toList.map (shown (ofCanvas c).palette)) := by
      rw [toCanvas_ofCanvas]
      simp only [ofCanvas, Canvas.recolor, Array.toList_map]
    _ = (front ++ back.map (shown (ofCanvas c).palette)).eraseDups.take maxPalette := by
      rw [hsplit, List.map_append, hkept, paletteOf]
    _ = (ofCanvas c).palette := by
      rw [eraseDups_append_of_subset hback, ← hpalette]
      exact List.take_of_length_le (length_palette_le c)

theorem indices_toCanvas (c : Canvas) :
    (ofCanvas (ofCanvas c).toCanvas).indices = (ofCanvas c).indices := by
  calc (ofCanvas (ofCanvas c).toCanvas).indices
    _ = (ofCanvas c).toCanvas.pixels.map fun color =>
        UInt8.ofNat (indexIn (ofCanvas (ofCanvas c).toCanvas).palette color) := rfl
    _ = c.pixels.map fun color =>
        UInt8.ofNat (indexIn (ofCanvas c).palette (shown (ofCanvas c).palette color)) := by
      rw [palette_toCanvas, toCanvas_ofCanvas]
      exact Array.map_map
    _ = c.pixels.map fun color => UInt8.ofNat (indexIn (ofCanvas c).palette color) :=
      Array.map_congr_left fun color hcolor => by rw [indexIn_shown hcolor]
    _ = (ofCanvas c).indices := rfl

theorem ext {f g : Frame} (hw : f.width = g.width) (hh : f.height = g.height)
    (hp : f.palette = g.palette) (hi : f.indices = g.indices) (hd : f.delay = g.delay) : f = g := by
  cases f
  cases g
  cases hw
  cases hh
  cases hp
  cases hi
  cases hd
  rfl

/-- The frame of the canvas that a frame shows is the same frame. -/
theorem quantising_idempotent (c : Canvas) : ofCanvas (ofCanvas c).toCanvas = ofCanvas c :=
  Frame.ext rfl rfl (palette_toCanvas c) (indices_toCanvas c) rfl

end Frame

end DrawLang
