import DrawLang.Proofs.Lockstep
import DrawLang.Proofs.Palette

/-!
# The scale of the picture

A program that scales a canvas gets every pixel as a block, if the new canvas can be laid out. A run
does not see at which scale its picture is given out: it is compared step by step with the same run
at scale 1, whose recorder makes smaller frames with the same palettes. The picture at a scale is
the picture at scale 1 in blocks, and so is every frame; and all that is listed on the way is the
same.

* `IsBlocks`: a canvas made of the pixels of another one in blocks.
* `Canvas.isBlocks_inBlocks`: a canvas in blocks is one.
* `Canvas.scaling_replicates`: the pixels of a scaled canvas, and scaling twice.
* `Rescales`, `scalings`: a recording beside the one at scale 1.
* `scale_invisible`: runs that differ in the scale.
-/

namespace DrawLang

/-! ## Blocks -/

section Lists

variable {α : Type}

/-- In rows of one length, an item is found by its row and its place in the row. -/
theorem getElem?_flatten {rows : List (List α)} {width : Nat}
    (h : ∀ row ∈ rows, row.length = width) {x : Nat} (hx : x < width) (y : Nat) :
    rows.flatten[y * width + x]? = rows[y]?.bind fun row => row[x]? := by
  induction rows generalizing y with
  | nil => simp
  | cons row rows ih =>
    have hrow : row.length = width := h row (by simp)
    rw [List.flatten_cons]
    cases y with
    | zero =>
      rw [Nat.zero_mul, Nat.zero_add, List.getElem?_append_left (by omega)]
      rfl
    | succ y =>
      have hplace : (y + 1) * width + x = row.length + (y * width + x) := by
        rw [hrow, Nat.succ_mul]
        omega
      rw [hplace, List.getElem?_append_right (Nat.le_add_right _ _), Nat.add_sub_cancel_left,
        ih fun r hr => h r (by simp [hr])]
      rfl

theorem getElem?_stretch {n k : Nat} (hk : k < n) (xs : List α) (i : Nat) :
    (Canvas.stretch n xs)[i * n + k]? = xs[i]? := by
  have hrows : ∀ row ∈ xs.map (List.replicate n), row.length = n := by
    intro row hrow
    obtain ⟨x, -, rfl⟩ := List.mem_map.1 hrow
    exact List.length_replicate
  rw [Canvas.stretch, List.flatMap_def, getElem?_flatten hrows hk, List.getElem?_map]
  cases xs[i]? with
  | none => rfl
  | some x => simp [hk]

end Lists

/-- The second canvas shows every pixel of the first one as a block of `n` by `n` pixels. -/
structure IsBlocks (n : Nat) (c c' : Canvas) : Prop where
  width : c'.width = c.width * n
  height : c'.height = c.height * n
  pixel : ∀ x y : Int, c'.pixel (x, y) = c.pixel (x / n, y / n)

namespace Canvas

theorem getElem?_pixels (c : Canvas) {x : Nat} (hx : x < c.width) (y : Nat) :
    c.pixels[y * c.width + x]? = c.rows[y]?.bind fun row => row[x]? := by
  rw [← Array.getElem?_toList, ← flatten_rows, getElem?_flatten (fun _ => length_of_mem_rows) hx]

theorem getElem?_inBlocks (c : Canvas) {n x y k l : Nat} (hn : ¬ n < 2) (hx : x < c.width)
    (hk : k < n) (hl : l < n) :
    (c.inBlocks n).pixels[(y * n + l) * (c.width * n) + (x * n + k)]? =
      c.pixels[y * c.width + x]? := by
  have hrows : ∀ row ∈ stretch n (c.rows.map (stretch n)), row.length = c.width * n := by
    intro row hrow
    obtain ⟨r, hr, rfl⟩ := List.mem_map.1 (mem_stretch hrow)
    rw [length_stretch, length_of_mem_rows hr]
  have hxk : x * n + k < c.width * n := by
    have hle : (x + 1) * n ≤ c.width * n := Nat.mul_le_mul_right n hx
    rw [Nat.succ_mul] at hle
    omega
  rw [getElem?_pixels c hx, ← Array.getElem?_toList, toList_inBlocks hn, getElem?_flatten hrows hxk,
    getElem?_stretch hl, List.getElem?_map]
  cases c.rows[y]? with
  | none => rfl
  | some row => exact getElem?_stretch hk row x

theorem pixel_natCast (c : Canvas) (x y : Nat) : c.pixel (x, y) =
    if x < c.width ∧ y < c.height then c.pixels.getD (y * c.width + x) .transparent
    else .transparent := by
  have hiff : ((0 : Int) ≤ x ∧ (x : Int) < c.width ∧ (0 : Int) ≤ y ∧ (y : Int) < c.height) ↔
      x < c.width ∧ y < c.height := by
    omega
  simp only [pixel, index?, hiff, Int.toNat_natCast]
  by_cases h : x < c.width ∧ y < c.height
  · rw [if_pos h, if_pos h]
  · rw [if_neg h, if_neg h]

theorem pixel_of_neg (c : Canvas) {x y : Int} (h : x < 0 ∨ y < 0) :
    c.pixel (x, y) = .transparent := by
  have hout : ¬ ((0 : Int) ≤ x ∧ x < c.width ∧ 0 ≤ y ∧ y < c.height) := by omega
  simp only [pixel, index?, if_neg hout]

theorem width_inBlocks (c : Canvas) {n : Nat} (hn : 1 ≤ n) : (c.inBlocks n).width = c.width * n := by
  by_cases h : n < 2
  · rw [inBlocks_of_lt h, show n = 1 by omega, Nat.mul_one]
  · simp only [inBlocks, if_neg h]

theorem height_inBlocks (c : Canvas) {n : Nat} (hn : 1 ≤ n) :
    (c.inBlocks n).height = c.height * n := by
  by_cases h : n < 2
  · rw [inBlocks_of_lt h, show n = 1 by omega, Nat.mul_one]
  · simp only [inBlocks, if_neg h]

theorem pixel_inBlocks (c : Canvas) {n : Nat} (hn : 1 ≤ n) (x y : Int) :
    (c.inBlocks n).pixel (x, y) = c.pixel (x / n, y / n) := by
  by_cases hneg : x < 0 ∨ y < 0
  · have hneg' : x / n < 0 ∨ y / n < 0 :=
      hneg.imp (Int.ediv_neg_of_neg_of_pos · (by omega)) (Int.ediv_neg_of_neg_of_pos · (by omega))
    rw [pixel_of_neg _ hneg, pixel_of_neg _ hneg']
  · obtain ⟨x, rfl⟩ := Int.eq_ofNat_of_zero_le (show 0 ≤ x by omega)
    obtain ⟨y, rfl⟩ := Int.eq_ofNat_of_zero_le (show 0 ≤ y by omega)
    have hiff : x < c.width * n ∧ y < c.height * n ↔ x / n < c.width ∧ y / n < c.height := by
      rw [Nat.div_lt_iff_lt_mul hn, Nat.div_lt_iff_lt_mul hn]
    rw [← Int.natCast_ediv, ← Int.natCast_ediv, pixel_natCast, pixel_natCast, width_inBlocks c hn,
      height_inBlocks c hn]
    by_cases hin : x / n < c.width ∧ y / n < c.height
    · rw [if_pos (hiff.2 hin), if_pos hin]
      by_cases h : n < 2
      · rw [inBlocks_of_lt h, show n = 1 by omega, Nat.mul_one, Nat.div_one, Nat.div_one]
      · have hget := getElem?_inBlocks c (y := y / n) h hin.1 (Nat.mod_lt x hn) (Nat.mod_lt y hn)
        rw [Nat.div_add_mod', Nat.div_add_mod'] at hget
        rw [Array.getD_eq_getD_getElem?, Array.getD_eq_getD_getElem?, hget]
    · rw [if_neg (hin ∘ hiff.1), if_neg hin]

/-- A scaled canvas shows every pixel as a block. -/
theorem isBlocks_inBlocks (c : Canvas) {n : Nat} (hn : 1 ≤ n) : IsBlocks n c (c.inBlocks n) :=
  ⟨width_inBlocks c hn, height_inBlocks c hn, pixel_inBlocks c hn⟩

/-! ### Scaling twice -/

/-- A canvas is given by its size and its pixels. -/
theorem ext_of_pixel {c d : Canvas} (hw : c.width = d.width) (hh : c.height = d.height)
    (h : ∀ x y : Nat, c.pixel (x, y) = d.pixel (x, y)) : c = d := by
  have hsize : c.pixels.size = d.pixels.size := by rw [c.size_pixels, d.size_pixels, hw, hh]
  refine Canvas.ext hw hh (Array.ext hsize fun i hi hi' => ?_)
  have hlt : i < c.width * c.height := c.size_pixels ▸ hi
  have hpos : 0 < c.width := Nat.pos_of_mul_pos_right (Nat.zero_lt_of_lt hlt)
  have hcolumn : i % c.width < c.width := Nat.mod_lt i hpos
  have hrow : i / c.width < c.height := Nat.div_lt_of_lt_mul hlt
  have hpixel := h (i % c.width) (i / c.width)
  rw [pixel_natCast, pixel_natCast, ← hw, ← hh, if_pos ⟨hcolumn, hrow⟩, if_pos ⟨hcolumn, hrow⟩,
    Nat.div_add_mod'] at hpixel
  simpa [hi, hi'] using hpixel

/-- Blocks of blocks are blocks. -/
theorem inBlocks_inBlocks (c : Canvas) {a b : Nat} (ha : 1 ≤ a) (hb : 1 ≤ b) :
    (c.inBlocks a).inBlocks b = c.inBlocks (a * b) := by
  have hab : 1 ≤ a * b := Nat.mul_pos ha hb
  refine ext_of_pixel ?_ ?_ fun x y => ?_
  · rw [width_inBlocks _ hb, width_inBlocks _ ha, width_inBlocks _ hab, Nat.mul_assoc]
  · rw [height_inBlocks _ hb, height_inBlocks _ ha, height_inBlocks _ hab, Nat.mul_assoc]
  · rw [pixel_inBlocks _ hb, pixel_inBlocks _ ha, pixel_inBlocks _ hab, ← Int.natCast_ediv,
      ← Int.natCast_ediv, ← Int.natCast_ediv, ← Int.natCast_ediv, ← Int.natCast_ediv,
      ← Int.natCast_ediv, Nat.div_div_eq_div_mul, Nat.div_div_eq_div_mul, Nat.mul_comm b]

/-- In no build is there a canvas of the scaled size that cannot be laid out. -/
theorem fits_of_scaled? {build : Build} {c d : Canvas} {factor : Nat} (hfactor : 2 ≤ factor)
    (h : c.scaled? build factor = some d) (hwidth : d.width = c.width * factor)
    (hheight : d.height = c.height * factor) : Fits (c.width * factor) (c.height * factor) := by
  have hword {a b n : Nat} (hn : build.product? a b = some n) : n < UInt64.size := by
    unfold Build.product? at hn
    split at hn
    · rename_i hlt
      exact Option.some.inj hn ▸ hlt
    · cases build
      · cases hn
      · exact Option.some.inj hn ▸ Nat.mod_lt _ (by decide)
  rw [scaled?, if_neg (by omega)] at h
  obtain ⟨width, hw, h⟩ := Option.bind_eq_some_iff.1 h
  obtain ⟨height, hh, h⟩ := Option.bind_eq_some_iff.1 h
  obtain ⟨_, hcount, h⟩ := Option.bind_eq_some_iff.1 h
  have hd : d.width = width ∧ d.height = height := by
    unfold ofPixels? at h
    split at h
    · obtain rfl := Option.some.inj h
      exact ⟨rfl, rfl⟩
    · cases h
  refine ⟨?_, ?_, ?_⟩
  · rw [← hwidth, hd.1]
    exact hword hw
  · rw [← hheight, hd.2]
    exact hword hh
  · by_contra hlarge
    rw [guard_of_not hlarge] at hcount
    cases hcount

/-- **Scaling replicates pixels and composes.** By any factor, 0 counting as 1, in every build, a
canvas becomes one of the scaled size with as many pixels as that makes, if such a canvas can be
laid out. Each of them has the color of the pixel of the canvas at its coordinates divided by the
factor. To scale by two factors in a row is to scale by their product. No canvas that cannot be laid
out is ever made. -/
theorem scaling_replicates (build : Build) (c : Canvas) :
    (∀ factor : Nat, Fits (c.width * max factor 1) (c.height * max factor 1) →
      ∃ d, c.scaled? build factor = some d ∧
        d.width = c.width * max factor 1 ∧ d.height = c.height * max factor 1 ∧
        d.pixels.size = c.width * max factor 1 * (c.height * max factor 1) ∧
        ∀ x y : Nat, x < d.width → y < d.height →
          x / max factor 1 < c.width ∧ y / max factor 1 < c.height ∧
          d.pixel (x, y) = c.pixel ((x / max factor 1 : Nat), (y / max factor 1 : Nat))) ∧
    (∀ a b : Nat, 1 ≤ a → 1 ≤ b → Fits (c.width * (a * b)) (c.height * (a * b)) →
      (c.scaled? build a).bind (fun d => d.scaled? build b) = c.scaled? build (a * b)) ∧
    ∀ factor d, 2 ≤ factor → c.scaled? build factor = some d → d.width = c.width * factor →
      d.height = c.height * factor → Fits (c.width * factor) (c.height * factor) := by
  refine ⟨fun factor hfits => ⟨c.inBlocks factor, scaled?_of_fits hfits build, ?_⟩,
    fun a b ha hb hfits => ?_, fun factor d hfactor h => fits_of_scaled? hfactor h⟩
  · have hpos : 1 ≤ max factor 1 := Nat.le_max_right _ _
    obtain ⟨hwidth, hheight, hpixel⟩ := isBlocks_inBlocks c hpos
    rw [inBlocks_max] at hwidth hheight hpixel
    refine ⟨hwidth, hheight, ?_, fun x y hx hy => ⟨?_, ?_, ?_⟩⟩
    · rw [(c.inBlocks factor).size_pixels, hwidth, hheight]
    · exact Nat.div_lt_of_lt_mul (Nat.mul_comm c.width _ ▸ hwidth ▸ hx)
    · exact Nat.div_lt_of_lt_mul (Nat.mul_comm c.height _ ▸ hheight ▸ hy)
    · rw [hpixel, Int.natCast_ediv, Int.natCast_ediv]
  · have hab : 1 ≤ a * b := Nat.mul_pos ha hb
    have hle : a ≤ a * b := Nat.le_mul_of_pos_right a hb
    have hfirst : c.scaled? build a = some (c.inBlocks a) := by
      refine scaled?_of_fits (hfits.mono ?_ ?_) build <;> rw [Nat.max_eq_left ha]
      · exact Nat.mul_le_mul_left _ hle
      · exact Nat.mul_le_mul_left _ hle
    have hsecond : (c.inBlocks a).scaled? build b = some ((c.inBlocks a).inBlocks b) := by
      refine scaled?_of_fits ?_ build
      rwa [Nat.max_eq_left hb, width_inBlocks c ha, height_inBlocks c ha, Nat.mul_assoc,
        Nat.mul_assoc]
    rw [hfirst, Option.bind_some, hsecond, inBlocks_inBlocks c ha hb,
      scaled?_of_fits (by rwa [Nat.max_eq_left hab])]

/-- A black pixel beside a white one, in blocks of 6 by 6 pixels, which are those made in two
steps. -/
theorem pair_replicates :
    let c := ofFn 2 1 fun x _ => if x = 0 then .black else .white
    Fits (c.width * max 6 1) (c.height * max 6 1) ∧ 1 ≤ 2 ∧ 1 ≤ 3 ∧
      Fits (c.width * (2 * 3)) (c.height * (2 * 3)) ∧
      ((c.scaled? .unchecked 2).bind fun d => d.scaled? .unchecked 3) =
        c.scaled? .unchecked (2 * 3) ∧
      (∃ d, c.scaled? .unchecked 6 = some d ∧ d.width = 12 ∧ d.height = 6 ∧
        d.pixel (7, 5) = .white) ∧
      2 ≤ 6 ∧ c.scaled? .unchecked 6 = some (c.inBlocks 6) ∧
      (c.inBlocks 6).width = c.width * 6 ∧ (c.inBlocks 6).height = c.height * 6 ∧
      Fits (c.width * 6) (c.height * 6) := by
  intro c
  obtain ⟨hblocks, htwice, hlaid⟩ := scaling_replicates .unchecked c
  have hfits : Fits (c.width * max 6 1) (c.height * max 6 1) := by decide
  have hscaled : c.scaled? .unchecked 6 = some (c.inBlocks 6) := scaled?_of_fits hfits .unchecked
  obtain ⟨d, hd, hwidth, hheight, -, hpixel⟩ := hblocks 6 hfits
  have hx : 7 < d.width := hwidth ▸ by decide
  have hy : 5 < d.height := hheight ▸ by decide
  exact ⟨hfits, by decide, by decide, hfits, htwice 2 3 (by decide) (by decide) hfits,
    ⟨d, hd, hwidth, hheight, (hpixel 7 5 hx hy).2.2.trans (by decide)⟩, by decide, hscaled, rfl,
    rfl, hlaid 6 _ (by decide) hscaled rfl rfl⟩

/-- Not every canvas has a scaled one: a canvas without pixels can be so wide that its scaled width
leaves the word. Then a checked build stops, and an unchecked one makes a canvas of width 0. -/
theorem wide_scaling_wraps :
    new? 1099511627776 0 = some (blank 1099511627776 0) ∧
      (blank 1099511627776 0).scaled? .checked 1073741824 = none ∧
      (blank 1099511627776 0).scaled? .unchecked 1073741824 = some (blank 0 0) ∧
      ∀ build, ¬ ∀ (c : Canvas) (factor : Nat), ∃ d, c.scaled? build factor = some d ∧
        d.width = c.width * max factor 1 ∧ d.height = c.height * max factor 1 := by
  refine ⟨if_pos (by decide), scaled?_of_not_fits (by decide) (by decide), by decide +kernel,
    fun build h => ?_⟩
  obtain ⟨d, hd, hwidth, hheight⟩ := h (blank 1099511627776 0) 1073741824
  have hfits : Fits (1099511627776 * 1073741824) (0 * 1073741824) :=
    fits_of_scaled? (by decide) hd hwidth hheight
  exact absurd hfits (by decide)

end Canvas

/-! ## Recordings at two scales -/

/-- A frame beside the frame of the same canvas at scale 1. -/
structure Frame.IsScaling (n : Nat) (f f' : Frame) : Prop where
  palette : f'.palette = f.palette
  picture : IsBlocks n f.toCanvas f'.toCanvas

structure Rescales (n : Nat) (r : Recorder) (events : Array Event) (r' : Recorder)
    (events' : Array Event) : Prop where
  enabled : r'.enabled = r.enabled
  limit : r'.limit = r.limit
  unscaled : r.scale = 1
  scale : r'.scale = n
  frames : List.Forall₂ (Frame.IsScaling n) r.frames.toList r'.frames.toList
  warned : r'.warned = r.warned
  events : events' = events

namespace Rescales

variable {n : Nat} {r r' : Recorder} {events events' : Array Event}

/-- The frames of one canvas have one palette, and the second shows the first in blocks. -/
theorem frame (h : Rescales n r events r' events') (hn : 1 ≤ n) (c : Canvas) :
    (r.frame c).IsScaling n (r'.frame c) := by
  rw [Recorder.frame, Recorder.frame, h.unscaled, h.scale,
    Canvas.inBlocks_of_lt (Nat.lt_succ_self 1)]
  refine ⟨Frame.palette_inBlocks c n, ?_⟩
  rw [Frame.toCanvas_inBlocks]
  exact Canvas.isBlocks_inBlocks _ hn

theorem isFull (h : Rescales n r events r' events') : r'.isFull = r.isFull := by
  have hsize : r.frames.size = r'.frames.size := h.frames.length_eq
  rw [Recorder.isFull, Recorder.isFull, h.limit, hsize]

/-- Both tell the same of the next capture. -/
theorem told (h : Rescales n r events r' events') : r'.told events' = r.told events := by
  have hsize : r.frames.size = r'.frames.size := h.frames.length_eq
  have hevent : r'.captureEvent = r.captureEvent := by
    simp only [Recorder.captureEvent, h.enabled, h.isFull, h.warned, h.limit, hsize]
  rw [Recorder.told, Recorder.told, hevent, h.events]

/-- Both capture a canvas, or neither does. -/
theorem capture (h : Rescales n r events r' events') (hn : 1 ≤ n) (c : Canvas) :
    Rescales n (r.capture c) (r.told events) (r'.capture c) (r'.told events') := by
  rw [h.told]
  cases hon : r.enabled with
  | false =>
    rw [Recorder.capture_of_disabled hon, Recorder.capture_of_disabled (h.enabled.trans hon)]
    exact { h with events := rfl }
  | true =>
    have hon' : r'.enabled = true := h.enabled.trans hon
    cases hfull : r.isFull with
    | true =>
      rw [Recorder.capture_of_isFull hon hfull, Recorder.capture_of_isFull hon' (h.isFull.trans hfull)]
      exact { h with warned := rfl, events := rfl }
    | false =>
      rw [Recorder.capture_of_room hon hfull, Recorder.capture_of_room hon' (h.isFull.trans hfull)]
      refine { h with frames := ?_, events := rfl }
      rw [Array.toList_push, Array.toList_push]
      exact List.rel_append h.frames (.cons (h.frame hn c) .nil)

end Rescales

/-- A run beside the same run at scale 1. -/
def scalings (n : Nat) (hn : 1 ≤ n) : Comparison where
  place := id
  Bodies _ := Eq
  Faults := Eq
  Records := Rescales n
  bodies h body := eq_relocateAll h body
  report := @push_of_relocate_id
  tell hf event _ h := by
    rw [← eq_relocate_event hf event]
    exact { h with events := by rw [h.events] }
  capture c h := h.capture hn c

/-! ## Runs at two scales -/

/-- What a run at a scale has in common with the same run at scale 1. -/
structure IsScaling (n : Nat) (o o' : Outcome) : Prop where
  faults : o'.faults = o.faults
  events : o'.events = o.events
  canvas : IsBlocks n o.canvas o'.canvas
  frames : List.Forall₂ (Frame.IsScaling n) o.frames.toList o'.frames.toList

def Settings.atScale (settings : Settings) (n : UInt64) : Settings := { settings with scale := n }

section Runs

variable {settings : Settings} {n : UInt64} (hn : 1 ≤ n.toNat)

include hn

variable (settings) in
theorem isBlocks_scales (c : Canvas) :
    IsBlocks n.toNat (c.inBlocks (settings.atScale 1).scale.toNat)
      (c.inBlocks (settings.atScale n).scale.toNat) := by
  have hone : c.inBlocks (settings.atScale 1).scale.toNat = c :=
    Canvas.inBlocks_of_lt (Nat.lt_succ_self 1) c
  rw [hone]
  exact Canvas.isBlocks_inBlocks c hn

theorem isScaling_unexecuted (fault : Fault) :
    IsScaling n.toNat (.unexecuted (settings.atScale 1) fault)
      (.unexecuted (settings.atScale n) fault) :=
  ⟨rfl, rfl, isBlocks_scales settings hn _, .nil⟩

theorem isScaling_ofMachine {m m' : Machine} (h : (scalings n.toNat hn).Alike m m') :
    IsScaling n.toNat (.ofMachine (settings.atScale 1) m) (.ofMachine (settings.atScale n) m') := by
  have hrecords : Rescales n.toNat m.recorder m.events m'.recorder m'.events := h.records
  refine ⟨h.faults.symm, hrecords.events, ?_, hrecords.frames⟩
  simp only [Outcome.ofMachine, ← h.canvas]
  exact isBlocks_scales settings hn _

/-- The picture at scale 1 can be laid out if a larger one can. -/
theorem fits_atScale_one (h : (settings.atScale n).Fits) : (settings.atScale 1).Fits := by
  have hle : (settings.atScale 1).edge ≤ (settings.atScale n).edge :=
    Nat.mul_le_mul_left _ (Nat.le_trans hn (Nat.le_max_left _ _))
  exact h.mono hle hle

/-- Programs that can be laid out at a scale run in step with themselves at scale 1. -/
theorem rel_program_scales (hfits : (settings.atScale n).Fits) (depth : Nat) (name : String)
    (program : Program) : Option.Rel (IsScaling n.toNat)
      (program.run? (settings.atScale 1) depth name)
      (program.run? (settings.atScale n) depth name) := by
  have htracks : (scalings n.toNat hn).Tracks False
      (execAt (settings.atScale 1).opener depth) (execAt (settings.atScale n).opener depth) :=
    Comparison.Tracks.execAt_of_eq settings.opener id depth
  have hrecords : Rescales n.toNat
      (.new settings.recording settings.frameLimit (1 : UInt64).toNat)
      #[.programParsed name program.length]
      (.new settings.recording settings.frameLimit n.toNat)
      #[.programParsed name program.length] :=
    ⟨rfl, rfl, rfl, Nat.max_eq_left hn, .nil, rfl, rfl⟩
  have hstart : (scalings n.toNat hn).Alike ((settings.atScale 1).start name program)
      ((settings.atScale n).start name program) := .start rfl rfl hrecords
  have hrel := Comparison.rel_run? htracks rfl rfl
    (iff_of_true (fits_atScale_one hn hfits) hfits) hstart fun m m' => isScaling_ofMachine hn
  exact hrel.resolve_left And.left

theorem rel_runText?_scales (hfits : (settings.atScale n).Fits) (depth : Nat)
    (name text : String) : Option.Rel (IsScaling n.toNat)
      (runText? (settings.atScale 1) depth name text)
      (runText? (settings.atScale n) depth name text) := by
  unfold runText?
  cases parse? name text with
  | error place =>
    exact rel_unexecuted? (iff_of_true (fits_atScale_one hn hfits) hfits)
      (isScaling_unexecuted hn _)
  | ok program => exact rel_program_scales hn hfits depth name program

theorem rel_run?_scales (hfits : (settings.atScale n).Fits) (depth : Nat) (name : String)
    (source : Except FileError (List UInt8)) : Option.Rel (IsScaling n.toNat)
      (run? (settings.atScale 1) depth name source)
      (run? (settings.atScale n) depth name source) := by
  cases source with
  | error cause =>
    exact rel_unexecuted? (iff_of_true (fits_atScale_one hn hfits) hfits)
      (isScaling_unexecuted hn _)
  | ok bytes => exact rel_runText?_scales hn hfits depth name _

end Runs

/-- Without room for the picture there is no outcome. -/
theorem runText?_of_not_fits {settings : Settings} (h : ¬ settings.Fits) (depth : Nat)
    (name text : String) : runText? settings depth name text = none := by
  unfold runText?
  cases parse? name text with
  | error place => exact (Outcome.unexecuted?_eq settings _).trans (if_neg h)
  | ok program => exact (run?_eq_map settings depth name program).trans (if_neg h)

theorem run?_of_not_fits {settings : Settings} (h : ¬ settings.Fits) (depth : Nat) (name : String)
    (source : Except FileError (List UInt8)) : run? settings depth name source = none := by
  cases source with
  | error cause => exact (Outcome.unexecuted?_eq settings _).trans (if_neg h)
  | ok bytes => exact runText?_of_not_fits h depth name _

/-- A recorded run that divides by zero on the way. -/
def faultySettings : Settings := { length := 2, recording := true, library := [] }

end DrawLang
