import DrawLang.Proofs.Scaling
import DrawLang.Proofs.Steps

/-!
# The shape and the colors of pictures

Drawing never changes the size of a canvas, and puts the colors of inks on it. The paper is white
before the program begins, so from then on all pixels of the canvas are in inks, whatever numbers
the program computes and whatever the library drew before.

* `Canvas.IsSquare`, `Frame.IsSquare`: the shape of pictures.
* `Rgba.IsInk`: the colors of inks.
* `runs_show_pictures`: what every outcome shows.
-/

namespace DrawLang

/-! ## Shape -/

/-- A canvas with edges of `n` pixels. -/
structure Canvas.IsSquare (n : Nat) (c : Canvas) : Prop where
  width : c.width = n
  height : c.height = n

/-- A frame with edges of `n` pixels, in a palette of different colors. -/
structure Frame.IsSquare (n : Nat) (f : Frame) : Prop where
  width : f.width = n
  height : f.height = n
  size : f.indices.size = n * n
  index_lt : ∀ index ∈ f.indices, index.toNat < f.palette.length
  nodup : f.palette.Nodup

/-- Whether the canvas has edges of `n` pixels, and frames are made at a scale. -/
structure Squared (n scale : Nat) (m : Machine) : Prop where
  canvas : m.canvas.IsSquare n
  scale_eq : m.recorder.scale = scale
  frames : ∀ f ∈ m.recorder.frames, f.IsSquare (n * max scale 1)

namespace Canvas.IsSquare

variable {n : Nat} {c : Canvas}

theorem size (hc : c.IsSquare n) : c.pixels.size = n * n := by
  rw [c.size_pixels, hc.width, hc.height]

theorem fill (hc : c.IsSquare n) (color : Rgba) : (c.fill color).IsSquare n :=
  ⟨hc.width, hc.height⟩

theorem set (hc : c.IsSquare n) (p : Point) (color : Rgba) : (c.set p color).IsSquare n :=
  ⟨(width_set c p color).trans hc.width, (height_set c p color).trans hc.height⟩

theorem paint (hc : c.IsSquare n) (points : List Point) (color : Rgba) :
    (c.paint points color).IsSquare n :=
  ⟨(width_paint c points color).trans hc.width, (height_paint c points color).trans hc.height⟩

theorem inBlocks (hc : c.IsSquare n) (scale : Nat) :
    (c.inBlocks scale).IsSquare (n * max scale 1) := by
  have hpos : 1 ≤ max scale 1 := Nat.le_max_right _ _
  rw [← inBlocks_max]
  exact ⟨by rw [width_inBlocks c hpos, hc.width], by rw [height_inBlocks c hpos, hc.height]⟩

/-- The frame of a square canvas is a square of indices into a palette of different colors. -/
theorem ofCanvas (hc : c.IsSquare n) : (Frame.ofCanvas c).IsSquare n where
  width := hc.width
  height := hc.height
  size := by rw [Frame.size_indices, hc.width, hc.height]
  index_lt _ := Frame.index_lt
  nodup := Frame.nodup_palette c

end Canvas.IsSquare

/-- Whether a state that comes about from a squared state is squared. -/
def KeepsSquare (n scale : Nat) (m m' : Machine) : Prop := Squared n scale m → Squared n scale m'

instance (n scale : Nat) : Chained (KeepsSquare n scale) where
  refl _ := id
  trans h h' := h' ∘ h

theorem draw_keepsSquare {n scale : Nat} {change : Canvas → Rgba → Canvas}
    (hchange : ∀ c pen, c.IsSquare n → (change c pen).IsSquare n) :
    Keeps (KeepsSquare n scale) (draw change) := by
  refine .draw fun m events hm => ?_
  have hnew := hchange m.canvas m.pen hm.canvas
  have hframe := (hnew.inBlocks m.recorder.scale).ofCanvas
  rw [hm.scale_eq] at hframe
  refine ⟨hnew, (Recorder.scale_capture _ _).trans hm.scale_eq, ?_⟩
  exact Recorder.forall_frames_capture hm.frames (by rwa [Recorder.frame, hm.scale_eq])

instance (n scale : Nat) : Stable (KeepsSquare n scale) :=
  .of_picture
    (fun hcanvas _ hrecorder hm =>
      ⟨hcanvas ▸ hm.canvas, hrecorder ▸ hm.scale_eq, hrecorder ▸ hm.frames⟩)
    (fun _ _ hm => ⟨hm.canvas, hm.scale_eq, hm.frames⟩)
    (fun _ => draw_keepsSquare fun _ _ hc => hc.fill _)
    (fun _ _ => draw_keepsSquare fun _ _ hc => hc.paint _ _)
    (fun _ _ => draw_keepsSquare fun _ _ hc => hc.set _ _)

theorem squared_of_program {settings : Settings} {depth : Nat} {name : String} {program : Program}
    {m : Machine} {u : Unit} (h : program.exec (execAt settings.opener depth) settings.library
      (settings.start name program) = some (u, m)) :
    Squared settings.length.toNat (max settings.scale.toNat 1) m :=
  Stable.program (R := KeepsSquare _ _) (Stable.execAt settings.opener depth) settings.library
    program h ⟨⟨rfl, rfl⟩, rfl, fun _ hf => absurd hf (Array.not_mem_empty _)⟩

/-! ## Colors -/

/-- The opaque grays of the amounts of ink from 0 to 100. -/
def Rgba.IsInk (color : Rgba) : Prop :=
  ∃ v ≤ 100, color.r.toNat = (100 - v) * 255 / 100 ∧ color.g = color.r ∧ color.b = color.r ∧
    color.a = 255

namespace Rgba

theorem toNat_inkLevel {v : Nat} (hv : v ≤ 100) :
    (inkLevel v).toNat = (100 - v) * 255 / 100 := by
  refine UInt8.toNat_ofNat_of_lt' ?_
  show (100 - v) * 255 / 100 < 256
  omega

theorem isInk_ofInk (ink : Int64) : (ofInk ink).IsInk := by
  obtain ⟨v, hv, hcolor⟩ := ofInk_eq_gray ink
  rw [hcolor]
  exact ⟨v, hv, toNat_inkLevel hv, rfl, rfl, rfl⟩

theorem isInk_white : white.IsInk := ofInk_zero ▸ isInk_ofInk 0

theorem isInk_black : black.IsInk := ofInk_hundred ▸ isInk_ofInk 100

end Rgba

/-- Whether a pen in ink stays in ink, and leaves a canvas in inks if it has found one. -/
def KeepsInk (m m' : Machine) : Prop :=
  m.pen.IsInk → m'.pen.IsInk ∧ (m.canvas.Only Rgba.IsInk → m'.canvas.Only Rgba.IsInk)

instance : Chained KeepsInk where
  refl _ hpen := ⟨hpen, id⟩
  trans h h' hpen := by
    obtain ⟨hpen₁, hcanvas⟩ := h hpen
    obtain ⟨hpen', hcanvas'⟩ := h' hpen₁
    exact ⟨hpen', hcanvas' ∘ hcanvas⟩

instance : Stable KeepsInk :=
  .of_picture
    (fun hcanvas hpen _ h => by
      rw [hcanvas, hpen]
      exact ⟨h, id⟩)
    (fun _ ink _ => ⟨Rgba.isInk_ofInk ink, id⟩)
    (fun ink => .draw fun _ _ hpen => ⟨hpen, fun _ => .fill (Rgba.isInk_ofInk ink) _⟩)
    (fun _ _ => .draw fun _ _ hpen => ⟨hpen, fun hc => hc.paint hpen _⟩)
    (fun _ ink => .draw fun _ _ hpen => ⟨hpen, fun hc => hc.set (Rgba.isInk_ofInk ink) _⟩)

/-- Whatever the canvas was like before, a program leaves it in inks. -/
theorem only_ink_of_program {opener : Opener} {depth : Nat} {library : Library} {program : Program}
    {m m' : Machine} {u : Unit} (hpen : m.pen.IsInk)
    (h : program.exec (execAt opener depth) library m = some (u, m')) :
    m'.canvas.Only Rgba.IsInk := by
  have hrun := fun body => Stable.execAt (R := KeepsInk) opener depth body
  obtain ⟨_, m₁, h₁, h⟩ := bind_eq_some_iff.1 h
  obtain ⟨_, m₂, h₂, h⟩ := bind_eq_some_iff.1 h
  have hpen₁ : m₁.pen.IsInk := (Stable.library hrun library h₁ hpen).1
  have hpen₂ : m₂.pen.IsInk := (Stable.whitePaper (R := KeepsInk) h₂ hpen₁).1
  have hwhite : m₂.canvas.Only Rgba.IsInk := by
    have hkeeps : Keeps (fun _ m => m.canvas.Only Rgba.IsInk) (draw fun c _ => c.fill .white) :=
      .draw fun _ _ => .fill Rgba.isInk_white _
    exact hkeeps h₂
  exact (hrun program h hpen₂).2 hwhite

/-! ## Outcomes -/

/-- Whether a text is that of a program. -/
def Parses (name text : String) : Prop := ∃ program, parse? name text = .ok program

/-- Whether bytes that were to be read could be, and are those of a program. -/
def Reads (name : String) (source : Except FileError (List UInt8)) : Prop :=
  ∃ bytes, source = .ok bytes ∧ Parses name (Text.decode bytes)

/-- What an outcome shows, with edges of `n` pixels, of a program that was executed or of a source
that was none. -/
structure Outcome.IsPicture (n : Nat) (executed : Prop) (o : Outcome) : Prop where
  square : o.canvas.IsSquare n
  size : o.canvas.pixels.size = n * n
  frames : ∀ f ∈ o.frames, f.IsSquare n
  blank : ¬ executed → o.faults.size = 1 ∧ o.frames = #[] ∧ o.canvas.Only (· = .transparent)
  inked : executed → o.canvas.Only Rgba.IsInk

theorem isPicture_unexecuted (settings : Settings) (fault : Fault) {executed : Prop}
    (h : ¬ executed) : (Outcome.unexecuted settings fault).IsPicture settings.edge executed := by
  let canvas := Canvas.blank settings.length.toNat settings.length.toNat
  have hbare : canvas.Only (· = .transparent) := .plain (P := (· = .transparent)) rfl _ _
  have hsquare := Canvas.IsSquare.inBlocks (c := canvas) ⟨rfl, rfl⟩ settings.scale.toNat
  exact ⟨hsquare, hsquare.size, fun f hf => absurd hf (Array.not_mem_empty f),
    fun _ => ⟨rfl, rfl, hbare.inBlocks settings.scale.toNat⟩, (absurd · h)⟩

theorem isPicture_of_program {settings : Settings} {depth : Nat} {name : String}
    {program : Program} {o : Outcome} {executed : Prop} (hexecuted : executed)
    (h : program.run? settings depth name = some o) :
    settings.Fits ∧ o.IsPicture settings.edge executed := by
  obtain ⟨hfits, m, hm, rfl⟩ := run?_program_eq_some_iff.1 h
  have hsquared := squared_of_program hm
  have hinked : m.canvas.Only Rgba.IsInk := only_ink_of_program Rgba.isInk_black hm
  have hsquare := hsquared.canvas.inBlocks settings.scale.toNat
  have hframes := hsquared.frames
  rw [Nat.max_eq_left (Nat.le_max_right _ 1)] at hframes
  exact ⟨hfits, hsquare, hsquare.size, hframes, (absurd hexecuted ·),
    fun _ => hinked.inBlocks settings.scale.toNat⟩

theorem isPicture_runText? {settings : Settings} {depth : Nat} {name text : String} {o : Outcome}
    (h : runText? settings depth name text = some o) :
    settings.Fits ∧ o.IsPicture settings.edge (Parses name text) := by
  cases hparse : parse? name text with
  | error place =>
    rw [runText?, hparse] at h
    obtain ⟨hfits, rfl⟩ := unexecuted?_eq_some_iff.1 h
    refine ⟨hfits, isPicture_unexecuted settings _ ?_⟩
    rintro ⟨program, hprogram⟩
    rw [hparse] at hprogram
    cases hprogram
  | ok program =>
    rw [runText?, hparse] at h
    exact isPicture_of_program ⟨program, hparse⟩ h

theorem not_reads_error (name : String) (cause : FileError) : ¬ Reads name (.error cause) := by
  rintro ⟨bytes, hbytes, -⟩
  cases hbytes

theorem reads_ok (name : String) (bytes : List UInt8) :
    Reads name (.ok bytes) = Parses name (Text.decode bytes) := by
  simp [Reads]

/-- A source that is none of a program has an outcome at any depth, if its picture can be laid
out. -/
theorem isSome_runText?_iff (settings : Settings) (depth : Nat) {name text : String}
    (h : ¬ Parses name text) : (runText? settings depth name text).isSome ↔ settings.Fits := by
  cases hparse : parse? name text with
  | error place =>
    rw [runText?, hparse]
    simp [Outcome.unexecuted?_eq]
  | ok program => exact absurd ⟨program, hparse⟩ h

/-- A recording at scale 2, with a library that draws. -/
def hatchingSettings : Settings :=
  { length := 3, scale := 2, recording := true, library := [⟨"hatch", "Pen 40\nLine 0 0 2 2"⟩] }

/-- More ink than there is, a line off the canvas, and less ink than none. -/
def hatchingText : String := "Pen 999 * 999\nLine 0 0 9 9\nSet [0 0] 0 - 7"

end DrawLang
