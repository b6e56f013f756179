import DrawLang.Proofs.Moments
import DrawLang.Proofs.Palette

/-!
# Recorded animations

Whatever changes the canvas captures it at once, so the last frame is of the canvas as it is, and
frame `i` is of the canvas as it was when something was drawn and `i` frames had been kept. Every
color on a canvas is that of some ink, or it is transparent as in the beginning, and there are fewer
of these than a palette holds; so every frame shows the canvas that was captured for it.

* `Inked`: the canvas and the pen of a state are in inks.
* `Continues`: how the recording goes on from one state to another.
* `Chronicled`: every frame was captured at a moment of the run at which something was drawn.
* `animation_ends_on_picture`: what the frames of a run show.
-/

namespace DrawLang

/-! ## Inks -/

/-- The color of the bare canvas, and those of the inks. -/
def inkColors : List Rgba :=
  .transparent :: (List.range 101).map fun ink => .gray (Rgba.inkLevel ink)

theorem ofInk_mem_inkColors (ink : Int64) : .ofInk ink ∈ inkColors := by
  obtain ⟨v, hv, hcolor⟩ := Rgba.ofInk_eq_gray ink
  rw [hcolor]
  exact List.mem_cons_of_mem _ (List.mem_map.2 ⟨v, List.mem_range.2 (by omega), rfl⟩)

def Canvas.InInks (c : Canvas) : Prop := ∀ color ∈ c.pixels, color ∈ inkColors

namespace Canvas.InInks

theorem inBlocks {c : Canvas} (hc : c.InInks) (n : Nat) : (c.inBlocks n).InInks :=
  Only.inBlocks hc n

/-- There are no more colors on a canvas in inks than a palette holds. -/
theorem few {c : Canvas} (hc : c.InInks) :
    c.pixels.toList.eraseDups.length ≤ Frame.maxPalette := by
  have hsubset : ∀ color ∈ c.pixels.toList, color ∈ inkColors :=
    fun color hcolor => hc color (Array.mem_toList_iff.1 hcolor)
  have hfew : inkColors.length ≤ Frame.maxPalette := by decide
  exact Nat.le_trans (length_eraseDups_le hsubset) hfew

end Canvas.InInks

/-- Whether the canvas and the pen are in inks. -/
structure Inked (m : Machine) : Prop where
  canvas : m.canvas.InInks
  pen : m.pen ∈ inkColors

def KeepsInks (m m' : Machine) : Prop := Inked m → Inked m'

instance : Chained KeepsInks where
  refl _ := id
  trans h h' := h' ∘ h

instance : Stable KeepsInks :=
  .of_picture (fun hcanvas hpen _ hm => ⟨hcanvas ▸ hm.canvas, hpen ▸ hm.pen⟩)
    (fun _ ink hm => ⟨hm.canvas, ofInk_mem_inkColors ink⟩)
    (fun ink => .draw fun _ _ hm => ⟨Canvas.Only.fill (ofInk_mem_inkColors ink) _, hm.pen⟩)
    (fun _ _ => .draw fun _ _ hm => ⟨Canvas.Only.paint hm.canvas hm.pen _, hm.pen⟩)
    (fun _ ink => .draw fun _ _ hm =>
      ⟨Canvas.Only.set hm.canvas (ofInk_mem_inkColors ink) _, hm.pen⟩)

theorem inked_start (settings : Settings) (name : String) (program : Program) :
    Inked (settings.start name program) :=
  ⟨Canvas.Only.plain (List.mem_cons_self ..) _ _, (by decide : Rgba.black ∈ inkColors)⟩

/-! ## Recordings that keep all frames -/

/-- How a recording goes on: in the same manner, with all frames that it has. -/
structure Continues (m m' : Machine) : Prop where
  enabled : m'.recorder.enabled = m.recorder.enabled
  limit : m'.recorder.limit = m.recorder.limit
  scale : m'.recorder.scale = m.recorder.scale
  frames : m.recorder.frames.toList <+: m'.recorder.frames.toList

theorem frames_prefix_capture (r : Recorder) (c : Canvas) :
    r.frames.toList <+: (r.capture c).frames.toList := by
  unfold Recorder.capture
  split
  · exact List.prefix_rfl
  · split
    · exact List.prefix_rfl
    · rw [Array.toList_push]
      exact List.prefix_append _ _

theorem continues_capture (m : Machine) (c : Canvas) (events : Array Event) :
    Continues m { m with canvas := c, recorder := m.recorder.capture c, events } :=
  ⟨Recorder.enabled_capture _ _, Recorder.limit_capture _ _, Recorder.scale_capture _ _,
    frames_prefix_capture _ _⟩

instance : Chained Continues where
  refl _ := ⟨rfl, rfl, rfl, List.prefix_rfl⟩
  trans h h' := ⟨h'.enabled.trans h.enabled, h'.limit.trans h.limit, h'.scale.trans h.scale,
    h.frames.trans h'.frames⟩

instance : Stable Continues :=
  .of_picture
    (fun _ _ hrecorder => by constructor <;> simp only [hrecorder, List.prefix_rfl])
    (fun _ _ => ⟨rfl, rfl, rfl, List.prefix_rfl⟩)
    (fun _ => .draw fun _ _ => continues_capture _ _ _)
    (fun _ _ => .draw fun _ _ => continues_capture _ _ _)
    (fun _ _ => .draw fun _ _ => continues_capture _ _ _)

/-- Whether a recorder keeps a frame of every capture. -/
structure Recorder.KeepsAll (r : Recorder) : Prop where
  enabled : r.enabled = true
  limit : r.limit = 0

theorem Recorder.KeepsAll.capture {r : Recorder} (h : r.KeepsAll) (c : Canvas) :
    r.capture c = { r with frames := r.frames.push (r.frame c) } :=
  Recorder.capture_of_room h.enabled (by simp [Recorder.isFull, h.limit]) c

theorem Continues.keepsAll {m m' : Machine} (h : Continues m m') (hm : m.recorder.KeepsAll) :
    m'.recorder.KeepsAll :=
  ⟨h.enabled.trans hm.enabled, h.limit.trans hm.limit⟩

/-- After something was drawn, the canvas that has come about is in the last frame. -/
theorem frames_of_draw {change : Canvas → Rgba → Canvas} {m m' : Machine} {u : Unit}
    (hm : m.recorder.KeepsAll) (h : draw change m = some (u, m')) :
    m'.recorder = { m.recorder with
      frames := m.recorder.frames.push (m.recorder.frame m'.canvas) } := by
  obtain ⟨_, m₁, h₁, h⟩ := bind_eq_some_iff.1 h
  obtain rfl := modify_eq_some_iff.1 h₁
  obtain rfl := modify_eq_some_iff.1 h
  exact hm.capture _

/-! ## Where frames come from -/

/-- A frame as it was captured at a moment of a run: something is drawn there, which leads to the
given state; the frames kept by then are those up to that one, and it is of the canvas as it is. -/
structure CapturedAt (opener : Opener) (frames : List Frame) (i : Nat) (M : Moment)
    (m : Machine) : Prop where
  draws : M.DrawsTo opener m
  frames_eq : m.recorder.frames.toList = frames.take (i + 1)
  frame_eq : frames[i]? = some (m.recorder.frame m.canvas)

/-- Whether all frames of a state were captured at moments that follow from a given one, and the
last of them is of the canvas as it is. -/
structure Chronicled (opener : Opener) (M₀ : Moment) (m : Machine) : Prop where
  keepsAll : m.recorder.KeepsAll
  captured : ∀ i < m.recorder.frames.size, ∃ M m', LeadsTo opener M₀ M ∧
    CapturedAt opener m.recorder.frames.toList i M m'
  last : ∀ f, m.recorder.frames.back? = some f → f = m.recorder.frame m.canvas

namespace Chronicled

variable {opener : Opener} {M₀ : Moment} {m m' : Machine}

/-- Steps that leave the canvas and the recorder alone. -/
theorem still (hm : Chronicled opener M₀ m) (hcanvas : m'.canvas = m.canvas := by rfl)
    (hrecorder : m'.recorder = m.recorder := by rfl) : Chronicled opener M₀ m' := by
  obtain ⟨hall, hcaptured, hlast⟩ := hm
  rw [← hrecorder] at hall hcaptured hlast
  rw [← hcanvas] at hlast
  exact ⟨hall, hcaptured, hlast⟩

theorem draw (hm : Chronicled opener M₀ m) {M : Moment} {change : Canvas → Rgba → Canvas}
    (hM : LeadsTo opener M₀ M) (hdraw : draw change m = some ((), m'))
    (hdraws : M.DrawsTo opener m') : Chronicled opener M₀ m' := by
  have hrecorder := frames_of_draw hm.keepsAll hdraw
  have hframes : m'.recorder.frames.toList =
      m.recorder.frames.toList ++ [m'.recorder.frame m'.canvas] := by
    rw [hrecorder, Array.toList_push]
    rfl
  refine ⟨?_, fun i hi => ?_, fun f hf => ?_⟩
  · rw [hrecorder]
    exact ⟨hm.keepsAll.enabled, hm.keepsAll.limit⟩
  · rw [← Array.length_toList, hframes, List.length_append, List.length_singleton] at hi
    rcases Nat.lt_succ_iff_lt_or_eq.1 hi with hi | rfl
    · -- an earlier frame stays where it is, and so does what was kept before it
      obtain ⟨N, m₁, hN, hcaptured⟩ := hm.captured i hi
      refine ⟨N, m₁, hN, hcaptured.draws, ?_, ?_⟩
      · rw [hframes, List.take_append_of_le_length (Nat.succ_le_of_lt hi)]
        exact hcaptured.frames_eq
      · rw [hframes, List.getElem?_append_left hi]
        exact hcaptured.frame_eq
    · refine ⟨M, m', hM, hdraws, ?_, ?_⟩
      · rw [List.take_of_length_le (by simp [hframes])]
      · rw [hframes, List.getElem?_concat_length]
  · rw [← Array.getLast?_toList, hframes, List.getLast?_concat] at hf
    exact (Option.some.inj hf).symm

end Chronicled

/-- Along the moments of a run, every frame is captured where something is drawn. -/
theorem chronicled_invariant {opener : Opener} {M₀ : Moment} :
    Invariant opener (fun M => LeadsTo opener M₀ M ∧ Chronicled opener M₀ M.machine)
      (Chronicled opener M₀) where
  holds hM := hM.2
  leads hM h hN := ⟨hM.1.tail h, hN⟩
  report _ _ hm := hm.still
  draw hM hm hdraw hdraws := hm.draw hM.1 hdraw hdraws
  define hM := hM.2.still
  bindValue hm _ _ := hm.still
  tell hm _ := hm.still
  usePen hm _ := hm.still
  settle hm _ := hm.still
  enter hm _ _ _ := hm.still
  leave hm _ := hm.still

/-! ## Runs -/

section Runs

variable {settings : Settings} {depth : Nat} {name : String} {program : Program} {m : Machine}

/-- A frame is made of the canvas at the scale of the picture. -/
theorem frame_of_continues (h : Continues (settings.start name program) m) :
    m.recorder.frame m.canvas = .ofCanvas (m.canvas.inBlocks settings.scale.toNat) := by
  have hscale : m.recorder.scale = max settings.scale.toNat 1 := h.scale
  rw [Recorder.frame, hscale, Canvas.inBlocks_max]

theorem chronicled_of_program (hall : (settings.start name program).recorder.KeepsAll)
    (h : program.exec (execAt settings.opener depth) settings.library
      (settings.start name program) = some ((), m)) :
    Chronicled settings.opener
      ⟨depth, [], .sources settings.library program, settings.start name program⟩ m :=
  chronicled_invariant.program settings.library
    ⟨.refl, hall, fun i hi => absurd hi i.not_lt_zero, nofun⟩ h

/-- A run captures the white paper at least. -/
theorem frames_ne_nil_of_program {opener : Opener} {library : Library} {m' : Machine}
    (hm : m.recorder.KeepsAll)
    (h : program.exec (execAt opener depth) library m = some ((), m')) :
    m'.recorder.frames.toList ≠ [] := by
  have hrun := fun body => Stable.execAt (R := Continues) opener depth body
  obtain ⟨_, m₁, h₁, h⟩ := bind_eq_some_iff.1 h
  obtain ⟨_, m₂, h₂, h⟩ := bind_eq_some_iff.1 h
  have hall := (Stable.library hrun library h₁).keepsAll hm
  have hpaper : m₂.recorder.frames.toList ≠ [] := by
    rw [frames_of_draw hall h₂, Array.toList_push]
    exact List.concat_ne_nil _ _
  exact fun hnil => hpaper (List.prefix_nil.1 (hnil ▸ (hrun program h).frames))

theorem inked_of_program (h : program.exec (execAt settings.opener depth) settings.library
    (settings.start name program) = some ((), m)) : Inked m :=
  Stable.program (R := KeepsInks) (Stable.execAt settings.opener depth) _ program h
    (inked_start settings name program)

/-- A recording that keeps all frames ends on the picture. -/
theorem back?_frames_of_program (hall : (settings.start name program).recorder.KeepsAll)
    (h : program.exec (execAt settings.opener depth) settings.library
      (settings.start name program) = some ((), m)) :
    m.recorder.frames.back? = some (.ofCanvas (m.canvas.inBlocks settings.scale.toNat)) := by
  cases hback : m.recorder.frames.back? with
  | none =>
    have hnil := Array.toList_eq_nil_iff.2 (Array.back?_eq_none_iff.1 hback)
    exact absurd hnil (frames_ne_nil_of_program hall h)
  | some f =>
    have hcontinues : Continues (settings.start name program) m :=
      Stable.program (Stable.execAt settings.opener depth) _ program h
    rw [(chronicled_of_program hall h).last f hback, frame_of_continues hcontinues]

/-- Where something is drawn in a run that ends, a frame is captured. -/
theorem exists_capturedAt {M : Moment} {m' : Machine}
    (hall : (settings.start name program).recorder.KeepsAll)
    (hrun : program.exec (execAt settings.opener depth) settings.library
      (settings.start name program) = some ((), m'))
    (hM : Reached settings depth name program M) (hdraws : M.DrawsTo settings.opener m) :
    ∃ i < m'.recorder.frames.size,
      CapturedAt settings.opener m'.recorder.frames.toList i M m := by
  obtain ⟨m₂, hends, hrest⟩ := Stable.endsIn_of_leadsTo (R := Continues) hM hrun
  have hfuture : Continues m m' :=
    Chained.trans (Stable.of_drawsTo_of_endsIn (R := Continues) hdraws hends) hrest
  obtain ⟨m₁, change, hpast, hdraw⟩ := Stable.exists_draw_of_drawsTo (R := Continues) hdraws
  have hall₁ := hpast.keepsAll ((Stable.leadsTo (R := Continues) hM).keepsAll hall)
  have hrecorder := frames_of_draw hall₁ hdraw
  have hframes : m.recorder.frames.toList =
      m₁.recorder.frames.toList ++ [m.recorder.frame m.canvas] := by
    rw [hrecorder, Array.toList_push]
    rfl
  have hsize : m.recorder.frames.toList.length = m₁.recorder.frames.size + 1 := by
    simp [hframes]
  refine ⟨m₁.recorder.frames.size, ?_, hdraws, ?_, ?_⟩
  · have hle := hfuture.frames.length_le
    rw [hsize] at hle
    exact hle
  · rw [← hsize]
    exact List.prefix_iff_eq_take.1 hfuture.frames
  · obtain ⟨rest, hrest⟩ := hfuture.frames
    rw [← hrest, hframes]
    simp

end Runs

/-- A frame of an outcome as it was captured at a moment of the run: it shows the canvas as it was
then, at the scale of the picture, and has all colors of it in its palette. -/
structure Outcome.ShownAt (o : Outcome) (settings : Settings) (i : Nat) (M : Moment)
    (m : Machine) : Prop extends CapturedAt settings.opener o.frames.toList i M m where
  shows : ∃ f picture, o.frames[i]? = some f ∧
    m.canvas.scaled? .checked settings.scale.toNat = some picture ∧ f.toCanvas = picture ∧
    ∀ color ∈ picture.pixels, color ∈ f.palette

theorem shownAt_of_capturedAt {settings : Settings} {depth : Nat} {name : String}
    {program : Program} {o : Outcome} {i : Nat} {M : Moment} {m : Machine} (hfits : settings.Fits)
    (hM : Reached settings depth name program M)
    (h : CapturedAt settings.opener o.frames.toList i M m) : o.ShownAt settings i M m := by
  have hinked : Inked m := Stable.drawsTo (R := KeepsInks) h.draws
    (Stable.leadsTo (R := KeepsInks) hM (inked_start settings name program))
  have hsize : SameSize (settings.start name program) m :=
    Chained.trans (Stable.leadsTo hM) (Stable.drawsTo h.draws)
  have hcontinues : Continues (settings.start name program) m :=
    Chained.trans (Stable.leadsTo hM) (Stable.drawsTo h.draws)
  have hpicture := scaled?_of_length hsize.1 hsize.2 hfits.canvas
  rw [if_pos hfits] at hpicture
  have hfew := (hinked.canvas.inBlocks settings.scale.toNat).few
  refine ⟨h, _, _, ?_, hpicture, Frame.toCanvas_of_few hfew,
    fun color hcolor => Frame.mem_palette_of_few hfew hcolor⟩
  rw [← frame_of_continues hcontinues, ← Array.getElem?_toList]
  exact h.frame_eq

/-- A recording at scale 2, with a library that draws before the paper is white. -/
def plottingSettings : Settings :=
  { length := 2, scale := 2, recording := true, library := [⟨"dot", "Set [1 0] 50"⟩] }

/-- Two points are set by a number that is called in a loop. -/
def plottingText : String :=
  "Number Ink \x7b Value 100 \x7d\nRepeat I 0 1 \x7b Set [I I] <Ink> \x7d"

end DrawLang
