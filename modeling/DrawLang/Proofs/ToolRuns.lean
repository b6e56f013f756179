import DrawLang.Image.Files
import DrawLang.Proofs.Animation
import DrawLang.Proofs.Files
import DrawLang.Proofs.ImageFiles
import DrawLang.Proofs.Pictures
import DrawLang.Proofs.Preamble
import DrawLang.Proofs.Recording
import DrawLang.Tool

/-!
# What the tool writes

The tool writes files only after a run without faults. If the program cannot be opened, or its run
lists a fault, all that is left is a report. Otherwise the picture goes to one file, and the recorded
frames, up to the limit, to the other one. The library of the tool draws nothing, so the first frame
is of the white paper: no frame shows the transparent canvas from before it, and all of them are as
large as the picture and in inks.

Files are kept by any system, and images are encoded by anything that loses no pixels of opaque
grays. That nothing goes wrong there is said of the steps of writing, one after the other.

* `printed_of_program`: whatever a run has captured is in inks.
* `Options.WritesAll`: all files are encoded and written without failure.
* `run_write`: then the tool goes through with it.
* `Options.Answers`: what the tool makes of an outcome.
* `tool_writes_clean_runs`: what the tool does to files.
-/

namespace DrawLang

/-! ## Inks from the white paper on -/

theorem Rgba.IsInk.exists_eq_gray {color : Rgba} (h : color.IsInk) :
    ∃ v ≤ 100, color = .gray (inkLevel v) := by
  obtain ⟨v, hv, hr, hg, hb, ha⟩ := h
  have hlevel : color.r = inkLevel v := UInt8.toNat_inj.1 (hr.trans (toNat_inkLevel hv).symm)
  rw [hlevel] at hg hb
  refine ⟨v, hv, ?_⟩
  calc color = ⟨color.r, color.g, color.b, color.a⟩ := rfl
    _ = .gray (inkLevel v) := by rw [hlevel, hg, hb, ha]; rfl

theorem Rgba.IsInk.isGray {color : Rgba} (h : color.IsInk) : color.IsGray := by
  obtain ⟨v, -, hcolor⟩ := h.exists_eq_gray
  exact ⟨_, hcolor⟩

theorem Canvas.Only.isGray {c : Canvas} (hc : c.Only Rgba.IsInk) : c.Only Rgba.IsGray :=
  fun color hcolor => (hc color hcolor).isGray

theorem Canvas.Only.inInks {c : Canvas} (hc : c.Only Rgba.IsInk) : c.InInks := by
  intro color hcolor
  obtain ⟨v, hv, rfl⟩ := (hc color hcolor).exists_eq_gray
  exact List.mem_cons_of_mem _ (List.mem_map.2 ⟨v, List.mem_range.2 (by omega), rfl⟩)

/-- A frame that was made of a canvas in inks. -/
def Frame.IsPrint (f : Frame) : Prop := ∃ c : Canvas, c.Only Rgba.IsInk ∧ f = .ofCanvas c

namespace Frame.IsPrint

variable {f : Frame}

/-- The frame of a canvas in inks shows it, and is the frame of what it shows. -/
theorem exists_toCanvas_eq (h : f.IsPrint) : ∃ c : Canvas, c.Only Rgba.IsInk ∧
    c.pixels.toList.eraseDups.length ≤ inkColors.length ∧ f.toCanvas = c ∧ f = .ofCanvas c := by
  obtain ⟨c, hc, rfl⟩ := h
  have hfew := length_eraseDups_le fun color hcolor =>
    hc.inInks color (Array.mem_toList_iff.1 hcolor)
  exact ⟨c, hc, hfew, Frame.toCanvas_of_few hc.inInks.few, rfl⟩

theorem only_toCanvas (h : f.IsPrint) : f.toCanvas.Only Rgba.IsInk := by
  obtain ⟨c, hc, -, hcanvas, -⟩ := h.exists_toCanvas_eq
  rw [hcanvas]
  exact hc

end Frame.IsPrint

/-- Whether the pen is in ink, and the canvas and all frames are in inks. -/
structure Printed (m : Machine) : Prop where
  pen : m.pen.IsInk
  canvas : m.canvas.Only Rgba.IsInk
  frames : ∀ f ∈ m.recorder.frames, f.IsPrint

/-- Whether a state that comes about from a printed state is printed. -/
def KeepsPrint (m m' : Machine) : Prop := Printed m → Printed m'

instance : Chained KeepsPrint where
  refl _ := id
  trans h h' := h' ∘ h

theorem printed_capture {m : Machine} {c : Canvas} (hpen : m.pen.IsInk)
    (hframes : ∀ f ∈ m.recorder.frames, f.IsPrint) (hc : c.Only Rgba.IsInk)
    (events : Array Event) :
    Printed { m with canvas := c, recorder := m.recorder.capture c, events } :=
  ⟨hpen, hc, Recorder.forall_frames_capture hframes ⟨_, hc.inBlocks _, rfl⟩⟩

theorem draw_keepsPrint {change : Canvas → Rgba → Canvas}
    (hchange : ∀ c pen, c.Only Rgba.IsInk → pen.IsInk → (change c pen).Only Rgba.IsInk) :
    Keeps KeepsPrint (draw change) :=
  .draw fun m events hm =>
    printed_capture hm.pen hm.frames (hchange m.canvas m.pen hm.canvas hm.pen) events

instance : Stable KeepsPrint :=
  .of_picture
    (fun hcanvas hpen hrecorder hm =>
      ⟨hpen ▸ hm.pen, hcanvas ▸ hm.canvas, hrecorder ▸ hm.frames⟩)
    (fun _ ink hm => ⟨Rgba.isInk_ofInk ink, hm.canvas, hm.frames⟩)
    (fun ink => draw_keepsPrint fun _ _ _ _ => .fill (Rgba.isInk_ofInk ink) _)
    (fun _ _ => draw_keepsPrint fun _ _ hc hpen => hc.paint hpen _)
    (fun _ ink => draw_keepsPrint fun _ _ hc _ => hc.set (Rgba.isInk_ofInk ink) _)

/-- After a library of definitions, whatever a run draws and captures is in inks. -/
theorem printed_of_program {settings : Settings} {depth : Nat} {name : String} {program : Program}
    {names : List String} {m : Machine} (hlibrary : settings.library.Defines names)
    (h : program.exec (execAt settings.opener depth) settings.library
      (settings.start name program) = some ((), m)) : Printed m := by
  obtain ⟨_, m₁, h₁, h⟩ := bind_eq_some_iff.1 h
  obtain ⟨_, m₂, h₂, h⟩ := bind_eq_some_iff.1 h
  cases depth with
  | zero => cases h
  | succ n =>
    obtain ⟨m₁', hm₁', hbeside⟩ : ∃ m₁', settings.library.exec (execAt settings.opener (n + 1))
        (settings.start name program) = some ((), m₁') ∧
          Beside names m₁' (settings.start name program) :=
      library_beside hlibrary n (.refl names _) rfl
    obtain ⟨-, rfl⟩ := Prod.mk.inj (Option.some.inj (h₁.symm.trans hm₁'))
    have hpen : m₁.pen.IsInk := hbeside.pen ▸ Rgba.isInk_black
    have hnone : ∀ f ∈ m₁.recorder.frames, f.IsPrint := by
      rw [hbeside.recorder]
      exact fun f hf => absurd hf (Array.not_mem_empty f)
    have hpaper : Keeps (fun m m' => m.pen.IsInk →
        (∀ f ∈ m.recorder.frames, f.IsPrint) → Printed m') (draw fun c _ => c.fill .white) :=
      .draw fun m events hpen hframes =>
        printed_capture hpen hframes (.fill Rgba.isInk_white _) events
    exact Stable.execAt (R := KeepsPrint) settings.opener (n + 1) program h
      (hpaper h₂ hpen hnone)

/-! ## What a run shows -/

/-- Whether a picture is as large as the settings say, and in inks. -/
structure Settings.Shows (settings : Settings) (picture : Canvas) : Prop where
  square : picture.IsSquare settings.edge
  inked : picture.Only Rgba.IsInk

namespace Settings.Shows

variable {settings : Settings} {picture : Canvas}

/-- An encoder is given a picture that can be laid out as it is. -/
theorem image?_eq (h : settings.Shows picture) (hfits : settings.Fits) :
    picture.image? = some picture := by
  have hedge : settings.edge < UInt32.size := by
    obtain ⟨-, -, hcount⟩ := hfits
    by_contra hlarge
    have hsquare : UInt32.size * UInt32.size ≤ settings.edge * settings.edge :=
      Nat.mul_le_mul (Nat.le_of_not_lt hlarge) (Nat.le_of_not_lt hlarge)
    simp only [UInt32.size] at hsquare
    omega
  exact Canvas.image?_eq_some (h.square.width ▸ hedge) (h.square.height ▸ hedge)

end Settings.Shows

section Runs

variable {settings : Settings} {depth : Nat} {name : String} {program : Program}
  {names : List String} {m : Machine}

theorem shows_of_program (hlibrary : settings.library.Defines names)
    (h : program.exec (execAt settings.opener depth) settings.library
      (settings.start name program) = some ((), m)) :
    settings.Shows (m.canvas.inBlocks settings.scale.toNat) where
  square := (squared_of_program h).canvas.inBlocks _
  inked := (printed_of_program hlibrary h).canvas.inBlocks _

theorem shows_frames_of_program (hlibrary : settings.library.Defines names)
    (h : program.exec (execAt settings.opener depth) settings.library
      (settings.start name program) = some ((), m)) :
    ∀ f ∈ m.recorder.frames, settings.Shows f.toCanvas := by
  intro f hf
  have hsquare := (squared_of_program h).frames f hf
  rw [Nat.max_eq_left (Nat.le_max_right _ 1)] at hsquare
  exact ⟨⟨hsquare.width, hsquare.height⟩,
    ((printed_of_program hlibrary h).frames f hf).only_toCanvas⟩

/-- A run without faults is that of a program that has been read and parsed. -/
theorem program_of_clean {source : Except FileError (List UInt8)} {outcome : Outcome}
    (h : run? settings depth name source = some outcome) (hclean : outcome.faults = #[]) :
    ∃ bytes program m, source = .ok bytes ∧ parse? name (Text.decode bytes) = .ok program ∧
      settings.Fits ∧ program.exec (execAt settings.opener depth) settings.library
        (settings.start name program) = some ((), m) ∧ outcome = .ofMachine settings m := by
  cases source with
  | error cause =>
    obtain ⟨-, rfl⟩ := unexecuted?_eq_some_iff.1 h
    exact absurd hclean (by simp [Outcome.unexecuted])
  | ok bytes =>
    rw [run?, runText?] at h
    cases hparse : parse? name (Text.decode bytes) with
    | error place =>
      rw [hparse] at h
      obtain ⟨-, rfl⟩ := unexecuted?_eq_some_iff.1 h
      exact absurd hclean (by simp [Outcome.unexecuted])
    | ok program =>
      rw [hparse] at h
      obtain ⟨hfits, m, hm, houtcome⟩ := run?_program_eq_some_iff.1 h
      exact ⟨bytes, program, m, rfl, hparse, hfits, hm, houtcome⟩

end Runs

/-! ## Writing without failure -/

def Frame.slide (f : Frame) : Slide := ⟨f.toCanvas, f.delay * 10⟩

def Outcome.slides (outcome : Outcome) : List Slide := outcome.frames.toList.map Frame.slide

section Writing

variable {σ ι : Type} {fs : FileSystem σ ι} {codec : ImageCodec} {path task : String} {s s' : σ}

/-- After a step, the next one goes on where it has led. -/
theorem bind_of_eq {α β : Type} {x : StateM σ α} {f : α → StateM σ β} {a : α}
    (h : x s = (a, s')) : (x >>= f) s = f a s' := by
  show f (x s).1 (x s).2 = _
  rw [h]

/-- After a step that succeeds, the next one goes on where it has led. -/
theorem run_bind_of_ok {α β : Type} {x : ExceptT String (StateM σ) α}
    {f : α → ExceptT String (StateM σ) β} {a : α} (h : x.run s = (.ok a, s')) :
    (x >>= f).run s = (f a).run s' := by
  show ExceptT.bindCont f (x.run s).1 (x.run s).2 = _
  rw [h]
  rfl

theorem run_attempt {step : StateM σ (Except FileError Unit)} (h : step s = (.ok (), s')) :
    (Files.attempt task step).run s = (.ok (), s') := by
  unfold Files.attempt
  exact bind_of_eq h

theorem run_put {encoding : Encoding} (hmade : encoding.failure = none)
    (h : fs.append path encoding.bytes s = (.ok (), s')) :
    (fs.put task path encoding).run s = (.ok (), s') := by
  refine (run_bind_of_ok (run_attempt h)).trans ?_
  rw [hmade]
  rfl

theorem run_picture {c : Canvas} (h : c.image? = some c) :
    (Files.picture c : ExceptT String (StateM σ) Canvas).run s = (.ok c, s) := by
  rw [Files.picture, h]
  rfl

/-- What comes of a step can be looked at. -/
theorem run_lift {α : Type} {x : StateM σ α} {a : α} (h : x s = (a, s')) :
    (ExceptT.lift x : ExceptT String (StateM σ) α).run s = (.ok a, s') := by
  show (Except.ok (x s).1, (x s).2) = _
  rw [h]

theorem run_closing {result : Except String Unit} {closed : Bool}
    (h : fs.close path s = (closed, s')) :
    (fs.closing path none result).run s = (result, s') := by
  show (result, (fs.close path s).2) = _
  rw [h]

theorem run_closing_append {result : Except String Unit} {closed : Bool} {s₁ : σ}
    {bytes : List UInt8} (happend : fs.append path bytes s = (.ok (), s₁))
    (h : fs.close path s₁ = (closed, s')) :
    (fs.closing path (some bytes) result).run s = (result, s') := by
  show (result, (fs.close path (fs.append path bytes s).2).2) = _
  rw [happend, h]

theorem run_writePng {c : Canvas} (himage : c.image? = some c)
    (hmade : (codec.png c).failure = none)
    (h : fs.Writes path [(codec.png c).bytes] s s') :
    (fs.writePng codec c path).run s = (.ok (), s') := by
  obtain ⟨s₁, s₂, hcreate, ⟨s₂', happend, rfl⟩, hclose⟩ := h
  have hput : (fs.put ("cannot write " ++ path ++ ": ") path (codec.png c)).run s₁ =
      (.ok (), s₂) := run_put hmade happend
  unfold Files.writePng
  rw [run_bind_of_ok (run_picture himage), run_bind_of_ok (run_attempt hcreate),
    run_bind_of_ok (run_lift hput)]
  exact run_closing hclose

theorem run_writeFrames {before : List Slide} {frames : List Frame}
    (himage : ∀ f ∈ frames, f.toCanvas.image? = some f.toCanvas)
    (hmade : ∀ encoding ∈ codec.gifImages before (frames.map Frame.slide), encoding.failure = none)
    (h : fs.Appends path
      ((codec.gifImages before (frames.map Frame.slide)).map Encoding.bytes) s s') :
    fs.writeFrames codec path before frames s =
      ((before ++ frames.map Frame.slide, .ok ()), s') := by
  induction frames generalizing before s with
  | nil =>
    obtain rfl := h
    rw [Files.writeFrames, List.map_nil, List.append_nil]
    rfl
  | cons f frames ih =>
    obtain ⟨hf, hframes⟩ := List.forall_mem_cons.1 himage
    obtain ⟨hfirst, hrest⟩ := List.forall_mem_cons.1 hmade
    obtain ⟨s₁, happend, h⟩ := h
    have hput : (fs.put ("cannot encode frame " ++ toString before.length ++ ": ") path
        (codec.gifImage before f.slide)).run s = (.ok (), s₁) := run_put hfirst happend
    have hlast := ih hframes hrest h
    rw [List.append_assoc] at hlast
    rw [Files.writeFrames, bind_of_eq (run_picture hf)]
    exact (bind_of_eq hput).trans hlast

/-- An animation that is encoded and written without failure. -/
theorem run_writeGif {frames : Array Frame}
    (himage : ∀ f ∈ frames, f.toCanvas.image? = some f.toCanvas)
    (hmade : ∀ encoding ∈ codec.gif (frames.toList.map Frame.slide), encoding.failure = none)
    (h : fs.Writes path ((codec.gif (frames.toList.map Frame.slide)).map Encoding.bytes) s s') :
    (fs.writeGif codec frames path).run s = (.ok (), s') := by
  obtain ⟨s₁, s₂, hcreate, ⟨s₃, hstart, h⟩, hclose⟩ := h
  obtain ⟨hstart', himages⟩ := List.forall_mem_cons.1 hmade
  rw [List.map_append, FileSystem.appends_append] at h
  obtain ⟨s₄, hframes, s₅, hend, rfl⟩ := h
  have hput : (fs.put "" path codec.gifStart).run s₁ = (.ok (), s₃) := run_put hstart' hstart
  have hmiddle := run_writeFrames (fun f hf => himage f (Array.mem_toList_iff.1 hf))
    (fun encoding hencoding => himages encoding (List.mem_append_left _ hencoding)) hframes
  have hlast : (fs.closing path (some (codec.gifEnd (frames.toList.map Frame.slide)))
      (.ok ())).run s₄ = (.ok (), s') := run_closing_append hend hclose
  unfold Files.writeGif
  rw [run_bind_of_ok (run_attempt hcreate)]
  -- the start and the frames are one step, of which the result is looked at
  refine (run_bind_of_ok (run_lift (a := (frames.toList.map Frame.slide, .ok ())) ?_)).trans hlast
  exact (bind_of_eq hput).trans hmiddle

end Writing

/-- Whether everything that a clean run shows is encoded and written without failure: the picture
first, which leads to the second state, and then the recording, if there is to be one. -/
def Options.WritesAll {σ ι : Type} (o : Options) (fs : FileSystem σ ι) (codec : ImageCodec)
    (outcome : Outcome) (s s₁ s₂ : σ) : Prop :=
  (codec.png outcome.canvas).failure = none ∧
    fs.Writes o.png [(codec.png outcome.canvas).bytes] s s₁ ∧
    match o.gif with
    | none => s₂ = s₁
    | some path => (∀ encoding ∈ codec.gif outcome.slides, encoding.failure = none) ∧
      fs.Writes path ((codec.gif outcome.slides).map Encoding.bytes) s₁ s₂

/-- What the tool does to files that are kept by a system, in a state of it, to a depth of calls and
loads. -/
def FileSystem.tool? {σ ι : Type} (fs : FileSystem σ ι) (codec : ImageCodec) (depth : Nat)
    (o : Options) (s : σ) : Option (Report × σ) :=
  (runTool? fs.toFiles codec depth (fs.read s) o).map fun m => m.run s

/-! ## What the tool does -/

/-- What is read from a source that can be opened. -/
def Delivery.source? : Delivery → Option (Except FileError (List UInt8))
  | .contents bytes => some (.ok bytes)
  | .unopened _ _ => none
  | .unreadable cause => some (.error cause)

/-- Whether a picture is that of the canvas with which the run of what has been read ends, at the
scale of the options. -/
def Options.Draws (o : Options) (read : String → Delivery) (depth : Nat)
    (source : Except FileError (List UInt8)) (picture : Canvas) : Prop :=
  let settings := o.settings read
  ∃ bytes program m, source = .ok bytes ∧ parse? o.input (Text.decode bytes) = .ok program ∧
    program.exec (execAt settings.opener depth) settings.library
      (settings.start o.input program) = some ((), m) ∧
    m.canvas.scaled? .checked o.scale.toNat = some picture

/-- Whether images are those of a recording that has kept all frames: the images of its frames, up to
the limit. There is at least one, all are as large as the picture, and without a limit they end on
it. -/
structure Options.Animates (o : Options) (full : Outcome) (picture : Canvas)
    (images : List Canvas) : Prop where
  nonempty : images ≠ []
  sizes : ∀ image ∈ images, image.width = picture.width ∧ image.height = picture.height
  images_eq : images = (kept true o.frameLimit.toNat full.frames.toList).map Frame.toCanvas
  last : o.frameLimit = 0 → images.getLast? = some picture

/-- What can be read from the files: the picture, unless the recording has taken its place, and the
images of the recording. -/
structure Options.Leaves {σ ι : Type} (o : Options) (fs : FileSystem σ ι) (readers : ImageReaders)
    (full : Outcome) (picture : Canvas) (s : σ) : Prop where
  png : (∀ path ∈ o.gif, fs.file? s o.png ≠ fs.file? s path) →
    ∃ bytes, fs.read s o.png = .contents bytes ∧ readers.png bytes = some picture
  gif : ∀ path ∈ o.gif, ∃ bytes slides, fs.read s path = .contents bytes ∧
    readers.gif bytes = some slides ∧ o.Animates full picture (slides.map Slide.image)

/-- What the tool does when the run of what has been read has an outcome. With faults it leaves all
files as they are, and reports the faults; without, and if all writing succeeds, it reports a
success, and the files show the run as long as the system stores what is written to their paths. -/
structure Options.Answers {σ ι : Type} (o : Options) (fs : FileSystem σ ι) (codec : ImageCodec)
    (readers : ImageReaders) (depth : Nat) (s : σ) (source : Except FileError (List UInt8))
    (outcome : Outcome) (result : Report × σ) : Prop where
  faulty : outcome.faults ≠ #[] →
    result = (⟨1, outcome.faults.toList.map Fault.message⟩, s)
  clean : outcome.faults = #[] → o.Draws (fs.read s) depth source outcome.canvas ∧
    ∃ full, DrawLang.run? ((o.settings (fs.read s)).withRecording true 0) depth o.input source =
        some full ∧
      ∀ s₁ s₂, o.WritesAll fs codec outcome s s₁ s₂ → result = (⟨0, []⟩, s₂) ∧
        (fs.Stores o.png s → (∀ path ∈ o.gif, fs.Stores path s₁) →
          o.Leaves fs readers full outcome.canvas s₂)

theorem defines_of_options (o : Options) (read : String → Delivery) :
    (o.settings read).library.Defines Library.standardNames := by
  unfold Options.settings
  split
  · exact List.forall_mem_nil _
  · exact Library.standard_defines

section Tool

variable {σ ι : Type} {o : Options} {fs : FileSystem σ ι} {codec : ImageCodec}
  {readers : ImageReaders} {depth : Nat} {s s₁ s₂ : σ} {read : String → Delivery}
  {source : Except FileError (List UInt8)} {full outcome : Outcome}

/-- Whether an outcome can be shown in files: encoders are given the canvases as they are, all of
them in inks, and the frames make an animation. -/
structure Options.CanShow (o : Options) (full outcome : Outcome) : Prop where
  image : outcome.canvas.image? = some outcome.canvas
  inked : outcome.canvas.Only Rgba.IsInk
  images : ∀ f ∈ outcome.frames, f.toCanvas.image? = some f.toCanvas
  prints : ∀ f ∈ outcome.frames, f.IsPrint
  animates : ∀ path ∈ o.gif, o.Animates full outcome.canvas (outcome.slides.map Slide.image)

/-- The images of an animation are in grays, and of one size. -/
theorem Options.CanShow.grays (h : o.CanShow full outcome)
    (hanimates : o.Animates full outcome.canvas (outcome.slides.map Slide.image)) :
    ∀ slide ∈ outcome.slides, slide.image.Only Rgba.IsGray ∧
      slide.image.width = outcome.canvas.width ∧ slide.image.height = outcome.canvas.height := by
  intro slide hslide
  have hsize := hanimates.sizes _ (List.mem_map_of_mem hslide)
  obtain ⟨f, hf, rfl⟩ := List.mem_map.1 hslide
  exact ⟨(h.prints f (Array.mem_toList_iff.1 hf)).only_toCanvas.isGray, hsize⟩

/-- The first frames of a recording that keeps all of them make an animation. -/
theorem animates_of_program {settings : Settings} {names : List String} {name : String}
    {program : Program} {m : Machine} (hlibrary : settings.library.Defines names)
    (hkeeps : (settings.start name program).recorder.KeepsAll)
    (hm : program.exec (execAt settings.opener depth) settings.library
      (settings.start name program) = some ((), m)) (o : Options) :
    o.Animates (.ofMachine settings m) (Outcome.ofMachine settings m).canvas
      ((kept true o.frameLimit.toNat m.recorder.frames.toList).map Frame.toCanvas) where
  nonempty := mt List.map_eq_nil_iff.1 (kept_ne_nil _ (frames_ne_nil_of_program hkeeps hm))
  sizes image himage := by
    obtain ⟨f, hf, rfl⟩ := List.mem_map.1 himage
    have hpicture := (shows_of_program hlibrary hm).square
    have hframe := (shows_frames_of_program hlibrary hm f
      (Array.mem_toList_iff.1 (mem_of_mem_kept hf))).square
    exact ⟨hframe.width.trans hpicture.width.symm, hframe.height.trans hpicture.height.symm⟩
  images_eq := rfl
  last hall := by
    have hlimit : o.frameLimit.toNat = 0 := by rw [hall]; rfl
    have hlast := back?_frames_of_program hkeeps hm
    have hinks := (inked_of_program hm).canvas.inBlocks settings.scale.toNat
    rw [kept_of_room (.inl hlimit), List.getLast?_map, Array.getLast?_toList, hlast]
    exact congrArg some (Frame.toCanvas_of_few hinks.few)

/-- If there is to be a recording, the frames of a clean run are the first ones of a run that keeps
all of them, and make an animation. -/
theorem animates_of_recording
    (h : IsRecording o.gif.isSome o.frameLimit.toNat full outcome)
    (hfull : DrawLang.run? ((o.settings read).withRecording true 0) depth o.input source = some full)
    (hclean : outcome.faults = #[]) :
    ∀ path ∈ o.gif, o.Animates full outcome.canvas (outcome.slides.map Slide.image) := by
  intro path hpath
  have hlibrary : ((o.settings read).withRecording true 0).library.Defines
      Library.standardNames := defines_of_options o read
  have hclean' : full.faults = #[] := h.faults.symm.trans hclean
  obtain ⟨_, program, m, -, -, -, hm, rfl⟩ := program_of_clean hfull hclean'
  have hon : o.gif.isSome = true := by
    rw [hpath]
    rfl
  have hkept := h.frames
  rw [hon] at hkept
  have himages : outcome.slides.map Slide.image =
      (kept true o.frameLimit.toNat m.recorder.frames.toList).map Frame.toCanvas := by
    rw [Outcome.slides, hkept, List.map_map]
    rfl
  rw [himages, h.canvas]
  exact animates_of_program hlibrary ⟨rfl, rfl⟩ hm o

/-- A clean run draws a picture, and can be shown in files. -/
theorem canShow_of_clean
    (h : DrawLang.run? (o.settings read) depth o.input source = some outcome)
    (hclean : outcome.faults = #[]) : o.Draws read depth source outcome.canvas ∧
      ∃ full, DrawLang.run? ((o.settings read).withRecording true 0) depth o.input source =
        some full ∧ o.CanShow full outcome := by
  obtain ⟨full, hfull, hrecording⟩ : ∃ full,
      DrawLang.run? ((o.settings read).withRecording true 0) depth o.input source = some full ∧
        IsRecording o.gif.isSome o.frameLimit.toNat full outcome := by
    have hrel := rel_run?_recording (o.settings read) depth o.input source o.gif.isSome
      o.frameLimit.toNat
    rw [show (o.settings read).withRecording o.gif.isSome o.frameLimit.toNat = o.settings read
      from rfl, h] at hrel
    generalize DrawLang.run? ((o.settings read).withRecording true 0) depth o.input source = full?
      at hrel
    cases hrel with
    | some hrecording => exact ⟨_, rfl, hrecording⟩
  have hanimates := animates_of_recording hrecording hfull hclean
  have hlibrary := defines_of_options o read
  have hscale : (o.settings read).scale.toNat = o.scale.toNat := UInt32.toNat_toUInt64 o.scale
  obtain ⟨bytes, program, m, hsource, hparse, hfits, hm, rfl⟩ := program_of_clean h hclean
  have hpicture := shows_of_program hlibrary hm
  have hframes := shows_frames_of_program hlibrary hm
  constructor
  · have hsquare := (squared_of_program hm).canvas
    have hscaled := scaled?_of_length hsquare.width hsquare.height hfits.canvas
    rw [if_pos hfits, hscale] at hscaled
    refine ⟨bytes, program, m, hsource, hparse, hm, hscaled.trans ?_⟩
    rw [← hscale]
    rfl
  · exact ⟨full, hfull, hpicture.image?_eq hfits, hpicture.inked,
      fun f hf => (hframes f hf).image?_eq hfits, (printed_of_program hlibrary hm).frames, hanimates⟩

/-- If all writing succeeds, the tool writes what a run shows. -/
theorem run_write (hshow : o.CanShow full outcome) (h : o.WritesAll fs codec outcome s s₁ s₂) :
    (o.write fs.toFiles codec outcome).run s = (.ok (), s₂) := by
  obtain ⟨hmade, hpng, hgif⟩ := h
  unfold Options.write
  rw [run_bind_of_ok (run_writePng hshow.image hmade hpng)]
  cases hpath : o.gif with
  | none =>
    rw [hpath] at hgif
    obtain rfl := hgif
    rfl
  | some path =>
    rw [hpath] at hgif
    exact run_writeGif hshow.images hgif.1 hgif.2

/-- What has been written can be read again. -/
theorem leaves_of_writesAll (hlossless : codec.Lossless readers) (hshow : o.CanShow full outcome)
    (h : o.WritesAll fs codec outcome s s₁ s₂) (hpng : fs.Stores o.png s)
    (hgif : ∀ path ∈ o.gif, fs.Stores path s₁) : o.Leaves fs readers full outcome.canvas s₂ := by
  obtain ⟨hmade, hwrites, hrest⟩ := h
  have hpicture := hpng.holds hwrites
  rw [List.flatten_singleton] at hpicture
  have hread := hlossless.png _ hshow.inked.isGray hmade
  cases hpath : o.gif with
  | none =>
    rw [hpath] at hrest
    obtain rfl := hrest
    refine ⟨fun _ => ⟨_, hpicture, hread⟩, fun path h => ?_⟩
    rw [hpath] at h
    cases h
  | some path =>
    rw [hpath] at hrest
    obtain ⟨hmade', hwrites'⟩ := hrest
    have hstores := hgif path hpath
    have hanimates := hshow.animates path hpath
    constructor
    · intro hapart
      exact ⟨_, hstores.spares hwrites' hpicture (hapart path hpath), hread⟩
    · intro path' hpath'
      obtain rfl : path = path' := Option.some.inj (hpath.symm.trans hpath')
      have hne : outcome.slides ≠ [] := by
        intro hnil
        rw [hnil] at hanimates
        exact hanimates.nonempty rfl
      have hslides := hlossless.gif outcome.slides _ _ hne (hshow.grays hanimates) hmade'
      obtain ⟨slides, hdecoded, himages⟩ := Option.map_eq_some_iff.1 hslides
      refine ⟨_, slides, hstores.holds hwrites', ?_, ?_⟩
      · rw [← List.flatMap_def]
        exact hdecoded
      · rw [himages]
        exact hanimates

theorem answers_finish (hlossless : codec.Lossless readers)
    (h : DrawLang.run? (o.settings (fs.read s)) depth o.input source = some outcome) :
    o.Answers fs codec readers depth s source outcome
      ((o.finish fs.toFiles codec outcome).run s) where
  faulty hfaults := by
    have hunclean : outcome.isClean = false := by simpa [Outcome.isClean] using hfaults
    rw [Options.finish, hunclean]
    rfl
  clean hclean := by
    obtain ⟨hdraws, full, hfull, hshow⟩ := canShow_of_clean h hclean
    refine ⟨hdraws, full, hfull, fun s₁ s₂ hwrites => ⟨?_, fun hpng hgif => ?_⟩⟩
    · have hclean' : outcome.isClean = true := by simpa [Outcome.isClean] using hclean
      rw [Options.finish, if_pos hclean']
      exact bind_of_eq (run_write hshow hwrites)
    · exact leaves_of_writesAll hlossless hshow hwrites hpng hgif

theorem tool?_of_source (hsource : (fs.read s o.input).source? = some source) :
    fs.tool? codec depth o s =
      (DrawLang.run? (o.settings (fs.read s)) depth o.input source).map fun outcome =>
        (o.finish fs.toFiles codec outcome).run s := by
  have hrun : o.run? depth (fs.read s) =
      (DrawLang.run? (o.settings (fs.read s)) depth o.input source).map .ok := by
    unfold Options.run?
    cases hread : fs.read s o.input with
    | contents bytes =>
      rw [hread] at hsource
      obtain rfl := Option.some.inj hsource
      rfl
    | unopened cause message =>
      rw [hread] at hsource
      cases hsource
    | unreadable cause =>
      rw [hread] at hsource
      obtain rfl := Option.some.inj hsource
      rfl
  unfold FileSystem.tool? runTool?
  rw [hrun]
  cases DrawLang.run? (o.settings (fs.read s)) depth o.input source <;> rfl

end Tool

/-- **The tool writes nothing for a faulty program, and what a clean one shows.** If the file of the
program cannot be opened, the tool explains this and leaves all files as they are. Otherwise it
comes to an end exactly if the run of what has been read does, and answers the outcome: by the texts
of the faults and no change to any file, or, if there are none and all writing succeeds, by the
picture in one file and the first recorded frames in the other one. -/
theorem tool_writes_clean_runs {σ ι : Type} (fs : FileSystem σ ι) (codec : ImageCodec)
    (readers : ImageReaders) (hlossless : codec.Lossless readers) (depth : Nat) (o : Options)
    (s : σ) :
    (∀ cause message, fs.read s o.input = .unopened cause message →
      fs.tool? codec depth o s =
        some (⟨1, ["error: " ++ ("cannot open " ++ o.input ++ ": " ++ message)]⟩, s)) ∧
    ∀ source, (fs.read s o.input).source? = some source →
      Option.Rel (o.Answers fs codec readers depth s source)
        (run? (o.settings (fs.read s)) depth o.input source) (fs.tool? codec depth o s) := by
  constructor
  · intro cause message hread
    unfold FileSystem.tool? runTool? Options.run?
    rw [hread]
    rfl
  · intro source hsource
    rw [tool?_of_source hsource]
    cases hrun : run? (o.settings (fs.read s)) depth o.input source with
    | none => exact .none
    | some outcome => exact .some (answers_finish hlossless hrun)

/-! ## In a tree of files -/

section Trees

variable {o : Options} {read : String → Delivery} {depth : Nat}
  {source : Except FileError (List UInt8)} {outcome : Outcome} {tree : FileTree} {here : Location}

theorem edge_le (hscale : o.scale.toNat ≤ 163) : (o.settings read).edge ≤ 16384 := by
  have hedge : (o.settings read).edge = 100 * max o.scale.toNat 1 :=
    congrArg (100 * max · 1) (UInt32.toNat_toUInt64 o.scale)
  rw [hedge]
  omega

/-- The images of frames in inks are encoded, unless they are too large. -/
theorem failure_slides (hprints : ∀ f ∈ outcome.frames, f.IsPrint)
    (hsizes : ∀ f ∈ outcome.frames, f.toCanvas.width ≤ 16384 ∧ f.toCanvas.height ≤ 16384) :
    ∀ encoding ∈ Image.codec.gif outcome.slides, encoding.failure = none := by
  refine Image.Gif.failure_gif fun slide hslide => ?_
  obtain ⟨f, hf, rfl⟩ := List.mem_map.1 hslide
  rw [Array.mem_toList_iff] at hf
  obtain ⟨hwidth, hheight⟩ := hsizes f hf
  obtain ⟨c, -, hfew, hcanvas, rfl⟩ := (hprints f hf).exists_toCanvas_eq
  have hpalette : (Frame.ofCanvas c).palette.length ≤ Image.Gif.maxColors := by
    have hinks : inkColors.length ≤ Image.Gif.maxColors := by decide
    exact (List.length_take_le' _ _).trans (hfew.trans hinks)
  refine ⟨hwidth.trans_lt (by decide), hheight.trans_lt (by decide), ?_, ?_⟩
  · show 0 * 10 / 10 < UInt16.size
    decide
  · rw [show (Frame.ofCanvas c).slide.image = c from hcanvas]
    exact hpalette

/-- The encoders do not fail at pictures that are not too large, and in a tree nothing fails if the
files can be placed; so a clean run is written there. -/
theorem exists_writesAll
    (h : DrawLang.run? (o.settings read) depth o.input source = some outcome)
    (hclean : outcome.faults = #[]) (hscale : o.scale.toNat ≤ 163)
    (hpng : tree.place o.png = .ok here) (hgif : ∀ path ∈ o.gif, ∃ there, tree.place path = .ok there) :
    ∃ tree₁ tree₂, o.WritesAll FileTree.system Image.codec outcome tree tree₁ tree₂ := by
  obtain ⟨-, full, -, hshow⟩ := canShow_of_clean h hclean
  obtain ⟨_, program, m, -, -, -, hm, rfl⟩ := program_of_clean h hclean
  have hlibrary := defines_of_options o read
  have hedge : (o.settings read).edge ≤ 16384 := edge_le hscale
  have hpicture := (shows_of_program hlibrary hm).square
  have hmade : (Image.codec.png (Outcome.ofMachine (o.settings read) m).canvas).failure = none :=
    Image.Png.failure_encode (hpicture.width.trans_le hedge) (hpicture.height.trans_le hedge)
  obtain ⟨tree₁, hwrites⟩ := FileTree.exists_writes hpng
    [(Image.codec.png (Outcome.ofMachine (o.settings read) m).canvas).bytes]
  cases hpath : o.gif with
  | none =>
    refine ⟨tree₁, tree₁, hmade, hwrites, ?_⟩
    rw [hpath]
  | some path =>
    have hslides : ∀ encoding ∈ Image.codec.gif (Outcome.ofMachine (o.settings read) m).slides,
        encoding.failure = none := by
      refine failure_slides hshow.prints fun f hf => ?_
      have hsquare := (shows_frames_of_program hlibrary hm f hf).square
      exact ⟨hsquare.width.trans_le hedge, hsquare.height.trans_le hedge⟩
    obtain ⟨_, -, -, -, hdiffers⟩ := FileTree.exists_of_writes hwrites
    obtain ⟨there, hthere⟩ := hgif path hpath
    obtain ⟨tree₂, hwrites'⟩ := FileTree.exists_writes (hdiffers.place hthere)
      ((Image.codec.gif (Outcome.ofMachine (o.settings read) m).slides).map Encoding.bytes)
    refine ⟨tree₁, tree₂, hmade, hwrites, ?_⟩
    rw [hpath]
    exact ⟨hslides, hwrites'⟩

end Trees

/-- A directory with a program that sets a point. -/
def workshop : FileTree := .ofList ["work"] [("dot.dbn", .file "Set [1 1] 50".toUTF8.toList)]

def dotOptions : Options :=
  { input := "dot.dbn", png := "dot.png", gif := some "dot.gif", withoutLibrary := true }

/-- The run of the program in the directory. -/
def dotRun? : Option Outcome :=
  run? (dotOptions.settings workshop.read) 2 dotOptions.input (.ok "Set [1 1] 50".toUTF8.toList)

/-- The point is drawn into one file, and the recording in the other one ends on it. -/
theorem dot_written : Image.codec.Lossless Image.readers ∧ ∃ written bytes bytes' picture slides,
    FileTree.system.tool? Image.codec 2 dotOptions workshop = some (⟨0, []⟩, written) ∧
      written.read "dot.png" = .contents bytes ∧ Image.readers.png bytes = some picture ∧
      written.read "dot.gif" = .contents bytes' ∧ Image.readers.gif bytes' = some slides ∧
      (slides.map Slide.image).getLast? = some picture := by
  have hsource : (workshop.read dotOptions.input).source? =
      some (.ok "Set [1 1] 50".toUTF8.toList) := by decide +kernel
  have hclean : dotRun?.map (·.faults) = some #[] := by decide +kernel
  have hpng : workshop.place dotOptions.png = .ok ["dot.png", "work"] := by decide +kernel
  have hgif : workshop.place "dot.gif" = .ok ["dot.gif", "work"] := by decide +kernel
  obtain ⟨outcome, hrun, hfaults⟩ := Option.map_eq_some_iff.1 hclean
  have hplaces : ∀ path ∈ dotOptions.gif, ∃ there, workshop.place path = .ok there := by
    rintro path ⟨⟩
    exact ⟨_, hgif⟩
  obtain ⟨tree₁, tree₂, hwrites⟩ := exists_writesAll hrun hfaults (by decide) hpng hplaces
  have hapart : ∀ path ∈ dotOptions.gif, FileTree.system.file? tree₂ dotOptions.png ≠
      FileTree.system.file? tree₂ path := by
    rintro path ⟨⟩
    obtain ⟨-, hfirst, -, hsecond⟩ := hwrites
    obtain ⟨here, hplace, hlocate, -, hdiffers⟩ := FileTree.exists_of_writes hfirst
    obtain ⟨there, hplace', hlocate', -, hdiffers'⟩ := FileTree.exists_of_writes hsecond
    obtain rfl := Except.ok.inj (hpng.symm.trans hplace)
    obtain rfl := Except.ok.inj ((hdiffers.place hgif).symm.trans hplace')
    show (tree₂.locate dotOptions.png).toOption ≠ (tree₂.locate "dot.gif").toOption
    rw [hdiffers'.locate hlocate, hlocate']
    decide +kernel
  have hanswer := (tool_writes_clean_runs FileTree.system Image.codec Image.readers
    Image.codec_lossless 2 dotOptions workshop).2 _ hsource
  change Option.Rel _ dotRun? _ at hanswer
  rw [hrun] at hanswer
  generalize htool : FileTree.system.tool? Image.codec 2 dotOptions workshop = result at hanswer
  cases hanswer with
  | @some _ result hanswer =>
    obtain ⟨-, full, -, hclean⟩ := hanswer.clean hfaults
    obtain ⟨rfl, hleaves⟩ := hclean tree₁ tree₂ hwrites
    obtain ⟨hpicture, hslides⟩ := hleaves (FileTree.stores _ _) fun path _ => FileTree.stores path _
    obtain ⟨bytes, hread, hdecode⟩ := hpicture hapart
    obtain ⟨bytes', slides, hread', hdecode', hanimates⟩ := hslides "dot.gif" rfl
    exact ⟨Image.codec_lossless, tree₂, bytes, bytes', outcome.canvas, slides, rfl, hread, hdecode,
      hread', hdecode', hanimates.last rfl⟩

end DrawLang
