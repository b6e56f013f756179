import DrawLang.Image.Files
import DrawLang.Proofs.Palette

/-!
# Image files can be read back

A reader takes bytes as what has been written with them, whatever stands behind them. That holds of
the elementary readers, and of readers in a row for what has been written in a row.

* `Reads`: a reader takes bytes as a value.
* `Png.decode?_encode`: canvases come out of their files.
* `ImageCodec.Lossless`: what is expected of encoders.
* `codec_lossless`: these do what is expected.
-/

namespace DrawLang.Image

open ByteReader

/-- Whether a reader takes bytes as a value, and leaves what stands behind them. -/
def Reads {α : Type} (read : ByteReader α) (bytes : List UInt8) (a : α) : Prop :=
  ∀ rest, read (bytes ++ rest) = some (a, rest)

namespace Reads

variable {α β : Type} {read : ByteReader α} {bytes bytes' : List UInt8} {a : α} {b : β}

theorem pure (a : α) : Reads (Pure.pure a) [] a := fun _ => rfl

/-- Readers in a row read what is written in a row. -/
theorem bind (h : Reads read bytes a) {f : α → ByteReader β} (hf : Reads (f a) bytes' b) :
    Reads (read >>= f) (bytes ++ bytes') b := by
  intro rest
  show (read (bytes ++ bytes' ++ rest)).bind (fun r => f r.1 r.2) = _
  rw [List.append_assoc, h, Option.bind_some]
  exact hf rest

/-- A value is made of what is read last. -/
theorem result (h : Reads read bytes a) (f : α → β) : Reads (do return f (← read)) bytes (f a) := by
  rw [← List.append_nil bytes]
  exact h.bind (pure (f a))

theorem all?_eq (h : Reads read bytes a) : all? read bytes = some a := by
  have hall := h []
  rw [List.append_nil] at hall
  simp only [all?, hall]

/-- A reader may look at how much is left. -/
theorem of_length {read : Nat → ByteReader α}
    (h : ∀ limit, bytes.length ≤ limit → Reads (read limit) bytes a) :
    Reads (do read (← get).length) bytes a :=
  fun rest => h _ (by simp) rest

theorem take (bytes : List UInt8) : Reads (take bytes.length) bytes bytes := by
  intro rest
  rw [ByteReader.take, if_pos (by simp), List.take_left, List.drop_left]

theorem expect (mark : List UInt8) : Reads (expect mark) mark () := by
  intro rest
  rw [ByteReader.expect, List.take_left, if_pos rfl, List.drop_left]

theorem byte (b : UInt8) : Reads byte [b] b := fun _ => rfl

theorem little {n : Nat} (h : n < UInt16.size) : Reads little (littleEndian n) n := by
  intro rest
  show some (_, rest) = _
  simp only [UInt8.toNat_ofNat']
  change n < 65536 at h
  congr 2
  omega

theorem big {n : Nat} (h : n < UInt32.size) : Reads big (bigEndian n) n := by
  intro rest
  show some (_, rest) = _
  simp only [UInt8.toNat_ofNat']
  change n < 4294967296 at h
  congr 2
  omega

/-- What is written for each of some values is read as these values. -/
theorem times {write : α → List UInt8} {xs : List α} (h : ∀ x ∈ xs, Reads read (write x) x) :
    Reads (times read xs.length) (xs.flatMap write) xs := by
  induction xs with
  | nil => exact pure []
  | cons x xs ih =>
    obtain ⟨hx, hxs⟩ := List.forall_mem_cons.1 h
    exact hx.bind ((ih hxs).result (x :: ·))

end Reads

/-! ## PNG files -/

namespace Png

theorem reads_chunk (kind : List UInt8) {contents : List UInt8}
    (h : contents.length < UInt32.size) :
    Reads (readChunk kind) (chunk kind contents) contents := by
  refine (Reads.big h).bind ?_
  refine (Reads.expect kind).bind ?_
  refine (Reads.take contents).bind ?_
  exact (Reads.expect _).result fun _ => contents

/-- The last block is read as its contents. -/
theorem reads_block {contents : List UInt8} (h : contents.length ≤ blockLength) (n : Nat) :
    Reads (readBlocks (n + 1)) (block 1 contents) contents := by
  have hlength : contents.length < UInt16.size := Nat.lt_succ_of_le h
  refine (Reads.byte 1).bind ?_
  refine (Reads.little hlength).bind ?_
  refine (Reads.expect _).bind ?_
  exact (Reads.take contents).result id

theorem reads_blocks {n : Nat} {bytes : List UInt8} (h : bytes.length ≤ (n + 1) * blockLength)
    {limit : Nat} (hlimit : n < limit) : Reads (readBlocks limit) (blocks n bytes) bytes := by
  obtain ⟨limit, rfl⟩ := Nat.exists_eq_add_of_lt hlimit
  induction n generalizing bytes limit with
  | zero => exact reads_block (by omega) _
  | succ n ih =>
    unfold blocks
    split
    · rename_i hfew
      exact reads_block hfew _
    · have hfirst : (bytes.take blockLength).length < UInt16.size :=
        Nat.lt_succ_of_le (List.length_take_le _ _)
      have hrest : (bytes.drop blockLength).length ≤ (n + 1) * blockLength := by
        rw [List.length_drop]
        rw [Nat.succ_mul] at h
        omega
      have hread : n + 1 + limit + 1 = (n + limit + 1) + 1 := by omega
      rw [hread]
      have hblocks := ih hrest limit (by omega)
      have hboth := hblocks.result (bytes.take blockLength ++ ·)
      rw [List.take_append_drop] at hboth
      unfold block
      rw [List.cons_append, List.append_assoc, List.append_assoc]
      refine (Reads.byte 0).bind ?_
      refine (Reads.little hfirst).bind ?_
      refine (Reads.expect _).bind ?_
      exact (Reads.take _).bind hboth

theorem le_length_blocks (n : Nat) (bytes : List UInt8) : bytes.length ≤ (blocks n bytes).length := by
  have hblock (mark : UInt8) (bytes : List UInt8) : bytes.length ≤ (block mark bytes).length := by
    simp only [block, List.length_cons, List.length_append]
    omega
  induction n generalizing bytes with
  | zero => exact hblock 1 bytes
  | succ n ih =>
    unfold blocks
    split
    · exact hblock 1 bytes
    · have hfirst := hblock 0 (bytes.take blockLength)
      have hrest := ih (bytes.drop blockLength)
      rw [List.length_append]
      rw [List.length_drop] at hrest
      rw [List.length_take] at hfirst
      omega

theorem reads_stored (bytes : List UInt8) :
    Reads (readStored (stored bytes).length) (stored bytes) bytes := by
  have hcount : bytes.length / blockLength < (stored bytes).length := by
    have hle := le_length_blocks (bytes.length / blockLength) bytes
    have hdiv := Nat.div_le_self bytes.length blockLength
    simp only [stored, List.length_append, List.length_cons]
    omega
  have hblocks : bytes.length ≤ (bytes.length / blockLength + 1) * blockLength := by
    unfold blockLength
    omega
  refine (Reads.expect _).bind ?_
  refine (reads_blocks hblocks hcount).bind ?_
  exact (Reads.expect _).result fun _ => bytes

theorem reads_pixel (p : Rgba) : Reads readPixel (pixel p) p := fun _ => rfl

theorem reads_scanline (row : List Rgba) :
    Reads (readScanline row.length) (scanline row) row := by
  refine (Reads.expect [0]).bind ?_
  exact Reads.times fun p _ => reads_pixel p

theorem reads_sides {width height : Nat} (hwidth : width < UInt32.size)
    (hheight : height < UInt32.size) :
    Reads readSides (sides width height) (width, height) := by
  refine (Reads.big hwidth).bind ?_
  refine (Reads.big hheight).bind ?_
  exact (Reads.expect _).result fun _ => (width, height)

theorem reads_file {header contents : List UInt8} (hheader : header.length < UInt32.size)
    (hcontents : contents.length < UInt32.size) :
    Reads readFile (signature ++ (chunk Png.header header ++
      (chunk data contents ++ chunk trailer []))) (header, contents) := by
  refine (Reads.expect _).bind ?_
  refine (reads_chunk _ hheader).bind ?_
  refine (reads_chunk _ hcontents).bind ?_
  exact (reads_chunk trailer (by decide)).result fun _ => (header, contents)

/-- A canvas comes out of its file. -/
theorem decode?_encode {c : Canvas} (h : (encode c).failure = none) :
    decode? (encode c).bytes = some c := by
  unfold encode at h ⊢
  dsimp only at h ⊢
  split at h
  · rename_i hfits
    obtain ⟨hwidth, hheight, hcontents⟩ := hfits
    rw [if_pos ⟨hwidth, hheight, hcontents⟩]
    have hrow : ∀ row ∈ c.rows, Reads (readScanline c.width) (scanline row) row := by
      intro row hrow
      rw [← Canvas.length_of_mem_rows hrow]
      exact reads_scanline row
    have hrows := Reads.times hrow
    rw [Canvas.length_rows] at hrows
    have hpixels : c.rows.flatten.toArray = c.pixels := by
      rw [Canvas.flatten_rows, Array.toArray_toList]
    have hheader : (sides c.width c.height).length < UInt32.size :=
      show 13 < UInt32.size by decide
    simp only [decode?, (reads_file hheader hcontents).all?_eq, (reads_sides hwidth hheight).all?_eq,
      (reads_stored _).all?_eq, hrows.all?_eq, hpixels, bind, Option.bind]
    exact dif_pos c.size_pixels
  · cases h

/-- A block has five bytes besides its contents. -/
theorem length_blocks_le (n : Nat) (bytes : List UInt8) :
    (blocks n bytes).length ≤ bytes.length + 5 * (n + 1) := by
  have hblock (mark : UInt8) (contents : List UInt8) :
      (block mark contents).length = contents.length + 5 := by
    simp [block, littleEndian]
  induction n generalizing bytes with
  | zero => exact Nat.le_of_eq (hblock 1 bytes)
  | succ n ih =>
    unfold blocks
    split
    · rw [hblock]
      omega
    · have hrest := ih (bytes.drop blockLength)
      rw [List.length_drop] at hrest
      rw [List.length_append, hblock, List.length_take]
      omega

theorem length_scanlines (c : Canvas) :
    (c.rows.flatMap scanline).length = c.height * (4 * c.width + 1) := by
  have hrow : ∀ bytes ∈ c.rows.map scanline, bytes.length = 4 * c.width + 1 := by
    intro bytes hbytes
    obtain ⟨row, hrow, rfl⟩ := List.mem_map.1 hbytes
    rw [← Canvas.length_of_mem_rows hrow]
    simp [scanline, pixel, List.length_flatMap]
    omega
  rw [List.flatMap_def, Canvas.length_flatten_of_length hrow, List.length_map, Canvas.length_rows]

/-- A canvas of at most 16384 pixels each way is encoded. -/
theorem failure_encode {c : Canvas} (hwidth : c.width ≤ 16384) (hheight : c.height ≤ 16384) :
    (encode c).failure = none := by
  have hcount : (c.rows.flatMap scanline).length ≤ 16384 * (4 * 16384 + 1) := by
    rw [length_scanlines]
    exact Nat.mul_le_mul hheight (by omega)
  have hblocks := length_blocks_le ((c.rows.flatMap scanline).length / blockLength)
    (c.rows.flatMap scanline)
  have hcontents : (stored (c.rows.flatMap scanline)).length < UInt32.size := by
    simp only [stored, List.length_append, List.length_cons, List.length_nil, bigEndian,
      blockLength, UInt32.size] at hblocks ⊢
    omega
  have hside : 16384 < UInt32.size := by decide
  rw [encode, if_pos ⟨Nat.lt_of_le_of_lt hwidth hside, Nat.lt_of_le_of_lt hheight hside, hcontents⟩]

end Png

/-! ## GIF files -/

namespace Gif

theorem indices?_append {indices : List UInt8} (h : ∀ i ∈ indices, i < 128) (rest : List UInt8) :
    indices? (indices ++ rest) = (indices? rest).map (indices ++ ·) := by
  induction indices with
  | nil => simp
  | cons i indices ih =>
    obtain ⟨hi, hindices⟩ := List.forall_mem_cons.1 h
    rw [List.cons_append, indices?, if_pos hi, ih hindices, Option.map_map]
    rfl

theorem indices?_codes {indices : List UInt8} (h : ∀ i ∈ indices, i < 128) (n : Nat) :
    indices? (codes n indices) = some indices := by
  have hclosed (indices : List UInt8) (h : ∀ i ∈ indices, i < 128) :
      indices? (128 :: (indices ++ [129])) = some indices := by
    rw [indices?, if_neg (by decide), if_pos rfl, indices?_append h]
    simp [indices?]
  induction n generalizing indices with
  | zero => exact hclosed indices h
  | succ n ih =>
    unfold codes
    split
    · exact hclosed indices h
    · rw [indices?, if_neg (by decide), if_pos rfl,
        indices?_append fun i hi => h i (List.mem_of_mem_take hi),
        ih fun i hi => h i (List.mem_of_mem_drop hi), Option.map_some, List.take_append_drop]

theorem length_lt_subBlocks {n : Nat} {bytes : List UInt8} (h : bytes.length ≤ n) :
    bytes.length < (subBlocks n bytes).length := by
  induction n generalizing bytes with
  | zero =>
    obtain rfl := List.length_eq_zero_iff.1 (Nat.le_zero.1 h)
    exact Nat.zero_lt_one
  | succ n ih =>
    unfold subBlocks
    split
    · rename_i hempty
      obtain rfl := List.isEmpty_iff.1 hempty
      exact Nat.zero_lt_one
    · rename_i hne
      have hpos : 0 < bytes.length := List.length_pos_iff.2 (mt List.isEmpty_iff.2 hne)
      have hrest : (bytes.drop 255).length ≤ n := by
        rw [List.length_drop]
        omega
      have hlt := ih hrest
      rw [List.length_drop] at hlt
      rw [List.length_cons, List.length_append, List.length_take]
      omega

theorem reads_subBlocks {n limit : Nat} {bytes : List UInt8} (h : bytes.length ≤ n)
    (hlimit : bytes.length < limit) : Reads (readSubBlocks limit) (subBlocks n bytes) bytes := by
  have hclosed (limit : Nat) : Reads (readSubBlocks (limit + 1)) [0] [] := by
    rw [← List.append_nil [0]]
    exact (Reads.byte 0).bind (Reads.pure [])
  obtain ⟨limit, rfl⟩ := Nat.exists_eq_succ_of_ne_zero (Nat.ne_zero_of_lt hlimit)
  induction n generalizing bytes limit with
  | zero =>
    obtain rfl := List.length_eq_zero_iff.1 (Nat.le_zero.1 h)
    exact hclosed limit
  | succ n ih =>
    unfold subBlocks
    split
    · rename_i hempty
      obtain rfl := List.isEmpty_iff.1 hempty
      exact hclosed limit
    · rename_i hne
      have hpos : 0 < bytes.length := List.length_pos_iff.2 (mt List.isEmpty_iff.2 hne)
      have hdrop : (bytes.drop 255).length = bytes.length - 255 := List.length_drop
      have hlength : (UInt8.ofNat (bytes.take 255).length).toNat = (bytes.take 255).length :=
        UInt8.toNat_ofNat_of_lt' (by
          show (bytes.take 255).length < 256
          have := List.length_take_le 255 bytes
          omega)
      have hmore : UInt8.ofNat (bytes.take 255).length ≠ 0 := by
        intro hzero
        rw [hzero, List.length_take] at hlength
        change 0 = _ at hlength
        omega
      obtain ⟨limit, rfl⟩ := Nat.exists_eq_succ_of_ne_zero (show limit ≠ 0 by omega)
      have hrest : Reads (readSubBlocks (limit + 1)) (subBlocks n (bytes.drop 255))
          (bytes.drop 255) := ih (by omega) limit (by omega)
      have hboth := hrest.result (bytes.take 255 ++ ·)
      rw [List.take_append_drop] at hboth
      refine (Reads.byte _).bind ?_
      rw [if_neg hmore, hlength]
      exact (Reads.take _).bind hboth

theorem reads_data (bytes : List UInt8) : Reads readData (subBlocks bytes.length bytes) bytes :=
  Reads.of_length fun _ hlimit => reads_subBlocks (Nat.le_refl _)
    (Nat.lt_of_lt_of_le (length_lt_subBlocks (Nat.le_refl _)) hlimit)

theorem reads_color {c : Rgba} (h : c.a = 255) : Reads readColor (color c) c := by
  intro rest
  show some (_, rest) = _
  rw [← h]

/-- The palette that is read: the colors of the image, and then black. -/
def filled (palette : List Rgba) : List Rgba :=
  palette ++ List.replicate (maxColors - palette.length) Rgba.black

theorem reads_colorTable {palette : List Rgba} (hsolid : ∀ c ∈ palette, c.a = 255)
    (hlength : palette.length ≤ maxColors) :
    Reads (times readColor maxColors) (colorTable palette) (filled palette) := by
  have hcolors : ∀ c ∈ filled palette, Reads readColor (color c) c := by
    intro c hc
    rcases List.mem_append.1 hc with hc | hc
    · exact reads_color (hsolid c hc)
    · obtain rfl := List.eq_of_mem_replicate hc
      exact reads_color rfl
  have hcount : (filled palette).length = maxColors := by
    rw [filled, List.length_append, List.length_replicate]
    omega
  rw [← hcount]
  exact Reads.times hcolors

/-- Colors behind those that are pointed at are not seen. -/
theorem toCanvas_filled {f : Frame} (h : ∀ i ∈ f.indices, i.toNat < f.palette.length)
    (delay : Nat) :
    Frame.toCanvas { f with palette := filled f.palette, delay } = f.toCanvas := by
  have hpixel (p : Point) :
      Frame.pixel { f with palette := filled f.palette, delay } p = f.pixel p := by
    unfold Frame.pixel
    split
    · cases hindex : f.indices[p.2.toNat * f.width + p.1.toNat]? with
      | none => rfl
      | some i =>
        have hi := h i (Array.mem_of_getElem? hindex)
        simp [filled, List.getD_eq_getElem?_getD, List.getElem?_append_left hi]
    · rfl
  simp only [Frame.toCanvas, hpixel]

/-- What can be put into a file of this kind. -/
structure Plain (f : Frame) (delay : Nat) : Prop where
  width : f.width < UInt16.size
  height : f.height < UInt16.size
  delay : delay < UInt16.size
  few : f.palette.length ≤ maxColors
  solid : ∀ c ∈ f.palette, c.a = 255
  indices : ∀ i ∈ f.indices, i.toNat < f.palette.length

theorem reads_frame {f : Frame} {delay : Nat} (h : Plain f delay) :
    ∃ rest, frame delay f = 0x21 :: rest ∧ Reads readImage rest ⟨f.toCanvas, 10 * delay⟩ := by
  refine ⟨_, rfl, ?_⟩
  have hsmall : ∀ i ∈ f.indices.toList, i < 128 := by
    intro i hi
    have hlt := h.indices i (Array.mem_toList_iff.1 hi)
    exact UInt8.lt_iff_toNat_lt.2 (Nat.lt_of_lt_of_le hlt h.few)
  refine (Reads.expect _).bind ?_
  refine (Reads.little h.delay).bind ?_
  refine (Reads.expect _).bind ?_
  refine (Reads.little h.width).bind ?_
  refine (Reads.little h.height).bind ?_
  refine (Reads.expect _).bind ?_
  refine (reads_colorTable h.solid h.few).bind ?_
  refine (Reads.expect _).bind ?_
  rw [← List.append_nil (subBlocks _ _)]
  refine (reads_data _).bind ?_
  rw [indices?_codes hsmall, ← toCanvas_filled h.indices delay]
  exact Reads.pure _

/-- The frame of an image, and its delay in hundredths of a second. -/
def written (slide : Slide) : List UInt8 := frame (slide.delay / 10) (.ofCanvas slide.image)

theorem length_le_flatMap_written (slides : List Slide) :
    slides.length ≤ (slides.flatMap written).length := by
  induction slides with
  | nil => exact Nat.le_refl 0
  | cons slide slides ih =>
    have hpos : 0 < (written slide).length := Nat.succ_pos _
    rw [List.flatMap_cons, List.length_append, List.length_cons]
    omega

theorem reads_images {slides : List Slide} {images : List Slide}
    (h : List.Forall₂ (fun slide shown => ∃ rest, written slide = 0x21 :: rest ∧
      Reads readImage rest shown) slides images) {limit : Nat} (hlimit : slides.length < limit) :
    Reads (readImages limit) (slides.flatMap written ++ [0x3B]) images := by
  obtain ⟨limit, rfl⟩ := Nat.exists_eq_succ_of_ne_zero (Nat.ne_zero_of_lt hlimit)
  induction h generalizing limit with
  | nil => exact (Reads.byte 0x3B).bind (Reads.pure [])
  | @cons slide shown slides images hslide _ ih =>
    obtain ⟨rest, hwritten, hread⟩ := hslide
    obtain ⟨limit, rfl⟩ := Nat.exists_eq_succ_of_ne_zero (Nat.ne_zero_of_lt
      (Nat.lt_of_succ_lt_succ hlimit))
    rw [List.flatMap_cons, hwritten, List.cons_append, List.cons_append, List.append_assoc]
    refine (Reads.byte 0x21).bind ?_
    change Reads (readImage >>= fun slide => do return slide :: (← readImages (limit + 1))) _ _
    exact hread.bind ((ih limit (Nat.lt_of_succ_lt_succ hlimit)).result (shown :: ·))

end Gif

/-! ## What is expected of encoders -/

end Image

/-- Whether a color is an opaque gray. -/
def Rgba.IsGray (color : Rgba) : Prop := ∃ level, color = .gray level

namespace ImageCodec

def gifImages (codec : ImageCodec) : List Slide → List Slide → List Encoding
  | _, [] => []
  | before, slide :: slides =>
    codec.gifImage before slide :: codec.gifImages (before ++ [slide]) slides

def gif (codec : ImageCodec) (slides : List Slide) : List Encoding :=
  codec.gifStart :: (codec.gifImages [] slides ++ [⟨codec.gifEnd slides, none⟩])

/-- Whether encoders lose no pixels of opaque grays, as long as they do not fail: a picture comes out
of its file, and the images of an animation do that are all of one size. -/
structure Lossless (codec : ImageCodec) (readers : ImageReaders) : Prop where
  png : ∀ c, c.Only Rgba.IsGray → (codec.png c).failure = none →
    readers.png (codec.png c).bytes = some c
  gif : ∀ slides width height, slides ≠ [] →
    (∀ slide ∈ slides, slide.image.Only Rgba.IsGray ∧ slide.image.width = width ∧
      slide.image.height = height) →
    (∀ encoding ∈ codec.gif slides, encoding.failure = none) →
    (readers.gif ((codec.gif slides).flatMap Encoding.bytes)).map (·.map Slide.image) =
      some (slides.map Slide.image)

end ImageCodec

namespace Image

namespace Gif

theorem bytes_of_made {before : List Slide} {slide : Slide}
    (h : (image before slide).failure = none) :
    (image before slide).bytes =
      (if before.isEmpty then screen slide.image.width slide.image.height else []) ++
        written slide := by
  unfold image at h ⊢
  dsimp only at h ⊢
  split at h
  · rename_i hplain
    rw [if_pos hplain]
    rfl
  · cases h

theorem flatMap_gifImages {before slides : List Slide} (hbefore : before ≠ [])
    (h : ∀ encoding ∈ codec.gifImages before slides, encoding.failure = none) :
    (codec.gifImages before slides).flatMap Encoding.bytes = slides.flatMap written := by
  induction slides generalizing before with
  | nil => rfl
  | cons slide slides ih =>
    obtain ⟨hslide, hslides⟩ := List.forall_mem_cons.1 h
    have hempty : before.isEmpty = false := by simpa using hbefore
    have hbytes : (codec.gifImage before slide).bytes = written slide := by
      rw [show (codec.gifImage before slide).bytes = _ from bytes_of_made hslide, hempty]
      rfl
    rw [ImageCodec.gifImages, List.flatMap_cons, List.flatMap_cons, hbytes,
      ih (by simp) hslides]

theorem exists_made {before slides : List Slide}
    (h : ∀ encoding ∈ codec.gifImages before slides, encoding.failure = none) :
    ∀ slide ∈ slides, ∃ before, (image before slide).failure = none := by
  induction slides generalizing before with
  | nil => exact fun _ hslide => absurd hslide List.not_mem_nil
  | cons slide slides ih =>
    obtain ⟨hslide, hslides⟩ := List.forall_mem_cons.1 h
    exact List.forall_mem_cons.2 ⟨⟨before, hslide⟩, ih hslides⟩

/-- An image in opaque grays comes out of the bytes that stand for it. -/
theorem reads_written {slide : Slide} (hgray : slide.image.Only Rgba.IsGray)
    (h : ∃ before, (image before slide).failure = none) :
    ∃ rest, written slide = 0x21 :: rest ∧
      Reads readImage rest ⟨slide.image, 10 * (slide.delay / 10)⟩ := by
  obtain ⟨before, hmade⟩ := h
  unfold image at hmade
  dsimp only at hmade
  split at hmade
  · rename_i hplain
    obtain ⟨hwidth, hheight, hdelay, hfew⟩ := hplain
    have hsolid : ∀ c ∈ (Frame.ofCanvas slide.image).palette, c.a = 255 := by
      intro c hc
      have hpixel := List.mem_eraseDups.1 (List.mem_of_mem_take hc)
      obtain ⟨level, rfl⟩ := hgray c (Array.mem_toList_iff.1 hpixel)
      rfl
    obtain ⟨rest, hwritten, hread⟩ :=
      reads_frame ⟨hwidth, hheight, hdelay, hfew, hsolid, fun _ => Frame.index_lt⟩
    have hall : slide.image.pixels.toList.eraseDups.length ≤ Frame.maxPalette := by
      change (List.take Frame.maxPalette _).length ≤ maxColors at hfew
      rw [List.length_take] at hfew
      unfold maxColors at hfew
      unfold Frame.maxPalette at hfew ⊢
      omega
    rw [Frame.toCanvas_of_few hall] at hread
    exact ⟨rest, hwritten, hread⟩
  · cases hmade

theorem sides_of_made {slide : Slide} (h : ∃ before, (image before slide).failure = none) :
    slide.image.width < UInt16.size ∧ slide.image.height < UInt16.size := by
  obtain ⟨before, hmade⟩ := h
  unfold image at hmade
  dsimp only at hmade
  split at hmade
  · rename_i hplain
    exact ⟨hplain.1, hplain.2.1⟩
  · cases hmade

/-- The images of an animation come out of its file. -/
theorem decode?_gif {slides : List Slide} (hne : slides ≠ [])
    (hgray : ∀ slide ∈ slides, slide.image.Only Rgba.IsGray)
    (h : ∀ encoding ∈ codec.gif slides, encoding.failure = none) :
    decode? ((codec.gif slides).flatMap Encoding.bytes) =
      some (slides.map fun slide => ⟨slide.image, 10 * (slide.delay / 10)⟩) := by
  obtain ⟨-, himages⟩ := List.forall_mem_cons.1 h
  have hmade := fun encoding hencoding => himages encoding (List.mem_append_left _ hencoding)
  have hslides := exists_made hmade
  obtain ⟨first, slides, rfl⟩ := List.exists_cons_of_ne_nil hne
  obtain ⟨hwidth, hheight⟩ := sides_of_made (hslides first List.mem_cons_self)
  obtain ⟨hfirst, hrest⟩ := List.forall_mem_cons.1 hmade
  have hbytes : (codec.gif (first :: slides)).flatMap Encoding.bytes =
      screen first.image.width first.image.height ++
        ((first :: slides).flatMap written ++ [0x3B]) := by
    have hfront : (codec.gifImage [] first).bytes =
        screen first.image.width first.image.height ++ written first := bytes_of_made hfirst
    rw [ImageCodec.gif, List.flatMap_cons, List.flatMap_append, ImageCodec.gifImages,
      List.flatMap_cons, hfront, List.flatMap_cons,
      flatMap_gifImages (List.append_ne_nil_of_right_ne_nil _ (List.cons_ne_nil _ _)) hrest]
    simp [codec, finish]
  have hshown : List.Forall₂ (fun slide shown => ∃ rest, written slide = 0x21 :: rest ∧
      Reads readImage rest shown) (first :: slides)
      ((first :: slides).map fun slide => ⟨slide.image, 10 * (slide.delay / 10)⟩) := by
    rw [List.forall₂_map_right_iff, List.forall₂_same]
    exact fun slide hslide => reads_written (hgray slide hslide) (hslides slide hslide)
  rw [hbytes]
  apply Reads.all?_eq
  unfold screen
  rw [List.append_assoc, List.append_assoc, List.append_assoc, List.append_assoc]
  refine (Reads.expect _).bind ?_
  refine (Reads.little hwidth).bind ?_
  refine (Reads.little hheight).bind ?_
  refine (Reads.expect _).bind ?_
  refine (Reads.expect _).bind ?_
  refine Reads.of_length fun limit hlimit => reads_images hshown ?_
  have hcount := length_le_flatMap_written (first :: slides)
  rw [List.length_append, List.length_singleton] at hlimit
  omega

/-- Images of few colors, with sides and delays that are words of 16 bits, are encoded. -/
theorem failure_gif {slides : List Slide}
    (h : ∀ slide ∈ slides, slide.image.width < UInt16.size ∧ slide.image.height < UInt16.size ∧
      slide.delay / 10 < UInt16.size ∧ (Frame.ofCanvas slide.image).palette.length ≤ maxColors) :
    ∀ encoding ∈ codec.gif slides, encoding.failure = none := by
  have himages (before : List Slide) :
      ∀ encoding ∈ codec.gifImages before slides, encoding.failure = none := by
    induction slides generalizing before with
    | nil => exact fun _ hencoding => absurd hencoding List.not_mem_nil
    | cons slide slides ih =>
      obtain ⟨hslide, hslides⟩ := List.forall_mem_cons.1 h
      refine List.forall_mem_cons.2 ⟨?_, ih hslides _⟩
      show (image before slide).failure = none
      exact congrArg Encoding.failure (if_pos hslide)
  intro encoding hencoding
  rcases List.mem_cons.1 hencoding with rfl | hencoding
  · rfl
  · rcases List.mem_append.1 hencoding with hencoding | hencoding
    · exact himages [] encoding hencoding
    · rw [List.mem_singleton.1 hencoding]

end Gif

/-- The encoders lose no pixels of opaque grays. -/
theorem codec_lossless : codec.Lossless readers where
  png _ _ h := Png.decode?_encode h
  gif slides width height hne hslides h := by
    have hgray := fun slide hslide => (hslides slide hslide).1
    show (Gif.decode? _).map _ = _
    rw [Gif.decode?_gif hne hgray h, Option.map_some, List.map_map]
    rfl

end Image

end DrawLang
