import DrawLang.Event
import DrawLang.Frame

/-!
# Recording

A recorder makes a frame of the canvas at every capture, at the scale of the picture, and keeps it,
up to a limit. Past the limit captures are dropped; the first time, this is told.

* `Recorder.capture`, `Recorder.captureEvent`: a capture, and what is told of it.
-/

namespace DrawLang

/-- Frames of captured canvases. A limit of 0 stands for no limit. -/
structure Recorder where
  enabled : Bool
  limit : Nat
  scale : Nat
  frames : Array Frame
  warned : Bool

namespace Recorder

def new (enabled : Bool) (limit scale : Nat) : Recorder := ⟨enabled, limit, max scale 1, #[], false⟩

def isFull (r : Recorder) : Bool := decide (0 < r.limit) && decide (r.limit ≤ r.frames.size)

def frame (r : Recorder) (c : Canvas) : Frame := .ofCanvas (c.inBlocks r.scale)

/-- Keeps the frame of a canvas, unless recording is off or the limit is reached. A canvas that is
too large at the scale would stop the program here; since the picture is given out at that scale, no
run that comes to an end has one. -/
def capture (r : Recorder) (c : Canvas) : Recorder :=
  if !r.enabled then r
  else if r.isFull then { r with warned := true }
  else { r with frames := r.frames.push (r.frame c) }

/-- What is told of the next capture. -/
def captureEvent (r : Recorder) : Option Event :=
  if !r.enabled then none
  else if r.isFull then if r.warned then none else some (.frameLimitReached r.limit)
  else some (.frameCaptured r.frames.size)

/-! ## Laws -/

theorem capture_of_disabled {r : Recorder} (h : r.enabled = false) (c : Canvas) :
    r.capture c = r := by
  simp [capture, h]

theorem capture_of_isFull {r : Recorder} (hon : r.enabled = true) (hfull : r.isFull = true)
    (c : Canvas) : r.capture c = { r with warned := true } := by
  simp [capture, hon, hfull]

theorem capture_of_room {r : Recorder} (hon : r.enabled = true) (hroom : r.isFull = false)
    (c : Canvas) : r.capture c = { r with frames := r.frames.push (r.frame c) } := by
  simp [capture, hon, hroom]

@[simp] theorem enabled_capture (r : Recorder) (c : Canvas) :
    (r.capture c).enabled = r.enabled := by
  unfold capture
  split
  · rfl
  · split <;> rfl

@[simp] theorem limit_capture (r : Recorder) (c : Canvas) : (r.capture c).limit = r.limit := by
  unfold capture
  split
  · rfl
  · split <;> rfl

@[simp] theorem scale_capture (r : Recorder) (c : Canvas) : (r.capture c).scale = r.scale := by
  unfold capture
  split
  · rfl
  · split <;> rfl

/-- What holds of all frames and of the next one holds of all frames afterwards. -/
theorem forall_frames_capture {P : Frame → Prop} {r : Recorder} {c : Canvas}
    (h : ∀ f ∈ r.frames, P f) (hc : P (r.frame c)) : ∀ f ∈ (r.capture c).frames, P f := by
  unfold capture
  split
  · exact h
  · split
    · exact h
    · intro f hf
      rcases Array.mem_push.1 hf with hf | rfl
      · exact h f hf
      · exact hc

end Recorder

end DrawLang
