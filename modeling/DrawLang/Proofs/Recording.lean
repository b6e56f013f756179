import DrawLang.Proofs.Lockstep

/-!
# Recordings

Whether a run is recorded, and how many frames are kept, changes nothing but the frames and what is
told of them. A run is compared with the same run under a recording that keeps all frames: where
that one captures a frame, the other one captures it too, drops it, or says that it begins to drop
frames.

* `kept`, `Event.underLimit`: what a recording keeps, and what it tells.
* `Abridges`: a recording beside one that keeps all frames.
* `recording_invisible`: runs that differ in their recordings.
-/

namespace DrawLang

/-! ## What a recording keeps -/

/-- The items that a recording keeps of all: none if it is off, all if it has no limit, otherwise
the first ones up to the limit. -/
def kept {α : Type} (on : Bool) (limit : Nat) (items : List α) : List α :=
  if on then if limit = 0 then items else items.take limit else []

/-- The index of the capture that an event tells of. -/
def Event.captureIndex? : Event → Option Nat
  | .frameCaptured index => some index
  | _ => none

/-- Whether an event says that frames are dropped. -/
def Event.isLimitWarning : Event → Bool
  | .frameLimitReached _ => true
  | _ => false

/-- What a recording tells where one that keeps all frames tells of an event. -/
def Event.underLimit (on : Bool) (limit : Nat) : Event → Option Event
  | .frameCaptured index =>
    if !on then none
    else if limit = 0 ∨ index < limit then some (.frameCaptured index)
    else if index = limit then some (.frameLimitReached limit)
    else none
  | .frameLimitReached _ => none
  | event => some event

/-- How a recording stands beside one that keeps all frames. -/
structure Abridges (on : Bool) (limit : Nat) (full : Recorder) (log : Array Event) (r : Recorder)
    (events : Array Event) : Prop where
  full_enabled : full.enabled = true
  full_limit : full.limit = 0
  indices : log.toList.filterMap Event.captureIndex? = List.range full.frames.size
  enabled : r.enabled = on
  limit_eq : r.limit = limit
  scale_eq : r.scale = full.scale
  frames : r.frames.toList = kept on limit full.frames.toList
  warned : r.warned = (on && decide (0 < limit ∧ limit < full.frames.size))
  events_eq : events.toList = log.toList.filterMap (Event.underLimit on limit)

section Kept

variable {α : Type} {limit : Nat} {items : List α}

/-- All items are kept that there is room for. -/
theorem kept_of_room (h : limit = 0 ∨ items.length ≤ limit) : kept true limit items = items := by
  rw [kept, if_pos rfl]
  split
  · rfl
  · exact List.take_of_length_le (by omega)

/-- Only the first items are kept if there is no room for others. -/
theorem kept_of_no_room (h : limit ≠ 0) : kept true limit items = items.take limit := by
  rw [kept, if_pos rfl, if_neg h]

theorem kept_ne_nil (limit : Nat) (h : items ≠ []) : kept true limit items ≠ [] := by
  by_cases hlimit : limit = 0
  · rwa [kept_of_room (.inl hlimit)]
  · rw [kept_of_no_room hlimit, Ne, List.take_eq_nil_iff, not_or]
    exact ⟨hlimit, h⟩

theorem mem_of_mem_kept {x : α} (h : x ∈ kept true limit items) : x ∈ items := by
  by_cases hlimit : limit = 0
  · rwa [kept_of_room (.inl hlimit)] at h
  · rw [kept_of_no_room hlimit] at h
    exact List.mem_of_mem_take h

end Kept

namespace Abridges

variable {on : Bool} {limit : Nat} {full r : Recorder} {log events : Array Event}

/-- Other events are told of in every recording. -/
theorem tell (h : Abridges on limit full log r events) {event : Event}
    (hevent : event.isCapture = false) :
    Abridges on limit full (log.push event) r (events.push event) := by
  have hindex : event.captureIndex? = none := by cases event <;> first | rfl | cases hevent
  have hunder : event.underLimit on limit = some event := by
    cases event <;> first | rfl | cases hevent
  refine { h with indices := ?_, events_eq := ?_ }
  · rw [Array.toList_push, List.filterMap_append, h.indices]
    simp [hindex]
  · rw [Array.toList_push, Array.toList_push, List.filterMap_append, h.events_eq]
    simp [hunder]

/-- A recording that keeps all frames captures one more. What the other one has to do is said in
terms of all frames. -/
theorem shot (h : Abridges on limit full log r events) (c : Canvas) {r' : Recorder}
    {events' : Array Event} (henabled : r'.enabled = on) (hlimit : r'.limit = limit)
    (hscale : r'.scale = r.scale)
    (hframes : r'.frames.toList = kept on limit (full.frames.toList ++ [full.frame c]))
    (hwarned : r'.warned = (on && decide (0 < limit ∧ limit < full.frames.size + 1)))
    (hevents : events'.toList = events.toList ++
      ((Event.frameCaptured full.frames.size).underLimit on limit).toList) :
    Abridges on limit (full.capture c) (full.told log) r' events' := by
  have hroom : full.isFull = false := by simp [Recorder.isFull, h.full_limit]
  have htold : full.told log = log.push (.frameCaptured full.frames.size) := by
    simp [Recorder.told, Recorder.captureEvent, h.full_enabled, hroom]
  rw [Recorder.capture_of_room h.full_enabled hroom, htold]
  refine ⟨h.full_enabled, h.full_limit, ?_, henabled, hlimit, hscale.trans h.scale_eq, ?_, ?_, ?_⟩
  · rw [Array.toList_push, List.filterMap_append, h.indices, Array.size_push, List.range_succ]
    rfl
  · rw [hframes, Array.toList_push]
  · rw [hwarned, Array.size_push]
  · rw [hevents, Array.toList_push, List.filterMap_append, h.events_eq]
    simp only [List.filterMap_cons, List.filterMap_nil]
    cases Event.underLimit on limit (.frameCaptured full.frames.size) <;> rfl

/-- Both make the same frame of a canvas. -/
theorem frame_eq (h : Abridges on limit full log r events) (c : Canvas) :
    r.frame c = full.frame c := by
  rw [Recorder.frame, Recorder.frame, h.scale_eq]

theorem capture_off (h : Abridges false limit full log r events) (c : Canvas) :
    Abridges false limit (full.capture c) (full.told log) (r.capture c) (r.told events) := by
  have htold : r.told events = events := by
    simp [Recorder.told, Recorder.captureEvent, h.enabled]
  rw [Recorder.capture_of_disabled h.enabled, htold]
  exact h.shot c h.enabled h.limit_eq rfl h.frames h.warned (List.append_nil _).symm

theorem capture_of_room (h : Abridges true limit full log r events) (c : Canvas)
    (hroom : limit = 0 ∨ full.frames.size < limit) :
    Abridges true limit (full.capture c) (full.told log) (r.capture c) (r.told events) := by
  have hall : r.frames.toList = full.frames.toList := by
    rw [h.frames, kept_of_room]
    exact hroom.imp_right Nat.le_of_lt
  have hsize : r.frames.size = full.frames.size := congrArg List.length hall
  have hfull : r.isFull = false := by
    rw [Recorder.isFull, h.limit_eq, hsize, ← Bool.decide_and, decide_eq_false_iff_not]
    omega
  have htold : r.told events = events.push (.frameCaptured full.frames.size) := by
    simp [Recorder.told, Recorder.captureEvent, h.enabled, hfull, hsize]
  rw [Recorder.capture_of_room h.enabled hfull, h.frame_eq, htold]
  refine h.shot c h.enabled h.limit_eq rfl ?_ ?_ ?_
  · rw [Array.toList_push, hall, kept_of_room]
    rw [List.length_append]
    exact hroom
  · rw [h.warned]
    congr 2
    rw [eq_iff_iff]
    omega
  · rw [Array.toList_push, Event.underLimit, if_neg (by decide), if_pos hroom]
    rfl

theorem capture_of_no_room (h : Abridges true limit full log r events) (c : Canvas)
    (hroom : ¬ (limit = 0 ∨ full.frames.size < limit)) :
    Abridges true limit (full.capture c) (full.told log) (r.capture c) (r.told events) := by
  have hlimit : limit ≠ 0 := hroom ∘ .inl
  have hle : limit ≤ full.frames.size := Nat.le_of_not_lt (hroom ∘ .inr)
  have hfirst : r.frames.toList = full.frames.toList.take limit := by
    rw [h.frames, kept_of_no_room hlimit]
  have hfull : r.isFull = true := by
    have hsize : r.frames.size = min limit full.frames.size := by
      rw [← Array.length_toList, hfirst, List.length_take, Array.length_toList]
    rw [Recorder.isFull, h.limit_eq, hsize, ← Bool.decide_and, decide_eq_true_eq]
    omega
  rw [Recorder.capture_of_isFull h.enabled hfull]
  refine h.shot c h.enabled h.limit_eq rfl ?_ ?_ ?_
  · show r.frames.toList = _
    rw [hfirst, kept_of_no_room hlimit, List.take_append_of_le_length]
    exact hle
  · show true = _
    rw [Bool.true_and, eq_comm, decide_eq_true_eq]
    omega
  · rw [Event.underLimit, if_neg (by decide), if_neg hroom]
    by_cases hnew : full.frames.size = limit
    · have hwarned : r.warned = false := by
        rw [h.warned, Bool.true_and, decide_eq_false_iff_not]
        omega
      simp [Recorder.told, Recorder.captureEvent, h.enabled, hfull, hwarned, h.limit_eq, hnew]
    · have hwarned : r.warned = true := by
        rw [h.warned, Bool.true_and, decide_eq_true_eq]
        omega
      simp [Recorder.told, Recorder.captureEvent, h.enabled, hfull, hwarned, hnew]

/-- Where a recording that keeps all frames captures one, the other one captures it, drops it, or
says that it begins to drop frames. -/
theorem capture (h : Abridges on limit full log r events) (c : Canvas) :
    Abridges on limit (full.capture c) (full.told log) (r.capture c) (r.told events) := by
  cases on with
  | false => exact h.capture_off c
  | true =>
    by_cases hroom : limit = 0 ∨ full.frames.size < limit
    · exact h.capture_of_room c hroom
    · exact h.capture_of_no_room c hroom

end Abridges

/-- A run beside one with the same settings whose recording keeps all frames. -/
def recordings (on : Bool) (limit : Nat) : Comparison where
  place := id
  Bodies _ := Eq
  Faults := Eq
  Records full log r events := Abridges on limit full log r events
  bodies h body := eq_relocateAll h body
  report := @push_of_relocate_id
  tell hf event hevent h := by
    rw [← eq_relocate_event hf event]
    exact h.tell hevent
  capture c h := h.capture c

/-! ## Runs with different recordings -/

/-- A recording warns where the frame at its limit would be captured, and nowhere else. -/
theorem warns_underLimit (on : Bool) (limit : Nat) (event : Event) :
    ((event.underLimit on limit).map Event.isLimitWarning).getD false =
      (on && decide (0 < limit) && decide (event.captureIndex? = some limit)) := by
  cases event with
  | frameCaptured index =>
    cases on with
    | false => rfl
    | true =>
      simp only [Event.underLimit, Event.captureIndex?, Bool.not_true, Bool.false_eq_true, if_false,
        Bool.true_and, Option.some.injEq]
      split
      · rename_i hroom
        rw [← Bool.decide_and, eq_comm, Option.map_some, Option.getD_some]
        exact decide_eq_false (by omega)
      · split
        · rename_i hroom hnew
          rw [← Bool.decide_and, eq_comm, Option.map_some, Option.getD_some]
          exact decide_eq_true (by omega)
        · rename_i hroom hnew
          rw [← Bool.decide_and, eq_comm, Option.map_none, Option.getD_none]
          exact decide_eq_false (by omega)
  | _ => cases on <;> simp [Event.underLimit, Event.captureIndex?, Event.isLimitWarning]

/-- So it warns once if there is such a capture, and never otherwise. -/
theorem countP_warnings {on : Bool} {limit n : Nat} {log : List Event}
    (h : log.filterMap Event.captureIndex? = List.range n) :
    (log.filterMap (Event.underLimit on limit)).countP Event.isLimitWarning =
      if on = true ∧ 0 < limit ∧ limit < n then 1 else 0 := by
  have hcount : log.countP (fun event => decide (event.captureIndex? = some limit)) =
      if limit < n then 1 else 0 := by
    rw [← List.count_range, ← h, List.count, List.countP_filterMap]
    apply List.countP_congr
    intro event _
    cases event.captureIndex? <;> simp
  rw [List.countP_filterMap]
  simp only [warns_underLimit]
  by_cases hcap : on = true ∧ 0 < limit
  · simp only [hcap.1, hcap.2, decide_true, Bool.true_and, true_and, hcount]
  · have hnever : (on && decide (0 < limit)) = false := by simpa using hcap
    simp only [hnever, Bool.false_and, List.countP_false, Function.const_apply]
    rw [if_neg fun h => hcap ⟨h.1, h.2.1⟩]

/-- What a run has in common with the same run under a recording that keeps all frames: its picture
and its faults. It keeps the first frames, and tells of each capture that it keeps; if there is one
that it drops, it says so once. -/
structure IsRecording (on : Bool) (limit : Nat) (full o : Outcome) : Prop where
  canvas : o.canvas = full.canvas
  faults : o.faults = full.faults
  frames : o.frames.toList = kept on limit full.frames.toList
  captures : full.events.toList.filterMap Event.captureIndex? = List.range full.frames.size
  events : o.events.toList = full.events.toList.filterMap (Event.underLimit on limit)
  warnings : o.events.toList.countP Event.isLimitWarning =
    if on = true ∧ 0 < limit ∧ limit < full.frames.size then 1 else 0

theorem isRecording_unexecuted (on : Bool) (limit : Nat) (settings settings' : Settings)
    (fault : Fault) (hlength : settings'.length = settings.length)
    (hscale : settings'.scale = settings.scale) :
    IsRecording on limit (.unexecuted settings fault) (.unexecuted settings' fault) := by
  refine ⟨?_, rfl, ?_, rfl, rfl, ?_⟩
  · simp only [Outcome.unexecuted, hlength, hscale]
  · simp [Outcome.unexecuted, kept]
  · simp [Outcome.unexecuted]

theorem isRecording_ofMachine {on : Bool} {limit : Nat} {settings settings' : Settings}
    {m m' : Machine} (hscale : settings'.scale = settings.scale)
    (h : (recordings on limit).Alike m m') :
    IsRecording on limit (.ofMachine settings m) (.ofMachine settings' m') := by
  have hrecords : Abridges on limit m.recorder m.events m'.recorder m'.events := h.records
  refine ⟨?_, h.faults.symm, hrecords.frames, hrecords.indices, hrecords.events_eq, ?_⟩
  · simp only [Outcome.ofMachine, h.canvas, hscale]
  · show m'.events.toList.countP _ = _
    rw [hrecords.events_eq]
    exact countP_warnings hrecords.indices

def Settings.withRecording (settings : Settings) (on : Bool) (limit : Nat) : Settings :=
  { settings with recording := on, frameLimit := limit }

/-- A recorder that has kept nothing stands beside one that has kept nothing. -/
theorem abridges_start (on : Bool) (limit scale : Nat) (name : String) (count : Nat) :
    Abridges on limit (.new true 0 scale) #[.programParsed name count] (.new on limit scale)
      #[.programParsed name count] := by
  refine ⟨rfl, rfl, rfl, rfl, rfl, rfl, ?_, ?_, rfl⟩
  · show [] = kept on limit []
    cases on <;> simp [kept]
  · show false = (on && decide (0 < limit ∧ limit < 0))
    simp

theorem rel_program_recording (settings : Settings) (depth : Nat) (name : String)
    (program : Program) (on : Bool) (limit : Nat) : Option.Rel (IsRecording on limit)
      (program.run? (settings.withRecording true 0) depth name)
      (program.run? (settings.withRecording on limit) depth name) := by
  have htracks : (recordings on limit).Tracks False
      (execAt (settings.withRecording true 0).opener depth)
      (execAt (settings.withRecording on limit).opener depth) := by
    exact Comparison.Tracks.execAt_of_eq settings.opener id depth
  have hstart : (recordings on limit).Alike ((settings.withRecording true 0).start name program)
      ((settings.withRecording on limit).start name program) :=
    .start rfl rfl (abridges_start on limit settings.scale.toNat name program.length)
  have hrel := Comparison.rel_run? htracks rfl rfl Iff.rfl hstart
    fun m m' h => isRecording_ofMachine rfl h
  exact hrel.resolve_left And.left

theorem rel_runText?_recording (settings : Settings) (depth : Nat) (name text : String)
    (on : Bool) (limit : Nat) : Option.Rel (IsRecording on limit)
      (runText? (settings.withRecording true 0) depth name text)
      (runText? (settings.withRecording on limit) depth name text) := by
  unfold runText?
  cases parse? name text with
  | error place => exact rel_unexecuted? Iff.rfl (isRecording_unexecuted on limit _ _ _ rfl rfl)
  | ok program => exact rel_program_recording settings depth name program on limit

theorem rel_run?_recording (settings : Settings) (depth : Nat) (name : String)
    (source : Except FileError (List UInt8)) (on : Bool) (limit : Nat) :
    Option.Rel (IsRecording on limit)
      (run? (settings.withRecording true 0) depth name source)
      (run? (settings.withRecording on limit) depth name source) := by
  cases source with
  | error cause => exact rel_unexecuted? Iff.rfl (isRecording_unexecuted on limit _ _ _ rfl rfl)
  | ok bytes => exact rel_runText?_recording settings depth name _ on limit

def SamePicture (o o' : Outcome) : Prop := o.canvas = o'.canvas ∧ o.faults = o'.faults

/-- Recordings of one run show the same picture. -/
theorem samePicture_of_recordings {on on' : Bool} {limit limit' : Nat}
    {full o o' : Option Outcome} (h : Option.Rel (IsRecording on limit) full o)
    (h' : Option.Rel (IsRecording on' limit') full o') : Option.Rel SamePicture o o' := by
  cases h with
  | none =>
    cases h'
    exact .none
  | some h =>
    cases h' with
    | some h' =>
      exact .some ⟨h.canvas.trans h'.canvas.symm, h.faults.trans h'.faults.symm⟩

/-- Runs that differ in their recordings end together, with the same picture and the same faults,
and whatever the recording is, it keeps the first of all frames and warns once if it drops one. The
source may be a text, or bytes to be read. -/
theorem recording_invisible (settings : Settings) (depth : Nat) (name : String) :
    (∀ text on limit on' limit', Option.Rel SamePicture
      (runText? (settings.withRecording on limit) depth name text)
      (runText? (settings.withRecording on' limit') depth name text)) ∧
    (∀ source on limit on' limit', Option.Rel SamePicture
      (run? (settings.withRecording on limit) depth name source)
      (run? (settings.withRecording on' limit') depth name source)) ∧
    (∀ text on limit, Option.Rel (IsRecording on limit)
      (runText? (settings.withRecording true 0) depth name text)
      (runText? (settings.withRecording on limit) depth name text)) ∧
    ∀ source on limit, Option.Rel (IsRecording on limit)
      (run? (settings.withRecording true 0) depth name source)
      (run? (settings.withRecording on limit) depth name source) := by
  refine ⟨fun text on limit on' limit' => ?_, fun source on limit on' limit' => ?_,
    rel_runText?_recording settings depth name, rel_run?_recording settings depth name⟩
  · exact samePicture_of_recordings (rel_runText?_recording settings depth name text on limit)
      (rel_runText?_recording settings depth name text on' limit')
  · exact samePicture_of_recordings (rel_run?_recording settings depth name source on limit)
      (rel_run?_recording settings depth name source on' limit')

end DrawLang
