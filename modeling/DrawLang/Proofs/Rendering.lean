import DrawLang.Proofs.Lockstep

/-!
# The run of a canonical text

A run goes by the tree that was read, and the places in it show in nothing but the lines and columns
of faults. The canonical text of a program reads back as the same tree at other places of the same
file, so its run ends when that of the program does, and shows the same.

* `Outcome.unplaced`: what an outcome shows apart from lines and columns.
* `places`: what is compared of runs of one tree at different places.
* `rendering_invisible`: the runs of texts that are the same in canonical form.
-/

namespace DrawLang

structure Outcome.Unplaced where
  canvas : Canvas
  frames : Array Frame
  /-- The faults, all moved to the start of their files. -/
  faults : Array Fault
  /-- The events as they are listed. -/
  lines : Array String

def Outcome.unplaced (o : Outcome) : Outcome.Unplaced where
  canvas := o.canvas
  frames := o.frames
  faults := o.faults.map (Fault.relocate Position.home)
  lines := o.events.map Event.line

/-- A run beside one of the same tree at other places of its files. -/
def places : Comparison where
  place := Position.home
  Bodies _ body body' := ∃ f, Position.home ∘ f = Position.home ∧ body' = Stmt.relocateAll f body
  Faults faults faults' := faults.map (Fault.relocate Position.home) =
    faults'.map (Fault.relocate Position.home)
  Records r events r' events' := r = r' ∧ events.map Event.line = events'.map Event.line
  bodies h body := ⟨_, h, rfl⟩
  report h hfault := by rw [Array.map_push, Array.map_push, h, hfault]
  tell _ event _ := by
    rintro ⟨hrecorder, hlines⟩
    exact ⟨hrecorder, by rw [Array.map_push, Array.map_push, hlines, Event.line_relocate]⟩
  capture c := by
    rintro ⟨rfl, hlines⟩
    refine ⟨rfl, ?_⟩
    unfold Recorder.told
    split
    · rw [Array.map_push, Array.map_push, hlines]
    · exact hlines

/-- All places of a tree can be moved to the starts of their files. -/
theorem run?_relocate_home (settings : Settings) (depth : Nat) (name : String) (p : Program) :
    (p.run? settings depth name).map Outcome.unplaced =
      (Program.run? settings depth name (Stmt.relocateAll Position.home p)).map
        Outcome.unplaced := by
  have htracks : places.Tracks False (execAt settings.opener depth)
      (execAt settings.opener depth) := .execAt settings.opener id depth
  have hstart : places.Alike (settings.start name p)
      (settings.start name (Stmt.relocateAll Position.home p)) := by
    refine .start rfl rfl ⟨rfl, ?_⟩
    rw [Stmt.length_relocateAll]
  have hend : ∀ m m', places.Alike m m' →
      (Outcome.ofMachine settings m).unplaced = (Outcome.ofMachine settings m').unplaced := by
    intro m m' hm
    obtain ⟨hrecorder, hlines⟩ := hm.records
    have hfaults : m.faults.map _ = m'.faults.map _ := hm.faults
    simp only [Outcome.unplaced, Outcome.ofMachine, hm.canvas, hrecorder, hlines, hfaults]
  have hrel := Comparison.rel_run? htracks rfl ⟨_, Position.home_comp_home, rfl⟩ Iff.rfl
    hstart (S := fun o o' => o.unplaced = o'.unplaced) hend
  replace hrel := hrel.resolve_left And.left
  generalize p.run? settings depth name = o at hrel ⊢
  generalize Program.run? settings depth name _ = o' at hrel ⊢
  cases hrel with
  | none => rfl
  | some h => exact congrArg some h

/-- Texts of one file that are parsed into the same tree, apart from places, run alike. -/
theorem runText?_of_outline (settings : Settings) (depth : Nat) {name s t : String}
    {p q : Program} (hp : parse? name s = .ok p) (hq : parse? name t = .ok q)
    (h : q.outline = p.outline) :
    (runText? settings depth name s).map Outcome.unplaced =
      (runText? settings depth name t).map Outcome.unplaced := by
  simp only [runText?, hp, hq]
  rw [run?_relocate_home settings depth name p, run?_relocate_home settings depth name q,
    relocate_home_of_outline hp hq h]

/-- The run of the canonical text of a program ends when the run of the program does, with the same
picture, the same frames, and the same faults in the same order, up to lines and columns; and the
same is listed on the way. So do the runs of all texts with this canonical text. -/
theorem rendering_invisible (settings : Settings) (depth : Nat) (name source : String)
    (p : Program) (hp : parse? name source = .ok p) :
    (runText? settings depth name source).map Outcome.unplaced =
      (runText? settings depth name p.render).map Outcome.unplaced ∧
    ∀ text q, parse? name text = .ok q → q.render = p.render →
      (runText? settings depth name source).map Outcome.unplaced =
        (runText? settings depth name text).map Outcome.unplaced := by
  have hrendered {text : String} {q : Program} (hq : parse? name text = .ok q) :
      (runText? settings depth name text).map Outcome.unplaced =
        (runText? settings depth name q.render).map Outcome.unplaced := by
    obtain ⟨r, hr, hout⟩ := parse_render (wellFormed_of_parse hq) name
    exact runText?_of_outline settings depth hq hr hout
  refine ⟨hrendered hp, fun text q hq hrender => ?_⟩
  rw [hrendered hp, hrendered hq, hrender]

/-- A text far from its canonical form, with two faults. -/
def sprawlingText : String := "// Nothing here\n\n  PAPER (20)\nset [0 1]   ((7)) / 0\n\nStar (1)"

/-- Its canonical text shows the same. -/
theorem sprawling_renders : ∃ p o o',
    parse? "sprawling" sprawlingText = .ok p ∧
      runText? { length := 2, library := [] } 1 "sprawling" sprawlingText = some o ∧
      runText? { length := 2, library := [] } 1 "sprawling" p.render = some o' ∧
      o.unplaced = o'.unplaced := by
  have hparses : (parse? "sprawling" sprawlingText).toOption.isSome = true := by decide +kernel
  have hruns : (runText? { length := 2, library := [] } 1 "sprawling" sprawlingText).isSome =
      true := by decide +kernel
  obtain ⟨o, ho⟩ := Option.isSome_iff_exists.1 hruns
  obtain ⟨p, hparse⟩ := exists_parse_of_isSome hparses
  have hshows := (rendering_invisible { length := 2, library := [] } 1 "sprawling" sprawlingText
    p hparse).1
  rw [ho, Option.map_some, eq_comm, Option.map_eq_some_iff] at hshows
  obtain ⟨o', ho', hsame⟩ := hshows
  exact ⟨p, o, o', hparse, ho, ho', hsame.symm⟩

end DrawLang
