import DrawLang.Interpreter
import DrawLang.Library

/-!
# Runs

A run reads and parses a program, runs the library into the root frame, paints the paper white, runs
the program, and hands out the picture with everything that was listed on the way. It always gives a
picture; one of a program that cannot be read or parsed is transparent.

A run goes only to a given depth of calls and loads, and has no outcome if the program needs more.
Nor has it one if the canvas or the picture is too large to be made: the arithmetic of sizes is
checked, so a size that leaves the word stops the run.

* `Settings`, `Outcome`.
* `Program.run?`, `runText?`, `run?`: the run of a program, of a text, and of bytes.
-/

namespace DrawLang

structure Settings where
  /-- The length of the edges of the canvas. -/
  length : UInt64 := 100
  /-- How many pixels of the picture a pixel of the canvas makes, each way; 0 counts as 1. -/
  scale : UInt64 := 1
  opener : Opener := Opener.none
  recording : Bool := false
  /-- How many frames are kept; 0 stands for all. -/
  frameLimit : Nat := 0
  library : Library := Library.standard

structure Outcome where
  canvas : Canvas
  frames : Array Frame
  faults : Array Fault
  events : Array Event

namespace Outcome

def unexecuted? (settings : Settings) (fault : Fault) : Option Outcome := do
  let canvas ← Canvas.new? settings.length.toNat settings.length.toNat
  let picture ← canvas.scaled? .checked settings.scale.toNat
  return { canvas := picture, frames := #[], faults := #[fault], events := #[] }

def ofMachine? (settings : Settings) (m : Machine) : Option Outcome := do
  let picture ← m.canvas.scaled? .checked settings.scale.toNat
  return { canvas := picture, frames := m.recorder.frames, faults := m.faults, events := m.events }

def isClean (o : Outcome) : Bool := o.faults.isEmpty

end Outcome

/-- Runs the sources of a library. One that does not parse is a fault, and is left out. -/
def Library.exec (run : BodyRunner) : Library → Exec Unit
  | [] => return ()
  | source :: sources => do
    match parse? source.name source.text with
    | .error place =>
      tell (.libraryRejected source.name)
      report (.misplacedToken place)
    | .ok program =>
      run program
      tell (.libraryLoaded source.name)
    Library.exec run sources

def Program.exec (run : BodyRunner) (library : Library) (program : Program) : Exec Unit := do
  library.exec run
  draw fun canvas _ => canvas.fill .white
  run program

def Settings.start (settings : Settings) (name : String) (program : Program) : Machine :=
  let recorder := Recorder.new settings.recording settings.frameLimit settings.scale.toNat
  let m := Machine.start settings.length recorder
  { m with events := m.events.push (.programParsed name program.length) }

/-- The run of a program, to a depth. -/
def Program.run? (settings : Settings) (depth : Nat) (name : String) (program : Program) :
    Option Outcome := do
  guard (Canvas.Fits settings.length.toNat settings.length.toNat)
  let run := execAt settings.opener depth
  let ((), m) ← (program.exec run settings.library).run (settings.start name program)
  Outcome.ofMachine? settings m

def runText? (settings : Settings) (depth : Nat) (name text : String) : Option Outcome :=
  match parse? name text with
  | .error place => Outcome.unexecuted? settings (.misplacedToken place)
  | .ok program => program.run? settings depth name

def run? (settings : Settings) (depth : Nat) (name : String)
    (source : Except FileError (List UInt8)) : Option Outcome :=
  match source with
  | .error cause => Outcome.unexecuted? settings (.unreadable name cause.message)
  | .ok bytes => runText? settings depth name (Text.decode bytes)

end DrawLang
