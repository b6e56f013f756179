import DrawLang.FileSystem
import DrawLang.Image.Codec
import DrawLang.Run

/-!
# The tool

The tool runs a program from a file and writes the picture to a file, and on request the recorded
drawing steps to another one. Nothing is written when the program has a fault. Encoders make the
bytes of the files, and the system takes them; where one of the two fails, the tool stops with an
error, and what has been written stays.

* `Options`, `Options.settings`: what the tool is told, and how it runs the program then.
* `Files.writePng`, `Files.writeGif`: how images are written.
* `Options.finish`: what the tool does when the program has been run.
* `runTool?`: the whole of it.
-/

namespace DrawLang

structure Options where
  input : String
  /-- Where the picture goes. -/
  png : String := "dbn.png"
  /-- Where the recorded frames go, if anywhere. -/
  gif : Option String := none
  scale : UInt32 := 1
  /-- How many frames are kept; 0 stands for all. -/
  frameLimit : UInt64 := 0
  withoutLibrary : Bool := false
  verbose : Bool := false
  deriving DecidableEq, Repr

/-- How the program is run. The texts that it loads lie beside it. -/
def Options.settings (o : Options) (read : String → Delivery) : Settings :=
  { scale := o.scale.toUInt64
    opener := Opener.under (Path.parent o.input) read
    recording := o.gif.isSome
    frameLimit := o.frameLimit.toNat
    library := if o.withoutLibrary then Library.none else Library.standard }

/-- What the tool leaves behind besides files: its exit code, and the texts that it prints as
errors. -/
structure Report where
  exitCode : Nat
  errors : List String
  deriving DecidableEq, Repr

namespace Report

def success : Report := ⟨0, []⟩

def failure (text : String) : Report := ⟨1, ["error: " ++ text]⟩

def faulty (outcome : Outcome) : Report := ⟨1, outcome.faults.toList.map Fault.message⟩

end Report

/-! ## Writing images -/

namespace Files

variable {m : Type → Type} [Monad m]

/-- A step of writing. If it fails, the text of the failure stands behind what was to be done. -/
def attempt (task : String) (step : m (Except FileError Unit)) : ExceptT String m Unit :=
  ExceptT.mk do
    match ← step with
    | .ok () => return .ok ()
    | .error cause => return .error (task ++ cause.message)

/-- Writes what an encoder has handed out. If that was not all, this is a failure as well. -/
def put (files : Files m) (task path : String) (encoding : Encoding) : ExceptT String m Unit := do
  attempt task (files.append path encoding.bytes)
  match encoding.failure with
  | none => return ()
  | some text => throw (task ++ text)

/-- Puts the last bytes into a file and closes it, whatever has come of writing it. If they are lost,
this is not noticed. -/
def closing (files : Files m) (path : String) (last : Option (List UInt8))
    (result : Except String Unit) : ExceptT String m Unit :=
  ExceptT.mk do
    if let some bytes := last then
      let _ ← files.append path bytes
    let _ ← files.close path
    return result

def picture (c : Canvas) : ExceptT String m Canvas :=
  match c.image? with
  | none => throw "canvas buffer does not match its size"
  | some image => return image

def writePng (files : Files m) (codec : ImageCodec) (canvas : Canvas) (path : String) :
    ExceptT String m Unit := do
  let task := "cannot write " ++ path ++ ": "
  let image ← picture canvas
  attempt task (files.create path)
  let result ← ExceptT.lift (files.put task path (codec.png image)).run
  files.closing path none result

/-- Writes frames as images behind those that have been written. Tells which ones have been, and
what has come of it. -/
def writeFrames (files : Files m) (codec : ImageCodec) (path : String) :
    List Slide → List Frame → m (List Slide × Except String Unit)
  | before, [] => return (before, .ok ())
  | before, f :: fs => do
    match ← (picture f.toCanvas).run with
    | .error text => return (before, .error text)
    | .ok image =>
      let slide : Slide := ⟨image, f.delay * 10⟩
      let task := "cannot encode frame " ++ toString before.length ++ ": "
      match ← (files.put task path (codec.gifImage before slide)).run with
      | .error text => return (before, .error text)
      | .ok () => writeFrames files codec path (before ++ [slide]) fs

def writeGif (files : Files m) (codec : ImageCodec) (frames : Array Frame) (path : String) :
    ExceptT String m Unit := do
  attempt ("cannot create " ++ path ++ ": ") (files.create path)
  let (slides, result) ← ExceptT.lift do
    match ← (files.put "" path codec.gifStart).run with
    | .error text => return ([], .error text)
    | .ok () => files.writeFrames codec path [] frames.toList
  files.closing path (some (codec.gifEnd slides)) result

end Files

/-! ## Running the tool -/

def Options.write {m : Type → Type} [Monad m] (o : Options) (files : Files m) (codec : ImageCodec)
    (outcome : Outcome) : ExceptT String m Unit := do
  files.writePng codec outcome.canvas o.png
  match o.gif with
  | none => return ()
  | some path => files.writeGif codec outcome.frames path

def Options.finish {m : Type → Type} [Monad m] (o : Options) (files : Files m) (codec : ImageCodec)
    (outcome : Outcome) : m Report := do
  if outcome.isClean then
    match ← (o.write files codec outcome).run with
    | .ok () => return .success
    | .error text => return .failure text
  else
    return .faulty outcome

/-- The run of the program that the options name, to a depth; or the report that its file cannot be
opened. -/
def Options.run? (o : Options) (depth : Nat) (read : String → Delivery) :
    Option (Except Report Outcome) :=
  let run := DrawLang.run? (o.settings read) depth o.input
  match read o.input with
  | .unopened _ message => some (.error (.failure ("cannot open " ++ o.input ++ ": " ++ message)))
  | .unreadable cause => (run (.error cause)).map .ok
  | .contents bytes => (run (.ok bytes)).map .ok

/-- What the tool does with files that can be read, to a depth of calls and loads. -/
def runTool? {m : Type → Type} [Monad m] (files : Files m) (codec : ImageCodec) (depth : Nat)
    (read : String → Delivery) (o : Options) : Option (m Report) := do
  match ← o.run? depth read with
  | .error report => return (pure report)
  | .ok outcome => return (o.finish files codec outcome)

end DrawLang
