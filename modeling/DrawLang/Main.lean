import DrawLang.Arguments
import DrawLang.Image.Files
import DrawLang.Syntax.Loads

/-!
# The program

Reads the arguments, the program file and the files that it can load, and then does what the tool does
with the files of the system.
-/

namespace DrawLang

/-- How deep calls and loads can nest. -/
def nestingLimit : Nat := 1000000

/-- Why the system refused a file. -/
def FileError.ofSystem (path : String) : IO.Error → FileError
  | .noFileOrDirectory _ _ _ => .notFound
  | .inappropriateType _ 20 _ => .notDirectory
  | .inappropriateType _ 21 _ => .isDirectory
  | .invalidArgument _ 36 _ => .nameTooLong
  | .permissionDenied _ code _ => .other ("Permission denied (os error " ++ toString code ++ ")")
  | e => if '\x00' ∈ path.toList then .nulInName else .other (toString e)

def readOpened (path : String) (handle : IO.FS.Handle) : IO Delivery := do
  try
    return .contents (← handle.readBinToEnd).toList
  catch e =>
    return .unreadable (.ofSystem path e)

def readFile (path : String) : IO Delivery := do
  try
    readOpened path (← IO.FS.Handle.mk path .read)
  catch e =>
    let cause := FileError.ofSystem path e
    return .unopened cause cause.message

/-- Reads the files that lie beside the program and can be loaded from one that has been read. -/
partial def readLoaded (base : String) (known : List (String × Delivery)) :
    List (List UInt8) → IO (List (String × Delivery))
  | [] => return known
  | bytes :: rest => do
    let paths := match parse? "" (Text.decode bytes) with
      | .error _ => []
      | .ok program => program.loads.map fun path => Path.join base (Path.clean path)
    let mut known := known
    let mut fresh := []
    for path in paths do
      if (known.lookup path).isNone then
        let delivery ← readFile path
        known := (path, delivery) :: known
        fresh := delivery.bytes?.toList ++ fresh
    readLoaded base known (fresh ++ rest)

/-- Does something to a file, which the system may refuse. -/
def attemptWith (path : String) (step : IO Unit) : IO (Except FileError Unit) := do
  try
    step
    return .ok ()
  catch e =>
    return .error (.ofSystem path e)

/-- The files of the system. Nothing is left over when one of them is closed. -/
def systemFiles : Files IO where
  create path := attemptWith path (IO.FS.writeBinFile path .empty)
  append path bytes := attemptWith path do
    (← IO.FS.Handle.mk path .append).write ⟨bytes.toArray⟩
  close _ := return true

def Options.shows (o : Options) (e : Event) : Bool :=
  match e.level with
  | .warning => true
  | .debug => o.verbose
  | .trace => false

/-- Runs the program that the options name, and writes what comes of it. -/
def drawWith (o : Options) : IO Report := do
  let program ← readFile o.input
  let known ← readLoaded (Path.parent o.input) [(o.input, program)] program.bytes?.toList
  match o.run? nestingLimit fun path => (known.lookup path).getD (.absent path) with
  | none => return .failure "the program needs more than there is"
  | some (.error report) => return report
  | some (.ok outcome) =>
    for event in outcome.events do
      if o.shows event then IO.eprintln event.line
    o.finish systemFiles Image.codec outcome

def runCommand (arguments : List String) : IO Report := do
  match Request.ofArguments arguments with
  | .error e => return ⟨2, ["error: " ++ e.message, "For more information, try '--help'."]⟩
  | .ok .help =>
    for line in Request.helpText do IO.println line
    return .success
  | .ok .version =>
    IO.println Request.versionText
    return .success
  | .ok (.draw o) => drawWith o

end DrawLang

open DrawLang in
def main (arguments : List String) : IO UInt32 := do
  let report ← runCommand arguments
  for line in report.errors do IO.eprintln line
  return report.exitCode.toUInt32
