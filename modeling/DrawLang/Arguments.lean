import DrawLang.Tool

/-!
# The arguments of the tool

Arguments are read from left to right. An option is followed by its value; a flag stands alone, and
several one-letter flags can share a dash. The first mistake ends the reading, and so do the flags
that ask for help or for the version.

* `Request.ofArguments`: what the arguments ask for.
* `Request.helpText`, `Request.versionText`
-/

namespace DrawLang

inductive Request where
  | help
  | version
  | draw (options : Options)
  deriving DecidableEq, Repr

inductive UsageError where
  | unknownArgument (text : String)
  | missingValue (option : String)
  | unneededValue (flag : String)
  | invalidValue (option value : String)
  | repeated (option : String)
  | missingInput
  deriving DecidableEq, Repr

def UsageError.message : UsageError → String
  | unknownArgument text => "unexpected argument '" ++ text ++ "'"
  | missingValue option => "a value is required for '" ++ option ++ "'"
  | unneededValue flag => "unexpected value for '" ++ flag ++ "'"
  | invalidValue option value => "invalid value '" ++ value ++ "' for '" ++ option ++ "'"
  | repeated option => "'" ++ option ++ "' cannot be used multiple times"
  | missingInput => "'--input' is required"

inductive Setting where
  | input | png | gif | scale | frameLimit
  deriving DecidableEq, Repr

inductive Flag where
  | withoutLibrary | verbose | help | version
  deriving DecidableEq, Repr

namespace Setting

def all : List Setting := [input, png, gif, scale, frameLimit]

def longName : Setting → String
  | input => "input"
  | png => "png"
  | gif => "gif"
  | scale => "scale"
  | frameLimit => "max-frames"

def shortName? : Setting → Option Char
  | input => some 'i'
  | png => some 'p'
  | gif => some 'g'
  | scale => some 's'
  | frameLimit => none

/-- How messages name an option. -/
def label (s : Setting) : String := "--" ++ s.longName

end Setting

namespace Flag

def all : List Flag := [withoutLibrary, verbose, help, version]

def longName : Flag → String
  | withoutLibrary => "no-builtins"
  | verbose => "verbose"
  | help => "help"
  | version => "version"

def shortName? : Flag → Option Char
  | withoutLibrary => none
  | verbose => some 'v'
  | help => some 'h'
  | version => some 'V'

def label (f : Flag) : String := "--" ++ f.longName

end Flag

/-- What a name on the command line can mean. -/
inductive Switch where
  | setting (s : Setting)
  | flag (f : Flag)
  deriving DecidableEq, Repr

def Switch.ofLong? (name : String) : Option Switch :=
  ((Setting.all.find? (·.longName = name)).map Switch.setting).or
    ((Flag.all.find? (·.longName = name)).map Switch.flag)

def Switch.ofShort? (c : Char) : Option Switch :=
  ((Setting.all.find? (·.shortName? = some c)).map Switch.setting).or
    ((Flag.all.find? (·.shortName? = some c)).map Switch.flag)

/-! ## Reading arguments -/

structure Given where
  input : Option String := none
  png : Option String := none
  gif : Option String := none
  scale : Option UInt32 := none
  frameLimit : Option UInt64 := none
  withoutLibrary : Bool := false
  verbose : Bool := false

/-- A whole number, with or without a plus sign, from `least` to below `limit`. -/
def numberWithin (least limit : Nat) (text : String) : Option Nat :=
  let digits := match text.toList with
    | '+' :: digits => digits
    | digits => digits
  let n := decimal digits
  if !digits.isEmpty && digits.all Char.isDigit && least ≤ n && n < limit then some n else none

/-- A path is any text but the empty one. -/
def pathValue (text : String) : Option String := if text.isEmpty then none else some text

def store {α : Type} (s : Setting) (text : String) (value : Option α) (before : Option α) :
    Except UsageError (Option α) :=
  match value, before with
  | none, _ => .error (.invalidValue s.label text)
  | some _, some _ => .error (.repeated s.label)
  | some v, none => .ok (some v)

namespace Given

def take (g : Given) (text : String) : Setting → Except UsageError Given
  | .input => do return { g with input := ← store .input text (pathValue text) g.input }
  | .png => do return { g with png := ← store .png text (pathValue text) g.png }
  | .gif => do return { g with gif := ← store .gif text (pathValue text) g.gif }
  | .scale => do
    let value := (numberWithin 1 UInt32.size text).map UInt32.ofNat
    return { g with scale := ← store .scale text value g.scale }
  | .frameLimit => do
    let value := (numberWithin 0 UInt64.size text).map UInt64.ofNat
    return { g with frameLimit := ← store .frameLimit text value g.frameLimit }

def raise (g : Given) : Flag → Except UsageError (Given ⊕ Request)
  | .withoutLibrary =>
    if g.withoutLibrary then .error (.repeated Flag.withoutLibrary.label)
    else .ok (.inl { g with withoutLibrary := true })
  | .verbose =>
    if g.verbose then .error (.repeated Flag.verbose.label)
    else .ok (.inl { g with verbose := true })
  | .help => .ok (.inr .help)
  | .version => .ok (.inr .version)

def request (g : Given) : Except UsageError Request :=
  match g.input with
  | none => .error .missingInput
  | some input => .ok (.draw
    { input
      png := g.png.getD "dbn.png"
      gif := g.gif
      scale := g.scale.getD 1
      frameLimit := g.frameLimit.getD 0
      withoutLibrary := g.withoutLibrary
      verbose := g.verbose })

end Given

/-- Where the reading of one argument leaves things: more can follow, a request has been met, or the
next argument is the value of an option. -/
inductive Reading where
  | further (given : Given)
  | settled (request : Request)
  | awaiting (given : Given) (s : Setting)

/-- Reads letters that share a dash. What follows the letter of an option is its value, after an
equals sign if there is one. -/
def readLetters : Given → List Char → Except UsageError Reading
  | g, [] => .ok (.further g)
  | g, c :: cs =>
    match Switch.ofShort? c with
    | none => .error (.unknownArgument (String.ofList ['-', c]))
    | some (.flag f) => do
      match ← g.raise f with
      | .inr request => return .settled request
      | .inl g => readLetters g cs
    | some (.setting s) =>
      match cs with
      | [] => .ok (.awaiting g s)
      | '=' :: value => do return .further (← g.take (String.ofList value) s)
      | value => do return .further (← g.take (String.ofList value) s)

/-- Reads a long name, with its value if an equals sign follows. -/
def readLong (g : Given) (text : List Char) : Except UsageError Reading :=
  let name := String.ofList (text.takeWhile (· ≠ '='))
  match Switch.ofLong? name, text.dropWhile (· ≠ '=') with
  | none, _ => .error (.unknownArgument ("--" ++ name))
  | some (.setting s), [] => .ok (.awaiting g s)
  | some (.setting s), _ :: value => do return .further (← g.take (String.ofList value) s)
  | some (.flag _), _ :: _ => .error (.unneededValue ("--" ++ name))
  | some (.flag f), [] => do
    match ← g.raise f with
    | .inr request => return .settled request
    | .inl g => return .further g

def readArgument (g : Given) (argument : String) : Except UsageError Reading :=
  match argument.toList with
  | '-' :: '-' :: text => readLong g text
  | '-' :: c :: cs => readLetters g (c :: cs)
  | _ => .error (.unknownArgument argument)

/-- Whether an argument can be the value of the option before it. -/
def isValue (argument : String) : Bool :=
  match argument.toList with
  | '-' :: _ :: _ => false
  | _ => true

/-- Reads arguments. Two dashes end them; nothing may follow. -/
def readArguments : Given → List String → Except UsageError Request
  | g, [] => g.request
  | g, "--" :: rest =>
    match rest with
    | [] => g.request
    | argument :: _ => .error (.unknownArgument argument)
  | g, argument :: rest => do
    match ← readArgument g argument with
    | .settled request => return request
    | .further g => readArguments g rest
    | .awaiting g s =>
      match rest with
      | [] => .error (.missingValue s.label)
      | value :: rest =>
        if isValue value then readArguments (← g.take value s) rest
        else .error (.missingValue s.label)

/-- What the arguments of the tool ask for. -/
def Request.ofArguments (arguments : List String) : Except UsageError Request :=
  readArguments {} arguments

def Request.helpText : List String :=
  ["Run a drawing program",
   "",
   "Usage: dbn [OPTIONS] --input <INPUT>",
   "",
   "Options:",
   "  -i, --input <INPUT>            Program to run",
   "  -p, --png <PNG>                Where to write the final canvas [default: dbn.png]",
   "  -g, --gif <GIF>                Also record every drawing step into an animated GIF",
   "  -s, --scale <SCALE>            Output scale factor [default: 1]",
   "      --max-frames <MAX_FRAMES>  Keep at most this many GIF frames (0 = all) [default: 0]",
   "      --no-builtins              Skip the built-in letter and shape library",
   "  -v, --verbose                  Log at debug level",
   "  -h, --help                     Print help",
   "  -V, --version                  Print version"]

def Request.versionText : String := "dbn 0.1.0"

end DrawLang
