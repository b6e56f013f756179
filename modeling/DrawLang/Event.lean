import DrawLang.Syntax.Render

/-!
# Events of a run

A run tells of its milestones and of what it passes over, each at a level of importance.

* `Event.level`, `Event.message`.
* `Event.line`: an event as it is listed.
-/

namespace DrawLang

inductive Level where
  | warning | debug | trace
  deriving DecidableEq, Repr

def Level.name : Level → String
  | warning => "WARN"
  | debug => "DEBUG"
  | trace => "TRACE"

inductive Event where
  /-- The program has been parsed into so many statements. -/
  | programParsed (name : String) (count : Nat)
  /-- A source of the library has been run. -/
  | libraryLoaded (name : String)
  /-- A source of the library does not parse. -/
  | libraryRejected (name : String)
  /-- A further source has been parsed into so many statements. -/
  | sourceLoaded (path : String) (count : Nat)
  /-- A `Value` outside a number has been passed over. -/
  | valueIgnored (result : Expr)
  /-- The frame of the given index is captured. -/
  | frameCaptured (index : Nat)
  /-- The recording is full; said once. -/
  | frameLimitReached (limit : Nat)
  deriving Repr

namespace Event

def level : Event → Level
  | programParsed _ _ | libraryLoaded _ | sourceLoaded _ _ => .debug
  | libraryRejected _ | valueIgnored _ | frameLimitReached _ => .warning
  | frameCaptured _ => .trace

def message : Event → String
  | programParsed name count =>
    "parsed " ++ name ++ ": " ++ toString count ++ " top-level statements"
  | libraryLoaded name => "loaded built-in " ++ name
  | libraryRejected name => "built-in " ++ name ++ " failed to parse"
  | sourceLoaded path count => "loaded " ++ path ++ " (" ++ toString count ++ " statements)"
  | valueIgnored result =>
    "`Value` outside a number body is ignored: " ++ result.render
  | frameCaptured index => "capturing frame " ++ toString index
  | frameLimitReached limit =>
    "frame cap of " ++ toString limit ++ " reached; further frames are dropped"

def line (e : Event) : String := e.level.name ++ ": " ++ e.message

end Event

end DrawLang
