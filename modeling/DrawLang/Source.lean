import DrawLang.Path

/-!
# Sources of text

A program can load further texts by name. Where they come from is up to the host: an opener answers
every name with the bytes behind it, or with the reason why there are none.

* `FileError`: what the system says when it refuses a file.
* `Delivery`: what comes of opening a source and reading it to its end.
* `Opener.none`, `Opener.ofList`, `Opener.under`: nothing at all, fixed contents, files under a base.
-/

namespace DrawLang

inductive FileError where
  | notFound | notDirectory | isDirectory | nameTooLong | nulInName
  | other (text : String)
  deriving DecidableEq, Repr

def FileError.message : FileError → String
  | notFound => "No such file or directory (os error 2)"
  | notDirectory => "Not a directory (os error 20)"
  | isDirectory => "Is a directory (os error 21)"
  | nameTooLong => "File name too long (os error 36)"
  | nulInName => "file name contained an unexpected NUL byte"
  | other text => text

/-- What comes of opening a source and reading it to its end. A source that cannot be opened brings
the text that is shown to the user. -/
inductive Delivery where
  | contents (bytes : List UInt8)
  | unopened (cause : FileError) (message : String)
  | unreadable (cause : FileError)
  deriving DecidableEq, Repr

namespace Delivery

def bytes? : Delivery → Option (List UInt8)
  | contents bytes => some bytes
  | _ => none

def absent (path : String) : Delivery :=
  unopened .notFound ("open " ++ path ++ ": file does not exist")

/-- The same delivery with the path in front of the reason why it was not opened. -/
def namingPath (path : String) : Delivery → Delivery
  | unopened cause message => unopened cause ("open " ++ path ++ ": " ++ message)
  | delivery => delivery

end Delivery

abbrev Opener := String → Delivery

namespace Opener

def none : Opener := Delivery.absent

/-- Has fixed sources under exact paths; of two under one path it has the first. -/
def ofList (sources : List (String × Delivery)) : Opener := fun path =>
  (sources.lookup path).getD (Delivery.absent path)

/-- Reads files under a base directory, wherever the path would lead by itself. -/
def under (base : String) (read : String → Delivery) : Opener := fun path =>
  let file := Path.join base (Path.clean path)
  (read file).namingPath file

end Opener

end DrawLang
