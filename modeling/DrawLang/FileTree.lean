import DrawLang.FileSystem

/-!
# A tree of files

Directories and files below a root, seen from a working directory. Looking up a path walks it part by
part from the working directory, or from the root if it begins with a slash; every part but the last
must lead to a directory, and a path of a file must not end with a slash.

* `FileTree.locate`: where a path leads.
* `FileTree.place`: where a path would put a file.
* `FileTree.system`: the tree as a system that keeps files.
-/

namespace DrawLang

/-- A place in the tree: the names that lead to it, the innermost first. The root is `[]`. -/
abbrev Location := List String

inductive Entry where
  | directory
  | file (bytes : List UInt8)
  deriving DecidableEq, Repr

/-- Directories and files by their places, and the working directory. -/
structure FileTree where
  entries : List (Location × Entry)
  home : Location

namespace FileTree

/-- The longest name of a file, in bytes. -/
def maxNameLength : Nat := 255

/-- The longest path, in bytes. -/
def maxPathLength : Nat := 4095

/-- What stands at a place; the root is always a directory. -/
def lookup? (tree : FileTree) : Location → Option (Entry)
  | [] => some .directory
  | here => tree.entries.lookup here

def enter (tree : FileTree) (here : Location) (name : String) : Except FileError Location :=
  if name.utf8ByteSize > maxNameLength then .error .nameTooLong
  else match tree.lookup? (name :: here) with
    | none => .error .notFound
    | some _ => .ok (name :: here)

def walk (tree : FileTree) : Location → List String → Except FileError Location
  | here, [] => .ok here
  | here, part :: rest =>
    match tree.lookup? here with
    | some .directory =>
      if !Path.moves part then tree.walk here rest
      else if part = ".." then tree.walk here.tail rest
      else do tree.walk (← tree.enter here part) rest
    | _ => .error .notDirectory

/-- Refuses the paths that name nothing whatever the tree holds. -/
def checkPath (path : String) : Except FileError Unit :=
  if '\x00' ∈ path.toList then .error .nulInName
  else if path.isEmpty then .error .notFound
  else if path.utf8ByteSize > maxPathLength then .error .nameTooLong
  else .ok ()

def origin (tree : FileTree) (path : String) : Location :=
  if path.startsWith "/" then [] else tree.home

def locate (tree : FileTree) (path : String) : Except FileError Location := do
  checkPath path
  tree.walk (tree.origin path) (Path.parts path)

/-- What comes of reading the file at a path. A directory opens, but cannot be read. -/
def read (tree : FileTree) (path : String) : Delivery :=
  match tree.locate path with
  | .error cause => .unopened cause cause.message
  | .ok here =>
    match tree.lookup? here with
    | some (.file bytes) => .contents bytes
    | some .directory => .unreadable .isDirectory
    | none => .unopened .notFound FileError.notFound.message

/-- Where a path would put a file: at the end of the path, in a directory, and not on one. -/
def place (tree : FileTree) (path : String) : Except FileError Location := do
  checkPath path
  let parts := Path.parts path
  match (parts.reverse.dropWhile (· = "")) with
  | [] => .error .isDirectory
  | name :: above =>
    let here ← tree.walk (tree.origin path) above.reverse
    match tree.lookup? here with
    | some .directory =>
      if parts.getLast? = some "" ∨ name = "." ∨ name = ".." then .error .isDirectory
      else if name.utf8ByteSize > maxNameLength then .error .nameTooLong
      else match tree.lookup? (name :: here) with
        | some .directory => .error .isDirectory
        | _ => .ok (name :: here)
    | _ => .error .notDirectory

def put (tree : FileTree) (here : Location) (entry : Entry) : FileTree :=
  { tree with entries := (here, entry) :: tree.entries }

/-- The tree with a directory at a place and at all places above it that are free. -/
def putDirectories (tree : FileTree) : Location → FileTree
  | [] => tree
  | name :: above =>
    let tree := tree.putDirectories above
    match tree.lookup? (name :: above) with
    | some _ => tree
    | none => tree.put (name :: above) .directory

/-- A tree with a working directory and entries at paths below it. -/
def ofList (home : Location) (entries : List (String × Entry)) : FileTree :=
  entries.foldl (fun tree e =>
      let here := ((Path.parts e.1).filter Path.moves).reverse ++ home
      (tree.putDirectories here.tail).put here e.2)
    ((⟨[], home⟩ : FileTree).putDirectories home)

/-- Puts an empty file at a path. -/
def create (path : String) : StateM FileTree (Except FileError Unit) := fun tree =>
  match tree.place path with
  | .error cause => (.error cause, tree)
  | .ok here => (.ok (), tree.put here (.file []))

/-- Puts bytes behind those of the file at a path. -/
def append (path : String) (bytes : List UInt8) : StateM FileTree (Except FileError Unit) :=
  fun tree =>
    match tree.locate path with
    | .error cause => (.error cause, tree)
    | .ok here =>
      match tree.lookup? here with
      | some (.file before) => (.ok (), tree.put here (.file (before ++ bytes)))
      | _ => (.error .notFound, tree)

/-- Trees as a system that keeps files, which are told apart by their places. -/
def system : FileSystem FileTree Location where
  create := create
  append := append
  close _ := pure true
  read := read
  file? tree path := (tree.locate path).toOption

/-! ## Laws -/

@[simp] theorem lookup?_put (tree : FileTree) (name : String) (here : Location)
    (entry : Entry) : (tree.put (name :: here) entry).lookup? (name :: here) = some entry := by
  simp [put, lookup?]

theorem lookup?_put_of_ne (tree : FileTree) {here there : Location} (h : there ≠ here)
    (entry : Entry) : (tree.put here entry).lookup? there = tree.lookup? there := by
  cases there with
  | nil => rfl
  | cons name above =>
    have h' : ((name :: above) == here) = false := by simpa using h
    simp only [put, lookup?, List.lookup_cons, h']

end FileTree

end DrawLang
