/-!
# Files at hand

The files that a compilation can read, as a tree below a working directory. A path is walked piece
by piece from the working directory, or from the root of the machine if it starts with a slash. Only
a directory leads on to a further piece, and there is one cause for each way in which a walk ends
early. Reading and writing walk alike. Outside of the working directory nothing is known but the
null device, which reads as empty and takes whatever is written.

Main definitions:

- `Files`: how a compilation asks for the contents of a file.
- `FileTree.locate`: the place that a path leads to.
- `FileTree.read`: reading from a given tree.
- `FileTree.write?`: writing into it.
-/

namespace Cartridge

/-- Why a file could not be read. -/
inductive FileError where
  | notFound
  | notDirectory
  | isDirectory
  | nameTooLong
  | nulInName
  /-- Anything else that a machine reports, in its own words. -/
  | other (text : String)
deriving DecidableEq, Repr

/-- The text of a cause, as operating systems spell it. -/
def FileError.message : FileError → String
  | notFound => "No such file or directory (os error 2)"
  | notDirectory => "Not a directory (os error 20)"
  | isDirectory => "Is a directory (os error 21)"
  | nameTooLong => "File name too long (os error 36)"
  | nulInName => "file name contained an unexpected NUL byte"
  | other text => text

/-- The contents of files by their paths. -/
abbrev Files := String → Except FileError (List UInt8)

/-- Files below a working directory, each with the pieces of its path. -/
structure FileTree where
  entries : List (List String × List UInt8) := []
deriving Repr

namespace FileTree

/-! ## What a tree holds -/

/-- The contents of the file at the given pieces. -/
def contents? (tree : FileTree) (pieces : List String) : Option (List UInt8) :=
  tree.entries.lookup pieces

/-- Whether there is a directory at the given pieces: the top of the tree is one, and so is
whatever holds a file. -/
def isDirectory (tree : FileTree) (pieces : List String) : Bool :=
  pieces.isEmpty || tree.entries.any fun entry =>
    pieces.length < entry.1.length && entry.1.take pieces.length == pieces

/-- What stands at a place. -/
inductive Node where
  | file (bytes : List UInt8)
  | directory
deriving DecidableEq, Repr

/-- What stands at the given pieces. -/
def entry? (tree : FileTree) (pieces : List String) : Option Node :=
  match tree.contents? pieces with
  | some bytes => some (.file bytes)
  | none => if tree.isDirectory pieces then some .directory else none

/-- What is known below the root of every machine: the null device. -/
def machine : FileTree := { entries := [(["dev", "null"], [])] }

/-! ## Walking a path -/

/-- A place that a path leads to. -/
inductive Place where
  /-- Below the working directory, by the pieces of the way there. -/
  | inside (pieces : List String)
  /-- Below the root of the machine, by the pieces of the way there. -/
  | rooted (pieces : List String)
  /-- A directory above the working directory, of which nothing is known. -/
  | above
deriving DecidableEq, Repr

/-- The directory that holds a place. The root holds itself. -/
def Place.parent : Place → Place
  | inside [] => above
  | inside (piece :: pieces) => inside (piece :: pieces).dropLast
  | rooted pieces => rooted pieces.dropLast
  | above => above

/-- What stands at a place. -/
def node? (tree : FileTree) : Place → Option Node
  | .inside pieces => tree.entry? pieces
  | .rooted pieces => machine.entry? pieces
  | .above => some .directory

/-- The longest name of a file, in bytes. -/
def nameLimit : Nat := 255

/-- The longest path, in bytes. -/
def pathLimit : Nat := 4095

/-- The place of a name in a directory, whether or not anything stands there. -/
def enter (place : Place) (name : String) : Except FileError Place :=
  if name.utf8ByteSize > nameLimit then .error .nameTooLong
  else match place with
    | .inside pieces => .ok (.inside (pieces ++ [name]))
    | .rooted pieces => .ok (.rooted (pieces ++ [name]))
    | .above => .error .notFound

/-- Goes one piece further, which only a directory allows. -/
def step (tree : FileTree) (place : Place) (piece : String) : Except FileError Place :=
  match tree.node? place with
  | none => .error .notFound
  | some (.file _) => .error .notDirectory
  | some .directory =>
    if piece == "" || piece == "." then .ok place
    else if piece == ".." then .ok place.parent
    else enter place piece

/-- The place that a path leads to. Something stands at every place on the way, but there may be
nothing at the last one. -/
def locate (tree : FileTree) (path : String) : Except FileError Place :=
  if path.contains '\x00' then .error .nulInName
  else if path == "" then .error .notFound
  else if path.utf8ByteSize > pathLimit then .error .nameTooLong
  else (path.splitOn "/").foldlM tree.step
    (if path.startsWith "/" then .rooted [] else .inside [])

/-! ## Reading and writing -/

/-- The contents of the file at a path. -/
def read (tree : FileTree) : Files := fun path => do
  match tree.node? (← tree.locate path) with
  | some (.file bytes) => .ok bytes
  | some .directory => .error .isDirectory
  | none => .error .notFound

/-- The pieces of a path that stays below the working directory, without those that name
nothing. -/
def pieces? (path : String) : Option (List String) :=
  if path.startsWith "/" then none
  else (path.splitOn "/").foldlM (fun pieces piece =>
    if piece == "" || piece == "." then some pieces
    else if piece == ".." then
      if pieces.isEmpty then none else some pieces.dropLast
    else some (pieces ++ [piece])) []

/-- Puts a file at the given pieces, in place of one that was there. -/
def insert (tree : FileTree) (pieces : List String) (bytes : List UInt8) : FileTree :=
  { entries := (pieces, bytes) :: tree.entries.filter fun entry => entry.1 != pieces }

/-- A file that was put into a tree is found there. -/
@[simp] theorem contents?_insert_self (tree : FileTree) (pieces : List String)
    (bytes : List UInt8) : (tree.insert pieces bytes).contents? pieces = some bytes := by
  simp [insert, contents?]

/-- Putting a file into a tree leaves all other files as they were. -/
theorem contents?_insert_of_ne (tree : FileTree) {pieces other : List String}
    (bytes : List UInt8) (h : other ≠ pieces) :
    (tree.insert pieces bytes).contents? other = tree.contents? other := by
  have head : (other == pieces) = false := by simpa using h
  simp only [insert, contents?, List.lookup_cons, head]
  induction tree.entries with
  | nil => rfl
  | cons entry rest ih =>
    obtain ⟨name, old⟩ := entry
    by_cases same : name = pieces
    · subst same
      simp [List.lookup_cons, head, ih]
    · have kept : (name != pieces) = true := by simpa using same
      simp only [List.filter_cons, kept, if_true, List.lookup_cons, ih]

/-- Adds a file at a path below the working directory, with the directories it needs. -/
def add (tree : FileTree) (path : String) (bytes : List UInt8) : FileTree :=
  match pieces? path with
  | some pieces => tree.insert pieces bytes
  | none => tree

/-- Writes a file at a place. No directory may stand there, and outside of the working directory
nothing new is made. -/
def writeAt? (tree : FileTree) (place : Place) (bytes : List UInt8) : Option FileTree :=
  match place, tree.node? place with
  | _, some .directory => none
  | .inside pieces, _ => some (tree.insert pieces bytes)
  | _, some (.file _) => some tree
  | _, none => none

/-- Writes the file at a path. -/
def write? (tree : FileTree) (path : String) (bytes : List UInt8) : Option FileTree :=
  match tree.locate path with
  | .ok place => tree.writeAt? place bytes
  | .error _ => none

/-- The files that lie in the working directory itself, by name. -/
def top (tree : FileTree) : List (String × List UInt8) :=
  tree.entries.filterMap fun
    | ([name], bytes) => some (name, bytes)
    | _ => none

end FileTree

end Cartridge
