/-!
# File paths

Paths are texts with `/` between their pieces. An empty piece and the piece `.` name nothing, so
they are ignored when the last piece of a path is looked for, but a path is otherwise kept as it
was written: nothing is normalized.

Main definitions:

- `Path.parent`: the directory of a file.
- `Path.join`: a path as seen from a directory.
-/

namespace Cartridge.Path

/-- Pieces that name nothing. -/
def isIdle (piece : String) : Bool :=
  piece == "" || piece == "."

/-- The pieces up to the last one that names something. -/
def dropTrailingIdle (pieces : List String) : List String :=
  (pieces.reverse.dropWhile isIdle).reverse

/-- The directory of a file: the path without its last piece that names something. A leading `/`
or `./` is kept; a path in which nothing is named has the empty directory. -/
def parent (path : String) : String :=
  let directory (body : List String) : Option (List String) :=
    match dropTrailingIdle body with
    | [] => none
    | named => some (dropTrailingIdle named.dropLast)
  match path.splitOn "/" with
  | "" :: first :: rest =>
    match directory (first :: rest) with
    | none => ""
    | some pieces => "/" ++ "/".intercalate pieces
  | "." :: body =>
    match directory body with
    | none => ""
    | some pieces => "/".intercalate ("." :: pieces)
  | body =>
    match directory body with
    | none => ""
    | some pieces => "/".intercalate pieces

/-- Paths that start at the root. -/
def isAbsolute (path : String) : Bool :=
  path.startsWith "/"

/-- The path as seen from a directory. An absolute path stays as it is, and the empty directory
adds nothing. -/
def join (directory path : String) : String :=
  if isAbsolute path || directory == "" then path
  else if directory.endsWith "/" then directory ++ path
  else directory ++ "/" ++ path

end Cartridge.Path
