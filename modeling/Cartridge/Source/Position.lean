import Cartridge.Source.Path

/-!
# Source positions

Where something was written: a file, a line and a column. A tree may leave positions out; the
default position then stands in.
-/

namespace Cartridge

/-- A place in a source file. -/
structure Position where
  file : String := ""
  line : UInt64 := 0
  col : UInt64 := 0
deriving DecidableEq, Repr, Inhabited

namespace Position

/-- The position as messages show it. -/
def text (pos : Position) : String :=
  s!"{pos.file}:{pos.line.toNat}[{pos.col.toNat}]"

/-- A path resolved against the directory of the position's file. -/
def sibling (pos : Position) (path : String) : String :=
  Path.join (Path.parent pos.file) path

end Position

/-- A name together with the place where it stands. -/
structure Name where
  text : String
  pos : Position := {}
deriving DecidableEq, Repr, Inhabited

/-- The dotted text of a path of names. -/
def Name.dotted (path : List Name) : String :=
  ".".intercalate (path.map Name.text)

end Cartridge
